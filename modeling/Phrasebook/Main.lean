import Phrasebook.Command.Run

namespace Phrasebook.Program

def maxDirectoryDepth : Nat := 256

def locationOf (home : Location) (p : Path) : Location :=
  p.segments.foldl (fun l s =>
    if Path.isIdle s then l else if s = ".." then l.dropLast else l ++ [s])
    (if p.isAbsolute then [] else home)

def pathTo (l : Location) : String := "/" ++ slashed l

def readAll : Nat → FileTree → Location → IO FileTree
  | 0, t, _ => return t
  | depth + 1, t, l => do
    let here := IO.FS.DirEntry.mk ⟨"/"⟩ (slashed l)
    if !(← here.path.pathExists) then return t
    if ← here.path.isDir then
      let mut t := t.place l .directory
      for child in ← here.path.readDir do
        t ← readAll depth t (l ++ [child.fileName])
      return t
    return t.place l (.file (Content.ofBytes (← IO.FS.readBinFile (pathTo l)).toList))

/-- Reads a single file, or notes that a directory stands there. -/
def readOne (t : FileTree) (l : Location) : IO FileTree := readAll 1 t l

def settingsPaths : Nat → Path → List Path
  | 0, _ => []
  | fuel + 1, dir =>
    let above := match dir.parent? with
      | some dir => settingsPaths fuel dir
      | none => []
    dir.join Settings.fileName :: dir.join Settings.repositoryName :: above

/-- Reads what an update may look at: the settings, and the bundle that they lead to. -/
def readForUpdate (t : FileTree) (r : UpdateRequest) : IO FileTree := do
  let mut t := t
  for p in settingsPaths (r.rootPath.text.length + 2) r.rootPath do
    t ← readOne t (locationOf t.home p)
  match Settings.load t r.rootPath with
  | .error _ => return t
  | .ok (s, _) =>
    let dir := r.bundleDir s
    t ← readOne t (locationOf t.home dir)
    for p in [dir.join s.viewsDir, dir.join s.translationsDir] do
      t ← readAll maxDirectoryDepth t (locationOf t.home p)
    return t

def readFor (t : FileTree) : Option Command → IO FileTree
  | none => return t
  | some .init => readOne t (t.home ++ [Settings.fileName])
  | some (.update r) => readForUpdate t r

def writeChanges (before after : FileTree) : IO Unit := do
  for (l, content) in before.changes after do
    if let some c := content then
      IO.FS.createDirAll (pathTo l.dropLast)
      IO.FS.writeBinFile (pathTo l) (ByteArray.mk c.toBytes.toArray)

def printAll (stream : IO.FS.Stream) (lines : List String) : IO Unit := do
  for line in lines do
    stream.putStrLn line

def usageMessage : UsageError → String
  | .unknownArgument => "error: unexpected argument"
  | .unknownCommand => "error: unrecognized subcommand"
  | .repeatedOption => "error: an option cannot be used multiple times"
  | .missingArgument => "error: a locale and a bundle are required"
  | .missingValue => "error: a value is required for an option"
  | .unexpectedValue => "error: an option takes no value"
  | .helpRequested => String.intercalate "\n" helpLines
  | .versionRequested => programName

def answerUsage (e : UsageError) : IO UInt32 := do
  if e = .helpRequested || e = .versionRequested then
    IO.println (usageMessage e)
    return 0
  IO.eprintln (usageMessage e)
  return 2

def run (arguments : List String) : IO UInt32 := do
  match Command.parse arguments with
  | .error e => answerUsage e
  | .ok command =>
    let home := locationOf [] ⟨(← IO.currentDir).toString⟩
    let t ← readFor (({ entries := [], home } : FileTree).place home .directory) command
    let o := Command.run t command
    printAll (← IO.getStdout) o.transcript.out
    printAll (← IO.getStderr) o.transcript.err
    writeChanges t o.tree
    return o.status.code.toUInt32

end Phrasebook.Program

def main (arguments : List String) : IO UInt32 := Phrasebook.Program.run arguments
