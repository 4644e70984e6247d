import Phrasebook.Store.CatalogFile
import Phrasebook.Yaml.Rendering

namespace Phrasebook

def renderMessages (messages : Messages) : String := (Value.map messages).toData.render

/-- Whether a domain can be the first part of a file name. -/
def isWritableDomain (domain : String) : Bool :=
  match domain.toList with
  | [] => false
  | c :: cs => c != '.' && !(c :: cs).any (fun x => x == '/' || x == '\\' || x == '\x00')

structure Store where
  dir : Path
  locale : String
  deriving Repr

inductive WriteError
  | directory (dir : Path) (cause : FileError)
  | backup (file copy : Path) (cause : FileError)
  | content (file : Path) (cause : FileError)
  deriving Repr

def WriteError.message : WriteError → String
  | directory dir cause => "Failed to create directory: " ++ dir.text ++ ": " ++ cause.message
  | backup file copy cause =>
    "Failed to back up " ++ file.text ++ " to " ++ copy.text ++ ": " ++ cause.message
  | content file cause => "Failed to write file: " ++ file.text ++ ": " ++ cause.message

namespace Store

def fileName (s : Store) (domain : String) : String :=
  domain ++ fileSuffix s.locale (catalogExtensions.headD "")

def filePath (s : Store) (domain : String) : Path := s.dir.join (s.fileName domain)

def backupPath (s : Store) (domain : String) : Path := s.dir.join (backupMark ++ s.fileName domain)

def backUp (s : Store) (t : FileTree) (domain : String) : Except WriteError FileTree :=
  let file := s.filePath domain
  let copy := s.backupPath domain
  if t.hasEntry file then (t.copy file copy).mapError (.backup file copy) else .ok t

/-- Writes the messages of one domain. Where that is impossible it says why; the directories made
for it stay. -/
def write (s : Store) (t : FileTree) (domain : String) (messages : Messages) :
    FileTree × Option WriteError :=
  match t.makeDirectories s.dir with
  | (t, some e) => (t, some (.directory s.dir e))
  | (t, none) =>
    match s.backUp t domain with
    | .error e => (t, some e)
    | .ok t =>
      let file := s.filePath domain
      match t.write file (.text (renderMessages messages)) with
      | .error e => (t, some (.content file e))
      | .ok t => (t, none)

end Store
end Phrasebook
