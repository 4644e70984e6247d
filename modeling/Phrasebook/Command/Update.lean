import Phrasebook.Command.Line
import Phrasebook.Harvest
import Phrasebook.Merge
import Phrasebook.Settings
import Phrasebook.Store.Writing

/-!
The update of a bundle: its messages are extracted, joined with the catalog that it has, and shown
or written. Only the last step changes files.
-/
namespace Phrasebook

/-- How a run ended: well, with templates left out, or before its end. -/
inductive ExitStatus
  | success
  | failure
  | error
  deriving DecidableEq, Repr

def ExitStatus.code : ExitStatus → Nat
  | success => 0
  | failure => 1
  | error => 2

structure Transcript where
  out : List String := []
  err : List String := []
  deriving DecidableEq, Repr

structure Outcome where
  status : ExitStatus
  transcript : Transcript
  tree : FileTree

def Outcome.abort (tree : FileTree) (transcript : Transcript) (message : String) : Outcome :=
  { status := .error, tree
    transcript := { transcript with err := transcript.err ++ ["Error: " ++ message] } }

/-- A computation that prints and may break off, and that changes no file. -/
abbrev Printing := ExceptT String (StateM Transcript)

namespace Printing

def say (lines : List String) : Printing Unit :=
  modify fun s => { s with out := s.out ++ lines }

def complain (lines : List String) : Printing Unit :=
  modify fun s => { s with err := s.err ++ lines }

def check {ε α : Type} (message : ε → String) : Except ε α → Printing α
  | .ok a => return a
  | .error e => throw (message e)

end Printing

/-- Whether a text is a language of two or three letters, with parts of two to eight letters or
digits behind it. -/
def isLocale (text : String) : Bool :=
  let isPart (least most : Nat) (allowed : Char → Bool) (cs : List Char) : Bool :=
    least ≤ cs.length && cs.length ≤ most && cs.all allowed
  match splitAt (fun c => c == '_' || c == '-') text.toList with
  | [] => false
  | language :: parts =>
    isPart 2 3 Char.isAlpha language && parts.all (isPart 2 8 Char.isAlphanum)

def parsingLine (file : Path) : String := "Parsing : " ++ file.text

structure UpdatePlan where
  store : Store
  merged : Catalog
  /-- Whether every template could be used. -/
  complete : Bool

namespace UpdateRequest

def rootPath (r : UpdateRequest) : Path := ⟨r.root.getD "."⟩

/-- The directory of the bundle: under its name in the settings, or else the path itself. -/
def bundleDir (r : UpdateRequest) (s : Settings) : Path :=
  r.rootPath.join ((Entries.get? s.bundles r.bundle).getD r.bundle)

def plan (r : UpdateRequest) (t : FileTree) : Printing UpdatePlan := do
  if !isLocale r.locale then throw ("Invalid locale \"" ++ r.locale ++ "\"")
  let (settings, file) ← Printing.check SettingsError.message (Settings.load t r.rootPath)
  if r.verbose then
    Printing.complain (file.toList.map fun file => "Using config " ++ file.text)
  let dir := r.bundleDir settings
  if !t.isDirectory dir then
    throw ("Bundle \"" ++ r.bundle ++ "\" does not exist (looked in " ++ dir.text ++ ")")
  let found := settings.selection.search t (dir.join settings.viewsDir) r.verbose
  Printing.complain (found.warnings.map warning)
  Printing.say (found.templates.map parsingLine)
  let harvest := Harvest.ofFiles (settings.extractOptions r.placeholder) t found.templates
  Printing.complain (templateWarnings r.verbose harvest.errors)
  let store : Store := { dir := dir.join settings.translationsDir, locale := r.locale }
  let persisted ← Printing.check CatalogError.message (loadCatalog t store.dir r.locale)
  Printing.say (persisted.files.map parsingLine ++ ["", "Merging..."])
  return { store, merged := harvest.catalog.reconcile persisted.catalog,
           complete := harvest.errors.isEmpty }

end UpdateRequest

namespace UpdatePlan

/-- Writes domains one after the other, up to the first that cannot be written. -/
def writeDomains (p : UpdatePlan) : List (String × Messages) → FileTree → Transcript →
    FileTree × Transcript × Option WriteError
  | [], t, s => (t, s, none)
  | (domain, messages) :: ds, t, s =>
    if isWritableDomain domain then
      let s := { s with out := s.out ++ ["Writing " ++ p.store.fileName domain] }
      match p.store.write t domain messages with
      | (t, some e) => (t, s, some e)
      | (t, none) => writeDomains p ds t s
    else
      let skipped := warning ("Skipping domain \"" ++ domain ++ "\": not usable as a file name")
      writeDomains p ds t { s with err := s.err ++ [skipped] }

def status (p : UpdatePlan) : ExitStatus := if p.complete then .success else .failure

def dump (p : UpdatePlan) (s : Transcript) : Transcript :=
  { s with out := s.out ++ ["", "Merged messages"] ++ p.merged.listing }

def write (p : UpdatePlan) (t : FileTree) (s : Transcript) : Outcome :=
  match p.writeDomains p.merged.domains t { s with out := s.out ++ ["", "Writing files..."] } with
  | (t, s, none) => { status := p.status, transcript := s, tree := t }
  | (t, s, some e) => .abort t s e.message

end UpdatePlan

/-- Runs an update. Without a choice between showing and writing it does nothing. -/
def UpdateRequest.run (r : UpdateRequest) (t : FileTree) : Outcome :=
  if !r.force && !r.dump then
    { status := .success, tree := t
      transcript := { out := ["You should choose option --force or --dump-messages"] } }
  else
    match (r.plan t).run.run {} with
    | (.error message, s) => .abort t s message
    | (.ok p, s) =>
      let s := if r.dump then p.dump s else s
      if r.force then p.write t s else { status := p.status, transcript := s, tree := t }

end Phrasebook
