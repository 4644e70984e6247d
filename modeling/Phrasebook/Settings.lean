import Phrasebook.Extraction
import Phrasebook.Json.Reading
import Phrasebook.Template.Discovery
import Phrasebook.Text.Quoted

/-!
Settings of a project: a JSON file whose members may all be left out. It is looked for in a
directory and in those above it, up to the one that holds a repository.
-/
namespace Phrasebook

structure Settings where
  placeholder : String := "__"
  defaultDomain : String := "messages"
  viewsDir : String := "Resources/views"
  translationsDir : String := "Resources/translations"
  templatePatterns : List String := ["*.html.twig"]
  ignores : List String := []
  /-- The directories of bundles under their names, which stand in order. -/
  bundles : Entries String := []
  maxDepth : Nat := 512
  deriving DecidableEq, Repr

inductive SettingsFault
  | badIgnore (pattern : String) (cause : GlobError)
  | badPattern (pattern : String) (cause : GlobError)
  | noPatterns
  | noDefaultDomain
  | noDepth
  deriving DecidableEq, Repr

def SettingsFault.message : SettingsFault → String
  | badIgnore pattern cause =>
    "Invalid glob pattern in 'ignores': \"" ++ pattern ++ "\": " ++ cause.message
  | badPattern pattern cause =>
    "Invalid glob pattern in 'templatePatterns': \"" ++ pattern ++ "\": " ++ cause.message
  | noPatterns => "'templatePatterns' must not be empty"
  | noDefaultDomain => "'defaultDomain' must not be empty"
  | noDepth => "'maxDepth' must be greater than 0"

inductive SettingsError
  | unreadable (path : Path) (cause : FileError)
  | malformed (path : Path)
  | unusable (fault : SettingsFault)
  deriving Repr

def SettingsError.message : SettingsError → String
  | unreadable path cause =>
    "Failed to read config file: " ++ quotedText path.text ++ ": " ++ cause.message
  | malformed path => "Failed to parse config file: " ++ quotedText path.text
  | unusable fault => fault.message

namespace Settings

def asText? : JsonValue → Option String
  | .text s => s
  | _ => none

def asTexts? : JsonValue → Option (List String)
  | .array items => items.mapM asText?
  | _ => none

def asNatural? : JsonValue → Option Nat
  | .number numeral => (natural? 10 numeral).filter (· < UInt64.size)
  | _ => none

/-- Named texts in the order of the names; of two with one name the last counts. -/
def asBundles? : JsonValue → Option (Entries String)
  | .object members => do
    let pairs ← members.mapM fun m => do return (← m.1, ← asText? m.2)
    return (Entries.ofList pairs).mergeSort fun a b => a.1 ≤ b.1
  | _ => none

/-- The members in their order, each with what its value changes. -/
def fields : List (String × (JsonValue → Settings → Option Settings)) :=
  [("prefix", fun v s => do return { s with placeholder := ← asText? v }),
   ("defaultDomain", fun v s => do return { s with defaultDomain := ← asText? v }),
   ("viewsDir", fun v s => do return { s with viewsDir := ← asText? v }),
   ("translationsDir", fun v s => do return { s with translationsDir := ← asText? v }),
   ("templatePatterns", fun v s => do return { s with templatePatterns := ← asTexts? v }),
   ("ignores", fun v s => do return { s with ignores := ← asTexts? v }),
   ("bundles", fun v s => do return { s with bundles := ← asBundles? v }),
   ("maxDepth", fun v s => do return { s with maxDepth := ← asNatural? v })]

/-- Reads members. Unknown ones are passed over, and known ones stand once. -/
def ofMembers? (s : Settings) (seen : List String) :
    List (Option String × JsonValue) → Option Settings
  | [] => some s
  | (none, _) :: _ => none
  | (some name, v) :: ms =>
    match Entries.get? fields name with
    | none => ofMembers? s seen ms
    | some change =>
      if name ∈ seen then none
      else do ofMembers? (← change v s) (name :: seen) ms

/-- Reads values that stand without names, in the order of the members. -/
def ofItems? (s : Settings) :
    List (String × (JsonValue → Settings → Option Settings)) → List JsonValue → Option Settings
  | _, [] => some s
  | [], _ :: _ => none
  | f :: fs, v :: vs => do ofItems? (← f.2 v s) fs vs

def ofJson? : JsonValue → Option Settings
  | .object members => ofMembers? {} [] members
  | .array items => ofItems? {} fields items
  | _ => none

def read? (text : String) : Option Settings := (JsonValue.read? text).bind ofJson?

def checkPatterns (fault : String → GlobError → SettingsFault) (patterns : List String) :
    Except SettingsFault Unit :=
  match globErrors patterns with
  | [] => .ok ()
  | (p, e) :: _ => .error (fault p e)

def check (s : Settings) : Except SettingsFault Unit := do
  checkPatterns .badIgnore s.ignores
  checkPatterns .badPattern s.templatePatterns
  if s.templatePatterns.isEmpty then throw .noPatterns
  if s.defaultDomain = "" then throw .noDefaultDomain
  if s.maxDepth = 0 then throw .noDepth

/-- How messages are extracted. A placeholder mark given elsewhere goes first. -/
def extractOptions (s : Settings) (placeholder : Option String) : ExtractOptions :=
  { placeholder := placeholder.getD s.placeholder, defaultDomain := s.defaultDomain,
    maxDepth := s.maxDepth }

def selection (s : Settings) : Selection := { patterns := s.templatePatterns, ignores := s.ignores }

def toJson (s : Settings) : JsonValue :=
  .object
    [(some "prefix", .ofText s.placeholder), (some "defaultDomain", .ofText s.defaultDomain),
     (some "viewsDir", .ofText s.viewsDir), (some "translationsDir", .ofText s.translationsDir),
     (some "templatePatterns", .ofTexts s.templatePatterns),
     (some "ignores", .ofTexts s.ignores),
     (some "bundles", .object (s.bundles.map fun b => (some b.1, .ofText b.2))),
     (some "maxDepth", .number (Nat.toDigits 10 s.maxDepth))]

def render (s : Settings) : String := s.toJson.render 0

def fileName : String := ".trawlrc.json"

def repositoryName : String := ".git"

def findFrom? (t : FileTree) : Nat → Path → Option Path
  | 0, _ => none
  | fuel + 1, dir =>
    let file := dir.join fileName
    if t.hasEntry file then some file
    else if t.hasEntry (dir.join repositoryName) then none
    else dir.parent?.bind (findFrom? t fuel)

/-- Looks for the settings file. A path has no more directories above it than characters. -/
def find? (t : FileTree) (dir : Path) : Option Path := findFrom? t (dir.text.length + 2) dir

def ofFile (t : FileTree) (file : Path) : Except SettingsError Settings := do
  let text ← (t.readText file).mapError (.unreadable file)
  match read? text with
  | none => throw (.malformed file)
  | some s =>
    s.check.mapError .unusable
    return s

/-- Loads the settings for a directory, with the file that they come from. Without a file they are
the usual ones. -/
def load (t : FileTree) (dir : Path) : Except SettingsError (Settings × Option Path) :=
  match find? t dir with
  | none => .ok ({}, none)
  | some file => do return (← ofFile t file, some file)

end Settings
end Phrasebook
