import Phrasebook.Command.Update

namespace Phrasebook

def programName : String := "trawl"

def helpLines : List String := [
  "Extract translatable messages from Twig templates and merge them into YAML translation catalogs",
  "", "Usage: " ++ programName ++ " [COMMAND]", "", "Commands:",
  "  update  Update the translation files of a bundle from its templates",
  "  init    Initialize a new " ++ Settings.fileName ++ " configuration file",
  "  help    Print this message or the help of the given subcommand(s)", "", "Options:",
  "  -h, --help     Print help", "  -V, --version  Print version"]

def createSettings (t : FileTree) : Outcome :=
  let file : Path := ⟨Settings.fileName⟩
  if t.hasEntry file then
    { status := .failure, tree := t
      transcript := { err := ["Error: " ++ file.text ++ " already exists"] } }
  else
    match t.write file (.text ({} : Settings).render) with
    | .ok t =>
      { status := .success, tree := t, transcript := { out := ["✓ Created " ++ file.text] } }
    | .error e => .abort t {} ("Failed to write " ++ file.text ++ ": " ++ e.message)

def Command.run (t : FileTree) : Option Command → Outcome
  | none => { status := .success, tree := t, transcript := { out := helpLines } }
  | some .init => createSettings t
  | some (.update request) => request.run t

end Phrasebook
