import Phrasebook.Catalog
import Phrasebook.Files.Path

namespace Phrasebook

def warning (message : String) : String := "warning: " ++ message

namespace Value

mutual

/-- The lines of a value under its key: a leaf behind the key, and the entries of a container
below it, each indented by two more spaces. -/
def listing (indent : String) (key : String) : Value → List String
  | scalar s => [indent ++ key ++ " : " ++ s.display]
  | list items => (indent ++ key ++ " :") :: listingOfItems (indent ++ "  ") 0 items
  | map es => (indent ++ key ++ " :") :: listingOfEntries (indent ++ "  ") es

def listingOfItems (indent : String) (i : Nat) : List Value → List String
  | [] => []
  | v :: vs => v.listing indent (positionKey i) ++ listingOfItems indent (i + 1) vs

def listingOfEntries (indent : String) : List (String × Value) → List String
  | [] => []
  | (k, v) :: es => v.listing indent k ++ listingOfEntries indent es

end

end Value

def Catalog.listing (c : Catalog) : List String :=
  c.domains.flatMap fun d => ("## " ++ d.1) :: Value.listingOfEntries "" d.2

structure TemplateError where
  path : Path
  message : String
  deriving DecidableEq, Repr

/-- Every error on a line, or their number on one. -/
def templateWarnings (verbose : Bool) (errors : List TemplateError) : List String :=
  if errors.isEmpty then []
  else if verbose then
    errors.map fun e => warning ("Skipped " ++ e.path.text ++ ": " ++ e.message)
  else
    [warning (toString errors.length ++
      " template(s) could not be parsed (use -v for details)")]

end Phrasebook
