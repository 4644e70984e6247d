import Phrasebook.Extraction
import Phrasebook.Files.Tree
import Phrasebook.Report
import Phrasebook.Template.Statement

namespace Phrasebook

structure ParsedTemplate where
  path : Path
  tree : Except String Node

def parseFile (t : FileTree) (path : Path) : ParsedTemplate :=
  { path
    tree := match t.readText path with
      | .error e => .error ("Failed to read file: " ++ path.text ++ ": " ++ e.message)
      | .ok source => (parseTemplate source).mapError ParseError.message }

def Catalog.addNew (c found : Catalog) : Catalog :=
  found.domains.foldl (fun c d =>
    d.2.foldl (fun c m => c.insertIfAbsent d.1 m.1 m.2) c) c

/-- What has been found, and which templates contributed to it. -/
structure Harvest where
  catalog : Catalog := .empty
  templates : List Path := []
  errors : List TemplateError := []
  deriving Repr

namespace Harvest

def reject (h : Harvest) (path : Path) (message : String) : Harvest :=
  { h with errors := h.errors ++ [{ path, message }] }

def add (options : ExtractOptions) (h : Harvest) (p : ParsedTemplate) : Harvest :=
  match p.tree with
  | .error message => h.reject p.path message
  | .ok tree =>
    let found := Catalog.empty.extract options tree
    if found.tooDeep then h.reject p.path options.depthMessage
    else
      { h with catalog := h.catalog.addNew found.catalog, templates := h.templates ++ [p.path] }

def ofParsed (options : ExtractOptions) (templates : List ParsedTemplate) : Harvest :=
  templates.foldl (add options) {}

def ofFiles (options : ExtractOptions) (t : FileTree) (files : List Path) : Harvest :=
  ofParsed options (files.map (parseFile t))

end Harvest
end Phrasebook
