import Phrasebook.Text.Quoted
import Phrasebook.Yaml.Data

namespace Phrasebook.Yaml

def enclosed (opening closing : String) (parts : List String) : String :=
  opening ++ String.intercalate ", " parts ++ closing

namespace Data

mutual

def describe : Data → String
  | null => "Null"
  | bool b => "Bool(" ++ toString b ++ ")"
  | number n => "Number(" ++ n.text ++ ")"
  | string s => "String(" ++ quotedText s ++ ")"
  | sequence items => "Sequence " ++ enclosed "[" "]" (describeItems items)
  | mapping entries => "Mapping " ++ enclosed "\x7b" "\x7d" (describeEntries entries)
  | tagged tag content =>
    "TaggedValue \x7b tag: !" ++ tagName tag ++ ", value: " ++ content.describe ++ " \x7d"

def describeItems : List Data → List String
  | [] => []
  | d :: ds => d.describe :: describeItems ds

/-- Entries with a bare key where it is a boolean, a number or a text. -/
def describeEntries : List (Data × Data) → List String
  | [] => []
  | (k, v) :: es =>
    let key := match k with
      | bool b => toString b
      | number n => n.text
      | string s => quotedText s
      | k => k.describe
    (key ++ ": " ++ v.describe) :: describeEntries es

end

end Data
end Phrasebook.Yaml
