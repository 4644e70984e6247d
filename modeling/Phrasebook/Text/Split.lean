namespace Phrasebook

/-- The parts of a text between separators, at least one. -/
def splitAt (isSeparator : Char → Bool) : List Char → List (List Char)
  | [] => [[]]
  | c :: cs =>
    if isSeparator c then [] :: splitAt isSeparator cs
    else match splitAt isSeparator cs with
      | part :: parts => (c :: part) :: parts
      | [] => [[c]]

end Phrasebook
