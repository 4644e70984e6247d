import Phrasebook.Number.Based

namespace Phrasebook

/-- Ranges of characters that leave no mark of their own: controls, spaces, format and private
characters, and marks that combine with the character before them. -/
def unseenRanges : List (Nat × Nat) :=
  [(0x0, 0x1F), (0x7F, 0xA0), (0xAD, 0xAD), (0x300, 0x36F), (0x483, 0x489), (0x591, 0x5BD),
   (0x600, 0x605), (0x610, 0x61A), (0x61C, 0x61C), (0x64B, 0x65F), (0x6DD, 0x6DD),
   (0x70F, 0x70F), (0x8E2, 0x8E2), (0x1680, 0x1680), (0x180E, 0x180E), (0x1AB0, 0x1ACE),
   (0x1DC0, 0x1DFF), (0x2000, 0x200F), (0x2028, 0x202F), (0x205F, 0x206F), (0x20D0, 0x20F0),
   (0x3000, 0x3000), (0x302A, 0x302F), (0x3099, 0x309A), (0xE000, 0xF8FF), (0xFE00, 0xFE0F),
   (0xFE20, 0xFE2F), (0xFEFF, 0xFEFF), (0xFFF0, 0xFFFB), (0xFFFE, 0xFFFF), (0x110BD, 0x110BD),
   (0x1BCA0, 0x1BCA3), (0x1D165, 0x1D169), (0x1D16D, 0x1D182), (0xE0000, 0x10FFFF)]

def isUnseen (c : Char) : Bool := unseenRanges.any fun r => r.1 ≤ c.toNat && c.toNat ≤ r.2

def quotedChar (c : Char) : String :=
  match c with
  | '\x00' => "\\0"
  | '\t' => "\\t"
  | '\n' => "\\n"
  | '\r' => "\\r"
  | '"' => "\\\""
  | '\\' => "\\\\"
  | c =>
    if isUnseen c then "\\u\x7b" ++ String.ofList (lowerHex 0 c.toNat) ++ "\x7d"
    else String.ofList [c]

def quotedText (s : String) : String := "\"" ++ String.join (s.toList.map quotedChar) ++ "\""

end Phrasebook
