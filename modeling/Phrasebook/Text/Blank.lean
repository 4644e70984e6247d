namespace Phrasebook

/-- The characters with the property White_Space. -/
def isBlank (c : Char) : Bool :=
  let n := c.toNat
  (9 ≤ n && n ≤ 13) || n == 0x20 || n == 0x85 || n == 0xA0 || n == 0x1680 ||
    (0x2000 ≤ n && n ≤ 0x200A) || n == 0x2028 || n == 0x2029 || n == 0x202F || n == 0x205F ||
    n == 0x3000

def trimStart (cs : List Char) : List Char := cs.dropWhile isBlank

def trimEnd (cs : List Char) : List Char := (cs.reverse.dropWhile isBlank).reverse

def trim (cs : List Char) : List Char := trimEnd (trimStart cs)

def lineFeeds (cs : List Char) : Nat := cs.count '\n'

def startsWith (start : String) (cs : List Char) : Bool := start.toList.isPrefixOf cs

def afterStart? (start : String) (cs : List Char) : Option (List Char) :=
  if startsWith start cs then some (cs.drop start.length) else none

end Phrasebook
