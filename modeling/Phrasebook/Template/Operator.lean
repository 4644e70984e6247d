import Phrasebook.Template.Token

namespace Phrasebook

structure BinaryOperator where
  symbol : String
  precedence : Nat
  rightAssociative : Bool := false
  deriving DecidableEq, Repr

def binaryOperators : List BinaryOperator :=
  [⟨"or", 10, false⟩, ⟨"and", 15, false⟩, ⟨"b-or", 16, false⟩, ⟨"b-xor", 17, false⟩,
   ⟨"b-and", 18, false⟩, ⟨"==", 20, false⟩, ⟨"!=", 20, false⟩, ⟨"<", 20, false⟩,
   ⟨">", 20, false⟩, ⟨">=", 20, false⟩, ⟨"<=", 20, false⟩, ⟨"not in", 20, false⟩,
   ⟨"in", 20, false⟩, ⟨"matches", 20, false⟩, ⟨"starts with", 20, false⟩,
   ⟨"ends with", 20, false⟩, ⟨"..", 25, false⟩, ⟨"+", 30, false⟩, ⟨"-", 30, false⟩,
   ⟨"~", 40, false⟩, ⟨"*", 60, false⟩, ⟨"/", 60, false⟩, ⟨"//", 60, false⟩, ⟨"%", 60, false⟩,
   ⟨"is", 100, false⟩, ⟨"is not", 100, false⟩, ⟨"**", 200, true⟩, ⟨"??", 300, true⟩]

def twoWordOperators : List (String × String) :=
  [("not", "in"), ("starts", "with"), ("ends", "with"), ("is", "not")]

def notPrecedence : Nat := 50

def signPrecedence : Nat := 500

namespace BinaryOperator

def ofSymbol? (symbol : String) : Option BinaryOperator :=
  binaryOperators.find? (·.symbol == symbol)

/-- The weakest operator that may stand at the root of the right operand. -/
def rightMinimum (op : BinaryOperator) : Nat :=
  if op.rightAssociative then op.precedence else op.precedence + 1

def next? : List Token → Option (BinaryOperator × List Token)
  | ⟨.operator symbol, _⟩ :: ts => (ofSymbol? symbol).map (·, ts)
  | ⟨.name first, _⟩ :: ⟨.name second, line⟩ :: ts =>
    if (first, second) ∈ twoWordOperators then
      (ofSymbol? (first ++ " " ++ second)).map (·, ts)
    else (ofSymbol? first).map (·, ⟨.name second, line⟩ :: ts)
  | ⟨.name word, _⟩ :: ts => (ofSymbol? word).map (·, ts)
  | _ => none

end BinaryOperator
end Phrasebook
