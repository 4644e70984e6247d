import Phrasebook.Proofs.Template.Yields
import Phrasebook.Template.Statement

namespace Phrasebook

variable {fuel level depth line : Nat} {closing : List String} {ts us vs rest : List Token}
  {n : Node} {ns : List Node} {close : Option String}

theorem yields_statements_text (data : String)
    (h : Yields depth (statements fuel level closing ts) ((ns, close), rest)) :
    Yields depth (statements (fuel + 1) level closing (⟨.text data, line⟩ :: ts))
      ((.text data :: ns, close), rest) := by
  rw [statements]
  exact h.bind (.pure _)

theorem yields_statements_print {line' : Nat}
    (he : Yields depth (wholeExpression level ts) (n, ⟨.tagEnd .print, line'⟩ :: us))
    (h : Yields depth (statements fuel level closing us) ((ns, close), rest)) :
    Yields depth (statements (fuel + 1) level closing (⟨.tagStart .print, line⟩ :: ts))
      ((.print n :: ns, close), rest) := by
  rw [statements]
  exact he.bind ((Yields.of_eq (expect_cons _ line' us)).bind (h.bind (.pure _)))

theorem yields_statements_close {name : String} {line' : Nat} (h : name ∈ closing) :
    Yields depth (statements (fuel + 1) level closing
      (⟨.tagStart .block, line⟩ :: ⟨.name name, line'⟩ :: ts)) (([], some name), ts) := by
  rw [statements]
  refine (Yields.pure (name, ts)).bind ?_
  show Yields depth (if name ∈ closing then _ else _) _
  rw [if_pos h]
  exact .pure _

theorem yields_statements_eof :
    Yields depth (statements (fuel + 1) level [] (⟨.eof, line⟩ :: ts))
      (([], none), ⟨.eof, line⟩ :: ts) := by
  rw [statements]
  · exact .pure _
  · rintro _ _ _ ⟨⟩
  · rintro _ _ ⟨⟩
  · rintro _ _ ⟨⟩

theorem yields_parseTokens
    (h : Yields depth (statements (8 * ts.length + 7) 1 [] ts) ((ns, close), rest))
    (hd : 1 ≤ depth) : Yields depth (parseTokens ts) (.module (.body ns)) := by
  rw [parseTokens, statementFuel, block]
  exact ((Yields.descend hd ts).bind h).bind (.pure _)

end Phrasebook
