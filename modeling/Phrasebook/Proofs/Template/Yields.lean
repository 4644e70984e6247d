import Phrasebook.Template.Expression

namespace Phrasebook

variable {α β : Type}

/-- Reading comes to a value, or to the nesting error when it goes down to a level beyond the
limit. -/
def Yields (depth : Nat) (r : Except ParseError α) (a : α) : Prop :=
  r = .ok a ∨ maxNesting < depth ∧ ∃ line, r = .error (.tooDeep line)

namespace Yields

variable {depth level : Nat} {r : Except ParseError α} {a : α}

theorem pure (a : α) : Yields depth (.ok a) a := .inl rfl

theorem of_eq (h : r = .ok a) : Yields depth r a := .inl h

theorem bind {x : Except ParseError α} {f : α → Except ParseError β} {b : β}
    (hx : Yields depth x a) (hf : Yields depth (f a) b) : Yields depth (x >>= f) b := by
  rcases hx with rfl | ⟨hd, line, rfl⟩
  · exact hf
  · exact .inr ⟨hd, line, rfl⟩

theorem descend (h : level + 1 ≤ depth) (ts : List Token) :
    Yields depth (descend level ts) (level + 1) := by
  rw [Phrasebook.descend]
  split
  · exact .inl rfl
  · exact .inr ⟨by omega, _, rfl⟩

theorem ok_of_le (h : Yields depth r a) (hd : depth ≤ maxNesting) : r = .ok a :=
  h.resolve_right fun hm => Nat.not_lt.2 hd hm.1

theorem ok_or_tooDeep (h : Yields depth r a) : r = .ok a ∨ ∃ line, r = .error (.tooDeep line) :=
  h.imp id And.right

end Yields

/-- The tokens begin with tokens of the given kinds and go on with others. -/
def Opens (ts : List Token) (ks : List TokenKind) (rest : List Token) : Prop :=
  ∃ us, us.map Token.kind = ks ∧ ts = us ++ rest

namespace Opens

variable {ts rest : List Token} {k : TokenKind} {ks ls : List TokenKind}

theorem nil_iff : Opens ts [] rest ↔ ts = rest := by
  constructor
  · rintro ⟨us, hu, rfl⟩
    rw [List.map_eq_nil_iff.1 hu]
    rfl
  · rintro rfl
    exact ⟨[], rfl, rfl⟩

theorem cons_iff :
    Opens ts (k :: ks) rest ↔ ∃ line us, ts = ⟨k, line⟩ :: us ∧ Opens us ks rest := by
  constructor
  · rintro ⟨us, hu, rfl⟩
    obtain ⟨t, vs, rfl, rfl, hv⟩ := List.map_eq_cons_iff.1 hu
    exact ⟨t.line, vs ++ rest, rfl, vs, hv, rfl⟩
  · rintro ⟨line, us, rfl, vs, rfl, rfl⟩
    exact ⟨⟨k, line⟩ :: vs, rfl, rfl⟩

theorem append_iff : Opens ts (ks ++ ls) rest ↔ ∃ us, Opens ts ks us ∧ Opens us ls rest := by
  constructor
  · rintro ⟨us, hu, rfl⟩
    obtain ⟨vs, ws, rfl, hv, hw⟩ := List.map_eq_append_iff.1 hu
    exact ⟨ws ++ rest, ⟨vs, hv, List.append_assoc _ _ _⟩, ws, hw, rfl⟩
  · rintro ⟨us, ⟨vs, hv, rfl⟩, ws, hw, rfl⟩
    exact ⟨vs ++ ws, by rw [List.map_append, hv, hw], (List.append_assoc _ _ _).symm⟩

theorem length (h : Opens ts ks rest) : ts.length = ks.length + rest.length := by
  obtain ⟨us, rfl, rfl⟩ := h
  rw [List.length_append, List.length_map]

end Opens

@[simp] theorem current_cons (t : Token) (ts : List Token) : current (t :: ts) = t := rfl

theorem atMark_eq_false {c : Char} {ts : List Token} (h : (current ts).kind ≠ .punctuation c) :
    atMark c ts = false :=
  beq_eq_false_iff_ne.2 h

theorem expect_cons (k : TokenKind) (line : Nat) (ts : List Token) :
    expect k (⟨k, line⟩ :: ts) = .ok ts :=
  if_pos rfl

def endsGroup : TokenKind → Bool
  | .punctuation c => c ∈ [')', ']', '}', ',', ':']
  | .tagEnd _ => true
  | .name n => n ∈ ["if", "with", "from", "into"]
  | _ => false

def GroupEnds (ts : List Token) : Prop := endsGroup (current ts).kind = true

def ExprEnds (ts : List Token) : Prop := GroupEnds ts ∧ (current ts).kind ≠ .punctuation ':'

theorem GroupEnds.not_atMark {c : Char} {ts : List Token} (h : GroupEnds ts)
    (hc : c ∉ [')', ']', '}', ',', ':']) : atMark c ts = false := by
  apply atMark_eq_false
  intro he
  rw [GroupEnds, he] at h
  exact hc (of_decide_eq_true h)

theorem GroupEnds.mem_of_name {n : String} {ts : List Token} (h : GroupEnds ts)
    (hn : (current ts).kind = .name n) : n ∈ ["if", "with", "from", "into"] := by
  rw [GroupEnds, hn] at h
  exact of_decide_eq_true h

theorem GroupEnds.next? {ts : List Token} (h : GroupEnds ts) : BinaryOperator.next? ts = none := by
  cases ts with
  | nil => rfl
  | cons t ts =>
    obtain ⟨k, line⟩ := t
    cases k with
    | name n =>
      have hn := h.mem_of_name rfl
      have hs : ∀ n ∈ ["if", "with", "from", "into"],
          BinaryOperator.ofSymbol? n = none ∧ n ∉ twoWordOperators.map Prod.fst := by decide
      obtain ⟨ho, hw⟩ := hs n hn
      rw [BinaryOperator.next?.eq_def]
      split
      · next he => cases he
      · next first second line' ts' he =>
        cases he
        rw [if_neg fun hm => hw (List.mem_map_of_mem hm), ho]
        rfl
      · next he =>
        cases he
        rw [ho]
        rfl
      · rfl
    | operator symbol => cases h
    | _ => rfl

end Phrasebook
