import Mathlib.Data.List.Induction
import Phrasebook.Proofs.Template.Expr

namespace Phrasebook

namespace BinaryOperator

/-- Whether the inner operator may stand at the root of the left operand of the outer one. -/
def HoldsLeft (outer inner : BinaryOperator) : Prop :=
  if outer.rightAssociative then outer.precedence < inner.precedence
  else outer.precedence ≤ inner.precedence

def HoldsRight (outer inner : BinaryOperator) : Prop :=
  if outer.rightAssociative then outer.precedence ≤ inner.precedence
  else outer.precedence < inner.precedence

variable {a b c : BinaryOperator}

instance : Decidable (HoldsLeft a b) :=
  inferInstanceAs (Decidable (if a.rightAssociative then _ else _))

instance : Decidable (HoldsRight a b) :=
  inferInstanceAs (Decidable (if a.rightAssociative then _ else _))

theorem holdsRight_iff : a.HoldsRight b ↔ a.rightMinimum ≤ b.precedence := by
  rw [HoldsRight, rightMinimum]
  split
  · rfl
  · exact Iff.rfl

theorem HoldsLeft.precedence_le (h : a.HoldsLeft b) : a.precedence ≤ b.precedence := by
  rw [HoldsLeft] at h
  split at h <;> omega

theorem HoldsRight.precedence_le (h : a.HoldsRight b) : a.precedence ≤ b.precedence := by
  rw [HoldsRight] at h
  split at h <;> omega

theorem HoldsLeft.mono (h : a.HoldsLeft b) (hle : b.precedence ≤ c.precedence) :
    a.HoldsLeft c := by
  rw [HoldsLeft] at h ⊢
  grind

theorem HoldsRight.mono (h : a.HoldsRight b) (hle : b.precedence ≤ c.precedence) :
    a.HoldsRight c := by
  rw [HoldsRight] at h ⊢
  grind

theorem HoldsRight.not_holdsRight (h : a.HoldsRight b) (hc : ¬a.HoldsRight c) :
    ¬b.HoldsRight c := by
  rw [HoldsRight] at h hc ⊢
  grind

theorem rightAssociative_eq (ha : a ∈ binaryOperators) (hb : b ∈ binaryOperators)
    (h : a.precedence = b.precedence) : a.rightAssociative = b.rightAssociative := by
  have hall : ∀ a ∈ binaryOperators, ∀ b ∈ binaryOperators,
      a.precedence = b.precedence → a.rightAssociative = b.rightAssociative := by
    decide
  exact hall a ha b hb h

/-- An operand between two operators belongs to one of them and not to the other. -/
theorem holdsLeft_iff (ha : a ∈ binaryOperators) (hb : b ∈ binaryOperators) :
    b.HoldsLeft a ↔ ¬a.HoldsRight b := by
  have hassoc := rightAssociative_eq ha hb
  rw [HoldsLeft, HoldsRight]
  grind

end BinaryOperator

inductive OperatorTree
  | operand (x : Variable)
  | joined (c : Connective) (left right : OperatorTree)

namespace OperatorTree

variable {t u l r l' r' : OperatorTree} {c c' d : Connective} {x y : Variable}

def first : OperatorTree → Variable
  | operand x => x
  | joined _ l _ => l.first

def others : OperatorTree → List (Connective × Variable)
  | operand _ => []
  | joined c l r => l.others ++ (c, r.first) :: r.others

def root? : OperatorTree → Option Connective
  | operand _ => none
  | joined c _ _ => some c

/-- At every operator, the operators at the roots of its operands may stand there. -/
def Bound : OperatorTree → Prop
  | operand _ => True
  | joined c l r =>
    (∀ d ∈ l.root?, c.op.HoldsLeft d.op) ∧ (∀ d ∈ r.root?, c.op.HoldsRight d.op) ∧
      l.Bound ∧ r.Bound

instance decidableBound : DecidablePred Bound
  | operand _ => inferInstanceAs (Decidable True)
  | joined c l r =>
    have := decidableBound l
    have := decidableBound r
    inferInstanceAs (Decidable ((∀ d ∈ l.root?, c.op.HoldsLeft d.op) ∧
      (∀ d ∈ r.root?, c.op.HoldsRight d.op) ∧ l.Bound ∧ r.Bound))

/-- The tree has the operands and operators in this order from left to right, and they are bound by
precedence. -/
structure Arranges (t : OperatorTree) (x : Variable) (rest : List (Connective × Variable)) :
    Prop where
  first : t.first = x
  others : t.others = rest
  bound : t.Bound

theorem exists_root?_of_mem {e : Connective × Variable} (h : e ∈ t.others) :
    ∃ d, t.root? = some d := by
  cases t with
  | operand x => cases h
  | joined d l r => exact ⟨d, rfl⟩

theorem Bound.precedence_le (h : t.Bound) (hd : t.root? = some d) {e : Connective × Variable}
    (he : e ∈ t.others) : d.op.precedence ≤ e.1.op.precedence := by
  induction t generalizing d with
  | operand x => cases he
  | joined c l r ihl ihr =>
    cases hd
    obtain ⟨hl, hr, hbl, hbr⟩ := h
    rcases List.mem_append.1 he with hm | hm
    · obtain ⟨d', hd'⟩ := exists_root?_of_mem hm
      exact Nat.le_trans (hl d' hd').precedence_le (ihl hbl hd' hm)
    · rcases List.mem_cons.1 hm with rfl | hm
      · exact Nat.le_refl _
      · obtain ⟨d', hd'⟩ := exists_root?_of_mem hm
        exact Nat.le_trans (hr d' hd').precedence_le (ihr hbr hd' hm)

theorem Bound.holdsLeft_of_mem (h : (joined c l r).Bound) {e : Connective × Variable}
    (he : e ∈ l.others) : c.op.HoldsLeft e.1.op := by
  obtain ⟨d, hd⟩ := exists_root?_of_mem he
  exact (h.1 d hd).mono (h.2.2.1.precedence_le hd he)

theorem Bound.holdsRight_of_mem (h : (joined c l r).Bound) {e : Connective × Variable}
    (he : e ∈ r.others) : c.op.HoldsRight e.1.op := by
  obtain ⟨d, hd⟩ := exists_root?_of_mem he
  exact (h.2.1 d hd).mono (h.2.2.2.precedence_le hd he)

theorem Bound.not_crossed (ht : (joined c l r).Bound) (hu : (joined c' l' r').Bound)
    (hc : (c, x) ∈ l'.others) (hc' : (c', y) ∈ r.others) : False :=
  (BinaryOperator.holdsLeft_iff c.known c'.known).1 (hu.holdsLeft_of_mem hc)
    (ht.holdsRight_of_mem hc')

/-- Two bound trees of the same operators and operands are split at the same operator. -/
theorem Bound.split_eq (ht : (joined c l r).Bound) (hu : (joined c' l' r').Bound)
    (h : l.others ++ (c, r.first) :: r.others = l'.others ++ (c', r'.first) :: r'.others) :
    l.others = l'.others ∧ (c, r.first) :: r.others = (c', r'.first) :: r'.others := by
  rcases List.append_eq_append_iff.1 h with ⟨as, hl, hr⟩ | ⟨as, hl, hr⟩
  · cases as with
    | nil => exact ⟨by rw [hl, List.append_nil], hr⟩
    | cons a as =>
      have hc : (c, r.first) ∈ l'.others := by
        rw [hl, (List.cons.inj hr).1]
        simp
      have hc' : (c', r'.first) ∈ r.others := by
        rw [(List.cons.inj hr).2]
        exact List.mem_append_right as List.mem_cons_self
      exact (ht.not_crossed hu hc hc').elim
  · cases as with
    | nil => exact ⟨by rw [hl, List.append_nil], hr.symm⟩
    | cons a as =>
      have hc' : (c', r'.first) ∈ l.others := by
        rw [hl, (List.cons.inj hr).1]
        simp
      have hc : (c, r.first) ∈ r'.others := by
        rw [(List.cons.inj hr).2]
        exact List.mem_append_right as List.mem_cons_self
      exact (hu.not_crossed ht hc' hc).elim

theorem Bound.eq_of_others (ht : t.Bound) (hu : u.Bound) (hf : t.first = u.first)
    (ho : t.others = u.others) : t = u := by
  induction t generalizing u with
  | operand x =>
    cases u with
    | operand y => exact congrArg operand hf
    | joined c' l' r' => exact absurd ho (by simp [others])
  | joined c l r ihl ihr =>
    cases u with
    | operand y => exact absurd ho (by simp [others])
    | joined c' l' r' =>
      obtain ⟨hl, hr⟩ := ht.split_eq hu ho
      obtain ⟨hroot, hro⟩ := List.cons.inj hr
      obtain ⟨rfl, hrf⟩ := Prod.mk.inj hroot
      rw [ihl ht.2.2.1 hu.2.2.1 hf hl, ihr ht.2.2.2 hu.2.2.2 hrf hro]

theorem Arranges.unique {rest : List (Connective × Variable)} (ht : t.Arranges x rest)
    (hu : u.Arranges x rest) : t = u :=
  ht.bound.eq_of_others hu.bound (ht.first.trans hu.first.symm) (ht.others.trans hu.others.symm)

/-- Puts an operator and an operand behind the others: inside the right operand of the root as long
as they may stand there. -/
def extend : OperatorTree → Connective → Variable → OperatorTree
  | operand y, c, x => joined c (operand y) (operand x)
  | joined d l r, c, x =>
    if d.op.HoldsRight c.op then joined d l (r.extend c x) else joined c (joined d l r) (operand x)

theorem first_extend (t : OperatorTree) (c : Connective) (x : Variable) :
    (t.extend c x).first = t.first := by
  cases t with
  | operand y => rfl
  | joined d l r =>
    rw [extend]
    split <;> rfl

theorem others_extend (t : OperatorTree) (c : Connective) (x : Variable) :
    (t.extend c x).others = t.others ++ [(c, x)] := by
  induction t with
  | operand y => rfl
  | joined d l r ihl ihr =>
    rw [extend]
    split
    · rw [others, others, ihr, first_extend, List.append_assoc, List.cons_append]
    · rfl

theorem root?_extend (t : OperatorTree) (c : Connective) (x : Variable) :
    (t.extend c x).root? = some c ∨ (t.extend c x).root? = t.root? := by
  cases t with
  | operand y => exact .inl rfl
  | joined d l r =>
    rw [extend]
    split
    · exact .inr rfl
    · exact .inl rfl

theorem Bound.extend (h : t.Bound) (c : Connective) (x : Variable) : (t.extend c x).Bound := by
  induction t with
  | operand y => exact ⟨nofun, nofun, trivial, trivial⟩
  | joined d l r ihl ihr =>
    obtain ⟨hl, hr, hbl, hbr⟩ := h
    rw [OperatorTree.extend]
    split
    · next hc =>
      refine ⟨hl, ?_, hbl, ihr hbr⟩
      intro e he
      rcases root?_extend r c x with hroot | hroot
      · rw [hroot] at he
        cases he
        exact hc
      · rw [hroot] at he
        exact hr e he
    · next hc =>
      refine ⟨?_, nofun, ⟨hl, hr, hbl, hbr⟩, trivial⟩
      intro e he
      cases he
      exact (BinaryOperator.holdsLeft_iff d.known c.known).2 hc

theorem Arranges.extend {rest : List (Connective × Variable)} (h : t.Arranges x rest)
    (c : Connective) (y : Variable) : (t.extend c y).Arranges x (rest ++ [(c, y)]) where
  first := (first_extend t c y).trans h.first
  others := by rw [others_extend, h.others]
  bound := h.bound.extend c y

theorem exists_arranges (x : Variable) (rest : List (Connective × Variable)) :
    ∃ t : OperatorTree, t.Arranges x rest := by
  induction rest using List.reverseRecOn with
  | nil => exact ⟨operand x, rfl, rfl, trivial⟩
  | append_singleton rest e ih =>
    obtain ⟨t, ht⟩ := ih
    exact ⟨t.extend e.1 e.2, ht.extend e.1 e.2⟩

end OperatorTree
end Phrasebook
