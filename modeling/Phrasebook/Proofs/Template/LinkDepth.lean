import Mathlib.Data.Nat.Choose.Basic
import Phrasebook.Proofs.Template.ExprRoundTrip
import Phrasebook.Proofs.Template.TreeInvariant

namespace Phrasebook

namespace Node

inductive Path : Node → List Node → Prop
  | stop (n : Node) : Path n [n]
  | down {n c : Node} {p : List Node} (hc : c ∈ n.children) (h : Path c p) : Path n (n :: p)

/-- No path down a tree passes through more links. -/
def LinksAtMost (t : Node) (k : Nat) : Prop := ∀ p, t.Path p → p.countP isLink ≤ k

variable {t : Node} {k l : Nat}

theorem LinksAtMost.mono (h : t.LinksAtMost k) (hk : k ≤ l) : t.LinksAtMost l :=
  fun p hp => Nat.le_trans (h p hp) hk

theorem LinksAtMost.of_children (ht : t.isLink = false) (h : ∀ c ∈ t.children, c.LinksAtMost k) :
    t.LinksAtMost k := by
  intro p hp
  cases hp with
  | stop =>
    rw [List.countP_singleton, ht]
    exact Nat.zero_le k
  | down hc hp =>
    rw [List.countP_cons_of_neg (by rw [ht]; exact Bool.false_ne_true)]
    exact h _ hc _ hp

theorem LinksAtMost.of_link (h : ∀ c ∈ t.children, c.LinksAtMost k) : t.LinksAtMost (k + 1) := by
  intro p hp
  cases hp with
  | stop => exact Nat.le_trans List.countP_le_length (Nat.le_add_left 1 k)
  | down hc hp =>
    rw [List.countP_cons]
    have := h _ hc _ hp
    split <;> omega

theorem LinksAtMost.child {c : Node} (h : t.LinksAtMost k) (hc : c ∈ t.children) :
    c.LinksAtMost k := by
  intro p hp
  have ht := h _ (.down hc hp)
  rw [List.countP_cons] at ht
  exact Nat.le_trans (Nat.le_add_right _ _) ht

theorem isLink_of_isJoint (h : t.isJoint = true) : t.isLink = false := by
  rw [isJoint, Bool.and_eq_true, Bool.not_eq_true', Bool.not_eq_true'] at h
  exact h.1

end Node

/-- The most links that an expression at a level has above one another. -/
def linkBound (level : Nat) : Nat := (maxNesting - level).choose 2

theorem linkBound_mono {level inner : Nat} (h : level ≤ inner) :
    linkBound inner ≤ linkBound level :=
  Nat.choose_le_choose 2 (Nat.sub_le_sub_left h _)

theorem linkBound_succ {level : Nat} (h : level < maxNesting) :
    linkBound level = linkBound (level + 1) + (maxNesting - (level + 1)) := by
  obtain ⟨room, hr⟩ : ∃ room, maxNesting - level = room + 1 :=
    ⟨maxNesting - level - 1, by omega⟩
  have hr' : maxNesting - (level + 1) = room := by omega
  rw [linkBound, linkBound, hr, hr', Nat.choose_succ_succ, Nat.choose_one_right, Nat.add_comm]

/-- A chain that began at one level and has reached another has as many links of its own, and what
its links stand on or carry was read deeper than where it began. -/
theorem linksAtMost_closed :
    ExprClosed fun base level n => n.LinksAtMost (linkBound base + (level - base)) where
  joint hn h := .of_children (Node.isLink_of_isJoint hn) h
  link hn hb h := by
    rw [Nat.sub_add_comm hb]
    exact .of_link h
  grow h := h.mono (by omega)
  lift hb hi h := h.mono (by have := linkBound_mono hi; omega)
  whole hb hl h := h.mono (by have := linkBound_succ (Nat.lt_of_lt_of_le hb hl); omega)

theorem linksAtMost_stmtClosed :
    StmtClosed (fun level n => n.LinksAtMost (linkBound level + (level - level)))
      fun level n => n.LinksAtMost (linkBound level) where
  ofExpr h := h.mono (by omega)
  text _ _ := .of_children rfl nofun
  print h := .of_children rfl (List.forall_mem_singleton.2 (h.mono (by omega)))
  ofPrint h := (h.child (List.mem_singleton_self _)).mono (by omega)
  trans h := .of_children rfl fun c hc => (h c hc).mono (by omega)
  joint hn h := .of_children (Node.isLink_of_isJoint hn) h
  rise h := h.mono (linkBound_mono (Nat.le_succ _))

def filtered (e : Node) : Nat → Node
  | 0 => e
  | k + 1 => filtered (.filter e "f" []) k

def filterKinds : Nat → List TokenKind
  | 0 => []
  | k + 1 => .punctuation '|' :: .name "f" :: filterKinds k

/-- Chains of filters in parentheses, each one link shorter than the one that stands on it. -/
def stacked : Nat → Node
  | 0 => .ofName "x"
  | k + 1 => filtered (stacked k) (k + 1)

def stackedKinds : Nat → List TokenKind
  | 0 => [.name "x"]
  | k + 1 => .punctuation '(' :: (stackedKinds k ++ .punctuation ')' :: filterKinds (k + 1))

theorem exists_path_filtered {e : Node} {p : List Node} (h : e.Path p) (k : Nat) :
    ∃ q, (filtered e k).Path q ∧ q.countP Node.isLink = p.countP Node.isLink + k := by
  induction k generalizing e p with
  | zero => exact ⟨p, h, rfl⟩
  | succ k ih =>
    have hf : (Node.filter e "f" []).Path (.filter e "f" [] :: p) :=
      .down (List.mem_singleton_self e) h
    obtain ⟨q, hq, hc⟩ := ih hf
    refine ⟨q, hq, ?_⟩
    rw [hc, List.countP_cons_of_pos rfl]
    omega

theorem exists_path_stacked (k : Nat) :
    ∃ p, (stacked k).Path p ∧ p.countP Node.isLink = (k + 1).choose 2 := by
  induction k with
  | zero => exact ⟨_, .stop _, rfl⟩
  | succ k ih =>
    obtain ⟨p, hp, hc⟩ := ih
    obtain ⟨q, hq, hd⟩ := exists_path_filtered hp (k + 1)
    refine ⟨q, hq, ?_⟩
    rw [hd, hc, Nat.choose_succ_succ (k + 1), Nat.choose_one_right, Nat.add_comm]

theorem length_filterKinds (k : Nat) : (filterKinds k).length = 2 * k := by
  induction k with
  | zero => rfl
  | succ k ih =>
    rw [filterKinds, List.length_cons, List.length_cons, ih]
    omega

theorem not_atMark_filterKinds {k : Nat} {ts rest : List Token} (h : Opens ts (filterKinds k) rest)
    (hr : GroupEnds rest) : atMark '(' ts = false := by
  cases k with
  | zero =>
    obtain rfl := Opens.nil_iff.1 h
    exact hr.not_atMark (by decide)
  | succ k =>
    obtain ⟨line, us, rfl, -⟩ := Opens.cons_iff.1 h
    exact atMark_eq_false (by rintro ⟨⟩)

theorem yields_links_filtered {k fuel depth : Nat} {c : Chain} {ts rest : List Token}
    (h : Opens ts (filterKinds k) rest) (hr : GroupEnds rest) (hf : k < fuel)
    (hd : c.2 + k ≤ depth) :
    Yields depth (links fuel c ts) ((filtered c.1 k, c.2 + k), rest) := by
  induction k generalizing c fuel ts with
  | zero =>
    obtain rfl := Opens.nil_iff.1 h
    exact .of_eq (hr.links hf)
  | succ k ih =>
    obtain ⟨line, us, rfl, hu⟩ := Opens.cons_iff.1 h
    obtain ⟨line', vs, rfl, hv⟩ := Opens.cons_iff.1 hu
    obtain ⟨fuel, rfl⟩ : ∃ f, fuel = f + 2 := ⟨fuel - 2, by omega⟩
    have hbar : atMark '|' (⟨.punctuation '|', line⟩ :: ⟨.name "f", line'⟩ :: vs) = true := rfl
    have hargs : optionalArguments (fuel + 1) (c.2 + 1) vs = .ok (none, vs) := by
      rw [optionalArguments, not_atMark_filterKinds hv hr]
      rfl
    have hrest : Yields depth (links (fuel + 1) (.filter c.1 "f" [], c.2 + 1) vs)
        ((filtered (.filter c.1 "f" []) k, c.2 + 1 + k), rest) :=
      ih hv (by omega) (by simp only; omega)
    rw [Nat.add_right_comm] at hrest
    rw [links, if_neg (by exact Bool.false_ne_true), if_neg (by exact Bool.false_ne_true),
      if_pos hbar]
    refine (Yields.descend (by omega) _).bind ((Yields.pure ("f", vs)).bind ?_)
    exact (Yields.of_eq hargs).bind hrest

theorem yields_stacked {k fuel level depth : Nat} {ts rest : List Token}
    (h : Opens ts (stackedKinds k) rest) (hr : GroupEnds rest) (hf : 4 * ts.length + 4 ≤ fuel)
    (hd : level + 1 + k ≤ depth) : Yields depth (expression fuel 0 level ts) (stacked k, rest) := by
  induction k generalizing fuel level ts rest with
  | zero =>
    obtain ⟨line, us, rfl, hu⟩ := Opens.cons_iff.1 h
    obtain rfl := Opens.nil_iff.1 hu
    obtain ⟨fuel, rfl⟩ : ∃ f, fuel = f + 3 := ⟨fuel - 3, by omega⟩
    have hs (sign : Sign) : (current (⟨.name "x", line⟩ :: us)).kind ≠ sign.kind := by
      cases sign <;> simp [Sign.kind]
    have hp : primary (fuel + 1) (level + 1) (⟨.name "x", line⟩ :: us) = .ok (stacked 0, us) := by
      rw [primary, if_neg (by simp [hr.not_atMark])]
      rfl
    exact Expr.yields_expression (Expr.yields_operand hs (.of_eq hp) (.of_eq (hr.links (by omega))))
      hr (by omega) (by omega)
  | succ k ih =>
    -- The parentheses are read one level deeper, and that level is free again for the chain.
    obtain ⟨line, us, rfl, hu⟩ := Opens.cons_iff.1 h
    obtain ⟨vs, hv, hw⟩ := Opens.append_iff.1 hu
    obtain ⟨line', ws, rfl, hx⟩ := Opens.cons_iff.1 hw
    have hlen := hv.length
    have hlen' := hx.length
    have hks : (filterKinds (k + 1)).length = 2 * (k + 1) := length_filterKinds (k + 1)
    rw [List.length_cons] at hf hlen
    obtain ⟨fuel, rfl⟩ : ∃ f, fuel = f + 4 := ⟨fuel - 4, by omega⟩
    have hs (sign : Sign) : (current (⟨.punctuation '(', line⟩ :: us)).kind ≠ sign.kind := by
      cases sign <;> rintro ⟨⟩
    have hgroup : Yields depth (expression (fuel + 1) 0 (level + 1) us)
        (stacked k, ⟨.punctuation ')', line'⟩ :: ws) :=
      ih hv (exprEnds_mark (by decide) line' ws).1 (by omega) (by omega)
    have hp : Yields depth (primary (fuel + 2) (level + 1) (⟨.punctuation '(', line⟩ :: us))
        (stacked k, ws) := by
      rw [primary, if_neg (by decide), if_neg (by decide), if_pos rfl]
      exact hgroup.bind ((Yields.of_eq (expect_cons _ line' ws)).bind (.pure _))
    have hl : Yields depth (links (fuel + 2) (stacked k, level + 1) ws)
        ((stacked (k + 1), level + 1 + (k + 1)), rest) :=
      yields_links_filtered hx hr (by omega) (by simp only; omega)
    exact Expr.yields_expression (Expr.yields_operand hs hp hl) hr (by omega) (by omega)

def stackedPassage (k : Nat) : Passage := ⟨[], (stackedKinds k).map ([' '], ·)⟩

def stackedSource (k : Nat) : String := String.ofList (stackedPassage k).text

def stackedTree (k : Nat) : Node := .module (.body [.print (stacked k)])

theorem isSpellable_filterKinds (k : Nat) : ∀ t ∈ filterKinds k, t.isSpellable = true := by
  induction k with
  | zero => exact List.forall_mem_nil _
  | succ k ih => exact List.forall_mem_cons.2 ⟨rfl, List.forall_mem_cons.2 ⟨rfl, ih⟩⟩

theorem isSpellable_stackedKinds (k : Nat) : ∀ t ∈ stackedKinds k, t.isSpellable = true := by
  induction k with
  | zero => exact List.forall_mem_singleton.2 rfl
  | succ k ih =>
    refine List.forall_mem_cons.2 ⟨rfl, List.forall_mem_append.2 ⟨ih, ?_⟩⟩
    exact List.forall_mem_cons.2 ⟨rfl, isSpellable_filterKinds (k + 1)⟩

theorem balanced_filterKinds (k : Nat) : Balanced (filterKinds k) := by
  induction k with
  | zero => exact .nil
  | succ k ih => exact .cons (fun _ => rfl) (.cons (fun _ => rfl) ih)

theorem balanced_stackedKinds (k : Nat) : Balanced (stackedKinds k) := by
  induction k with
  | zero => exact .cons (fun _ => rfl) .nil
  | succ k ih =>
    have hgroup : Balanced (Expr.group (stackedKinds k) ++ filterKinds (k + 1)) :=
      (Expr.balanced_group ih).append (balanced_filterKinds (k + 1))
    rwa [Expr.group, List.cons_append, List.append_assoc, List.singleton_append] at hgroup

theorem parseTemplate_stackedSource {k : Nat} (hk : k + 2 ≤ maxNesting) :
    parseTemplate (stackedSource k) = .ok (stackedTree k) := by
  refine (Passage.yields_parseTemplate_ofKinds (isSpellable_stackedKinds k)
    (balanced_stackedKinds k) (by decide) ?_).ok_of_le (Nat.le_refl maxNesting)
  intro us rest hu hr
  exact yields_stacked hu hr.1 (by rw [expressionFuel]; omega) (by omega)

/-- In an accepted template no path passes through more links than there are pairs of levels below
the first. -/
theorem parseTemplate_linksAtMost {source : String} {tree : Node}
    (h : parseTemplate source = .ok tree) : tree.LinksAtMost ((maxNesting - 1).choose 2) := by
  obtain ⟨ts, -, hp⟩ := exists_tokens_of_parseTemplate h
  exact linksAtMost_stmtClosed.holds_of_parseTokens linksAtMost_closed hp

theorem parseTemplate_linksAtMost_stacked :
    parseTemplate (stackedSource 126) = .ok (stackedTree 126) ∧
      (stackedTree 126).LinksAtMost ((maxNesting - 1).choose 2) ∧
      ∃ p, (stackedTree 126).Path p ∧ p.countP Node.isLink = (maxNesting - 1).choose 2 := by
  have h : parseTemplate (stackedSource 126) = .ok (stackedTree 126) :=
    parseTemplate_stackedSource (by decide)
  refine ⟨h, parseTemplate_linksAtMost h, ?_⟩
  obtain ⟨p, hp, hc⟩ := exists_path_stacked 126
  refine ⟨_, .down (List.mem_singleton_self _) (.down (List.mem_singleton_self _)
    (.down (List.mem_singleton_self _) hp)), ?_⟩
  rw [List.countP_cons_of_neg (by decide), List.countP_cons_of_neg (by decide),
    List.countP_cons_of_neg (by decide), hc]
  rfl

end Phrasebook
