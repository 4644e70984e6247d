import Phrasebook.Proofs.Extraction.Harvest
import Phrasebook.Proofs.Template.TreeInvariant

/-!
What extraction finds in the tree of a template. In such a tree prints and translated blocks do not
stand below one another, so a search that stops at each of them misses none.
-/
namespace Phrasebook

namespace Node

inductive Within : Node → Node → Prop
  | self (n : Node) : Within n n
  | under {n c p : Node} (hc : c ∈ p.children) (h : Within n c) : Within n p

/-- No message stands in the tree of a node. -/
def Plain (t : Node) : Prop := ∀ n : Node, n.Within t → n.isMarked = false

/-- No print or translated block stands below another one. -/
def Layered (t : Node) : Prop :=
  ∀ p : Node, p.Within t → p.isMarked = true → ∀ c ∈ p.children, c.Plain

variable {t : Node}

theorem Plain.of_children (ht : t.isMarked = false) (h : ∀ c ∈ t.children, c.Plain) : t.Plain := by
  intro n hn
  cases hn with
  | self => exact ht
  | under hc hn => exact h _ hc n hn

theorem Plain.layered (h : t.Plain) : t.Layered := by
  intro p hp hm
  rw [h p hp] at hm
  cases hm

theorem Layered.of_children (ht : t.isMarked = true → ∀ c ∈ t.children, c.Plain)
    (h : ∀ c ∈ t.children, c.Layered) : t.Layered := by
  intro p hp
  cases hp with
  | self => exact ht
  | under hc hp => exact h _ hc p hp

theorem Layered.of_plain_children (h : ∀ c ∈ t.children, c.Plain) : t.Layered :=
  .of_children (fun _ => h) fun c hc => (h c hc).layered

theorem isMarked_of_isJoint (h : t.isJoint = true) : t.isMarked = false := by
  rw [isJoint, Bool.and_eq_true, Bool.not_eq_true', Bool.not_eq_true'] at h
  exact h.2

theorem isMarked_of_isLink (h : t.isLink = true) : t.isMarked = false := by
  cases t with
  | print | trans => cases h
  | filter | constant | text | generic => rfl

theorem isMarked_of_isClosed (h : t.isClosed = true) : t.isMarked = true := by
  cases t with
  | print | trans => rfl
  | filter | constant | text | generic => cases h

end Node

theorem plain_closed : ExprClosed fun _ _ n => n.Plain where
  joint hn h := .of_children (Node.isMarked_of_isJoint hn) h
  link hn _ h := .of_children (Node.isMarked_of_isLink hn) h
  grow h := h
  lift _ _ h := h
  whole _ _ h := h

theorem layered_closed : StmtClosed (fun _ n => n.Plain) fun _ n => n.Layered where
  ofExpr h := h.layered
  text _ _ := .of_children rfl nofun
  print h := .of_plain_children (List.forall_mem_singleton.2 h)
  ofPrint h := h _ (.self _) rfl _ (List.mem_singleton_self _)
  trans h := .of_plain_children h
  joint hn h := .of_children (fun hm => by rw [Node.isMarked_of_isJoint hn] at hm; cases hm) h
  rise h := h

theorem layered_of_parseTemplate {source : String} {tree : Node}
    (h : parseTemplate source = .ok tree) : tree.Layered := by
  obtain ⟨ts, -, hp⟩ := exists_tokens_of_parseTemplate h
  exact layered_closed.holds_of_parseTokens plain_closed hp

namespace Node

variable {n t : Node} {depth d : Nat}

theorem within_of_mem_visits (h : (d, n) ∈ t.visits depth) : n.Within t := by
  fun_induction visits depth t with
  | case1 depth t ih =>
    rcases List.mem_cons.1 h with h | h
    · cases h
      exact .self _
    · split at h
      · cases h
      · obtain ⟨⟨c, hc⟩, -, h⟩ := List.mem_flatMap.1 h
        exact .under hc (ih c hc h)

/-- In the tree of a template nothing closed stands above what carries a message. -/
theorem mem_visits_of_within (h : n.Within t) (hn : n.isMarked = true) (ht : t.Layered)
    (depth : Nat) : ∃ d, (d, n) ∈ t.visits depth := by
  induction h generalizing depth with
  | self =>
    rw [visits_eq]
    exact ⟨depth, List.mem_cons_self⟩
  | @under c p hc h ih =>
    have hopen : p.isClosed = false := by
      by_contra hp
      have hm := isMarked_of_isClosed (Bool.not_eq_false _ ▸ hp)
      rw [ht p (.self p) hm c hc n h] at hn
      cases hn
    obtain ⟨d, hd⟩ := ih (fun q hq => ht q (.under hc hq)) (depth + 1)
    refine ⟨d, ?_⟩
    rw [visits_eq, hopen]
    exact List.mem_cons_of_mem _ (List.mem_flatMap.2 ⟨c, hc, hd⟩)

theorem Resolves.isMarked {options : ExtractOptions} {d m : String} (h : n.Resolves options d m) :
    n.isMarked = true := by
  cases h <;> rfl

end Node

namespace Catalog

variable {options : ExtractOptions} {c : Catalog} {d e m k : String} {v w : Value}

theorem messages_insertIfAbsent_self (c : Catalog) (d m : String) (v : Value) :
    (c.insertIfAbsent d m v).messages d = Entries.insertIfAbsent (c.messages d) m v :=
  messages_of_domain? (domain?_insertIfAbsent c d m v)

theorem mem_messages_insertIfAbsent :
    (k, w) ∈ (c.insertIfAbsent d m v).messages e ↔
      (k, w) ∈ c.messages e ∨ e = d ∧ k = m ∧ w = v ∧ m ∉ Entries.keys (c.messages d) := by
  by_cases hde : d = e
  · subst hde
    rw [messages_insertIfAbsent_self, Entries.insertIfAbsent]
    split
    · next hc => simp [Entries.contains_eq_true_iff.1 hc]
    · next hc =>
      have hm := Entries.contains_eq_false_iff.1 (Bool.eq_false_iff.2 hc)
      rw [Entries.insert_of_not_mem hm]
      simp [hm]
  · rw [messages_insertIfAbsent_of_ne c hde]
    simp [Ne.symm hde]

theorem distinct_messages_insertIfAbsent (h : ∀ e, Entries.Distinct (c.messages e))
    (d m : String) (v : Value) (e : String) :
    Entries.Distinct ((c.insertIfAbsent d m v).messages e) := by
  by_cases hde : d = e
  · subst hde
    rw [messages_insertIfAbsent_self, Entries.insertIfAbsent]
    split
    · exact h d
    · exact (h d).insert m v
  · rw [messages_insertIfAbsent_of_ne c hde]
    exact h e

theorem distinct_messages_addAll (options : ExtractOptions) (found : List (String × String))
    (h : ∀ e, Entries.Distinct (c.messages e)) (e : String) :
    Entries.Distinct ((c.addAll options found).messages e) := by
  induction found generalizing c with
  | nil => exact h e
  | cons f found ih => exact ih (distinct_messages_insertIfAbsent h _ _ _)

theorem mem_messages_addAll (options : ExtractOptions) (found : List (String × String)) :
    (m, v) ∈ (empty.addAll options found).messages d ↔
      v = .ofString (options.placeholder ++ m) ∧ (d, m) ∈ found := by
  induction found using List.reverseRecOn generalizing d m v with
  | nil => simp [addAll, empty, messages, domain?]
  | append_singleton found f ih =>
    obtain ⟨e, k⟩ := f
    have hk : k ∈ Entries.keys ((empty.addAll options found).messages e) ↔ (e, k) ∈ found := by
      rw [Entries.keys, List.mem_map]
      constructor
      · rintro ⟨⟨k, w⟩, hm, rfl⟩
        exact (ih.1 hm).2
      · intro hf
        exact ⟨(k, _), ih.2 ⟨rfl, hf⟩, rfl⟩
    rw [addAll_concat, mem_messages_insertIfAbsent, ih, hk, List.mem_append, List.mem_singleton,
      Prod.mk.injEq]
    constructor
    · rintro (⟨hv, hf⟩ | ⟨rfl, rfl, hv, -⟩)
      · exact ⟨hv, .inl hf⟩
      · exact ⟨hv, .inr ⟨rfl, rfl⟩⟩
    · rintro ⟨hv, hf | ⟨rfl, rfl⟩⟩
      · exact .inl ⟨hv, hf⟩
      · by_cases hf : (d, m) ∈ found
        · exact .inl ⟨hv, hf⟩
        · exact .inr ⟨rfl, rfl, hv, hf⟩

/-- A catalog holds what the nodes of a tree carry under its placeholder, and nothing else. -/
structure Covers (c : Catalog) (options : ExtractOptions) (tree : Node) : Prop where
  messages (d m : String) (v : Value) : (m, v) ∈ c.messages d ↔
    v = .ofString (options.placeholder ++ m) ∧ ∃ n : Node, n.Within tree ∧ n.Resolves options d m
  distinct (d : String) : Entries.Distinct (c.messages d)
  filled : c.Filled

theorem covers_extract {tree : Node} (ht : tree.Layered)
    (h : (empty.extract options tree).tooDeep = false) :
    (empty.extract options tree).catalog.Covers options tree := by
  have hdepth : ∀ v ∈ tree.visits 0, v.1 ≤ options.maxDepth := by
    rw [extract_eq] at h
    simpa using h
  rw [extract_eq, Search.reached_eq_self hdepth]
  refine ⟨?_, distinct_messages_addAll _ _ fun _ => List.nodup_nil, filled_empty.addAll _ _⟩
  intro d m v
  rw [mem_messages_addAll, Search.carried, List.mem_filterMap]
  refine and_congr_right fun _ => ?_
  constructor
  · rintro ⟨⟨depth, n⟩, hn, hr⟩
    exact ⟨n, Node.within_of_mem_visits hn, Node.entry?_eq_some_iff.1 hr⟩
  · rintro ⟨n, hn, hr⟩
    obtain ⟨depth, hv⟩ := Node.mem_visits_of_within hn hr.isMarked ht 0
    exact ⟨(depth, n), hv, Node.entry?_eq_some_iff.2 hr⟩

end Catalog

/-- In an accepted template no print or translated block stands below another one, and a search
that goes through finds the messages of all of them. -/
theorem parseTemplate_covered {source : String} {tree : Node}
    (h : parseTemplate source = .ok tree) :
    tree.Layered ∧ ∀ options, (Catalog.empty.extract options tree).tooDeep = false →
      (Catalog.empty.extract options tree).catalog.Covers options tree :=
  ⟨layered_of_parseTemplate h, fun _ => Catalog.covers_extract (layered_of_parseTemplate h)⟩

theorem parseTemplate_covered_branches :
    let source := "\x7b% if a %\x7d\x7b\x7b 'Soup'|trans \x7d\x7d\x7b% else %\x7d" ++
      "\x7b% trans from 'menu' %\x7dBread\x7b% endtrans %\x7d\x7b% endif %\x7d"
    ∃ tree, parseTemplate source = .ok tree ∧ tree.Layered ∧
      (Catalog.empty.extract {} tree).tooDeep = false ∧
      (Catalog.empty.extract {} tree).catalog.Covers {} tree ∧
      (Catalog.empty.extract {} tree).catalog.messageCount = 2 := by
  intro source
  have h : ((parseTemplate source).toOption.map fun tree =>
      ((Catalog.empty.extract {} tree).tooDeep,
        (Catalog.empty.extract {} tree).catalog.messageCount)) = some (false, 2) := by
    decide +kernel
  cases hp : parseTemplate source with
  | error e =>
    rw [hp] at h
    cases h
  | ok tree =>
    rw [hp] at h
    have h := Prod.mk.inj (Option.some.inj h)
    obtain ⟨hl, hc⟩ := parseTemplate_covered hp
    exact ⟨tree, rfl, hl, h.1, hc {} h.1, h.2⟩

end Phrasebook
