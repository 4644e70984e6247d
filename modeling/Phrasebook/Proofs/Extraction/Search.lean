import Mathlib.Data.List.Basic
import Mathlib.Data.List.TakeWhile
import Phrasebook.Proofs.Extraction.Recorded
import Phrasebook.Proofs.Extraction.Visits

namespace Phrasebook

variable {options : ExtractOptions}

namespace Search

variable {s : Search} {v : Nat × Node} {vs : List (Nat × Node)}

def step (options : ExtractOptions) (s : Search) (v : Nat × Node) : Search :=
  visit options v.1 s v.2 id

theorem step_of_tooDeep (h : s.tooDeep = true) (v : Nat × Node) : step options s v = s := by
  rw [step, visit, if_pos h]

theorem step_of_lt (h : s.tooDeep = false) (hv : options.maxDepth < v.1) :
    step options s v = { s with tooDeep := true } := by
  rw [step, visit, h, if_neg (by exact Bool.false_ne_true), if_pos hv]

theorem step_of_le (h : s.tooDeep = false) (hv : v.1 ≤ options.maxDepth) :
    step options s v = { s with catalog := record options v.2 s.catalog } := by
  rw [step, visit, h, if_neg (by exact Bool.false_ne_true), if_neg (Nat.not_lt.2 hv), id]

theorem foldl_step_of_tooDeep (h : s.tooDeep = true) (vs : List (Nat × Node)) :
    vs.foldl (step options) s = s := by
  induction vs with
  | nil => rfl
  | cons v vs ih => rw [List.foldl_cons, step_of_tooDeep h, ih]

theorem list_eq_foldl (options : ExtractOptions) (depth : Nat) (s : Search) (ns : List Node) :
    list options depth s ns = ns.foldl (node options depth) s := by
  induction ns generalizing s with
  | nil => rw [list, List.foldl_nil]
  | cons n ns ih => rw [list, List.foldl_cons, ih]

theorem slots_eq_foldl (options : ExtractOptions) (depth : Nat) (s : Search)
    (cs : List (Slot × Option Node)) :
    slots options depth s cs = (Children.nodes cs).foldl (node options depth) s := by
  induction cs generalizing s with
  | nil => rw [slots, Children.nodes, List.filterMap_nil, List.foldl_nil]
  | cons c cs ih =>
    obtain ⟨slot, o⟩ := c
    cases o with
    | none =>
      rw [slots, option]
      exact ih s
    | some n =>
      rw [slots, option]
      exact ih (node options depth s n)

theorem foldl_options (options : ExtractOptions) (depth : Nat) (s : Search)
    (os : List (Option Node)) :
    os.foldl (option options depth) s = (os.filterMap id).foldl (node options depth) s := by
  induction os generalizing s with
  | nil => rfl
  | cons o os ih =>
    cases o with
    | none =>
      rw [List.foldl_cons, option]
      exact ih s
    | some n =>
      rw [List.foldl_cons, option]
      exact ih (node options depth s n)

theorem node_eq (options : ExtractOptions) (depth : Nat) (s : Search) (n : Node) :
    node options depth s n = visit options depth s n fun s =>
      if n.isClosed then s else n.children.foldl (node options (depth + 1)) s := by
  cases n with
  | trans body domain vars count locale =>
    rw [node]
    congr 1
    funext s
    cases ha : body.isAccess with
    | false => simp [Node.isClosed, ha]
    | true =>
      have h := foldl_options options (depth + 1) (node options (depth + 1) s body)
        [domain, vars, count, locale]
      simpa [Node.isClosed, Node.children, ha] using h
  | print expr =>
    rw [node]
    rfl
  | filter subject name arguments =>
    rw [node]
    congr 1
    funext s
    rw [list_eq_foldl]
    rfl
  | constant value =>
    rw [node]
    rfl
  | text data =>
    rw [node]
    rfl
  | generic kind attributes children =>
    rw [node]
    congr 1
    funext s
    rw [slots_eq_foldl]
    rfl

/-- A visit with what follows below the node is a step and, unless that ended the search, the
rest. -/
theorem visit_eq (options : ExtractOptions) (depth : Nat) (s : Search) (n : Node)
    {below : Search → Search} (h : ∀ s, s.tooDeep = true → below s = s) :
    visit options depth s n below = below (step options s (depth, n)) := by
  cases hs : s.tooDeep with
  | true => rw [step_of_tooDeep hs, h s hs, visit, if_pos hs]
  | false =>
    by_cases hd : options.maxDepth < depth
    · rw [step_of_lt hs hd, h _ rfl, visit, hs, if_neg (by exact Bool.false_ne_true), if_pos hd]
    · rw [step_of_le hs (Nat.not_lt.1 hd), visit, hs, if_neg (by exact Bool.false_ne_true),
        if_neg hd]

/-- A search goes through the visits one by one. -/
theorem node_eq_foldl (options : ExtractOptions) (depth : Nat) (s : Search) (n : Node) :
    node options depth s n = (n.visits depth).foldl (step options) s := by
  induction hk : sizeOf n using Nat.strongRecOn generalizing depth s n with
  | ind k ih =>
    have hc (s : Search) : n.children.foldl (node options (depth + 1)) s =
        (n.children.flatMap (Node.visits (depth + 1))).foldl (step options) s := by
      rw [List.foldl_flatMap]
      apply List.foldl_ext
      intro s c hm
      exact ih (sizeOf c) (hk ▸ Node.sizeOf_lt_of_mem_children hm) (depth + 1) s c rfl
    rw [node_eq, Node.visits_eq, List.foldl_cons, visit_eq]
    · cases n.isClosed with
      | true => rfl
      | false => exact hc _
    · intro s hs
      cases n.isClosed with
      | true => rfl
      | false => exact (hc s).trans (foldl_step_of_tooDeep hs _)

def carried (options : ExtractOptions) (vs : List (Nat × Node)) : List (String × String) :=
  vs.filterMap fun v => Node.entry? options v.2

theorem carried_cons (options : ExtractOptions) (v : Nat × Node) (vs : List (Nat × Node)) :
    carried options (v :: vs) = carried options [v] ++ carried options vs :=
  List.filterMap_append (l := [v])

theorem carried_visits_module (options : ExtractOptions) {ns : List Node}
    (h : ∀ n ∈ ns, n.visits 2 = [(2, n)]) :
    carried options ((Node.module (.body ns)).visits 0) =
      ns.filterMap (Node.entry? options) := by
  have hbody : Node.entry? options (.body ns) = none := by
    rw [Node.body, Node.new, Node.pushAll_generic]
    rfl
  have hmodule : Node.entry? options (.module (.body ns)) = none := rfl
  simp only [Node.visits_module_body h, carried, List.filterMap_cons, hmodule, hbody,
    List.filterMap_map]
  rfl

theorem record_eq_addAll (options : ExtractOptions) (v : Nat × Node) (c : Catalog) :
    record options v.2 c = c.addAll options (carried options [v]) := by
  rw [record, carried, List.filterMap_cons]
  cases Node.entry? options v.2 with
  | none => rfl
  | some e => rfl

def reached (options : ExtractOptions) (vs : List (Nat × Node)) : List (Nat × Node) :=
  vs.takeWhile fun v => v.1 ≤ options.maxDepth

theorem reached_eq_self (h : ∀ v ∈ vs, v.1 ≤ options.maxDepth) : reached options vs = vs := by
  rw [reached, List.takeWhile_eq_self_iff]
  intro v hv
  exact decide_eq_true (h v hv)

theorem reached_append_cons (h : ∀ u ∈ vs, u.1 ≤ options.maxDepth) (hv : options.maxDepth < v.1)
    (ws : List (Nat × Node)) : reached options (vs ++ v :: ws) = vs := by
  rw [reached, List.takeWhile_append_of_pos, List.takeWhile_cons_of_neg, List.append_nil]
  · simpa using hv
  · intro u hu
    exact decide_eq_true (h u hu)

theorem foldl_step (options : ExtractOptions) (c : Catalog) (vs : List (Nat × Node)) :
    vs.foldl (step options) ⟨c, false⟩ =
      ⟨c.addAll options (carried options (reached options vs)),
        vs.any fun v => options.maxDepth < v.1⟩ := by
  induction vs generalizing c with
  | nil => rfl
  | cons v vs ih =>
    rw [List.foldl_cons, List.any_cons]
    by_cases hv : options.maxDepth < v.1
    · have hr : reached options (v :: vs) = [] :=
        List.takeWhile_cons_of_neg (by simpa using hv)
      rw [step_of_lt rfl hv, foldl_step_of_tooDeep rfl, hr, decide_eq_true hv]
      rfl
    · have hle := Nat.not_lt.1 hv
      have hr : reached options (v :: vs) = v :: reached options vs :=
        List.takeWhile_cons_of_pos (decide_eq_true hle)
      rw [step_of_le rfl hle, ih, hr, carried_cons, Catalog.addAll_append, record_eq_addAll,
        decide_eq_false hv, Bool.false_or]

end Search

namespace Catalog

variable {c : Catalog} {d m : String}

theorem extract_eq (c : Catalog) (options : ExtractOptions) (tree : Node) :
    c.extract options tree =
      ⟨c.addAll options (Search.carried options (Search.reached options (tree.visits 0))),
        (tree.visits 0).any fun v => options.maxDepth < v.1⟩ := by
  rw [extract, Search.node_eq_foldl, Search.foldl_step]

theorem extract_module (c : Catalog) {options : ExtractOptions} {ns : List Node}
    (h : ∀ n ∈ ns, n.visits 2 = [(2, n)]) (hd : 2 ≤ options.maxDepth) :
    c.extract options (.module (.body ns)) =
      ⟨c.addAll options (ns.filterMap (Node.entry? options)), false⟩ := by
  have hdepth : ∀ v ∈ (Node.module (.body ns)).visits 0, v.1 ≤ options.maxDepth := by
    rw [Node.visits_module_body h]
    simp only [List.forall_mem_cons, List.forall_mem_map]
    exact ⟨Nat.zero_le _, by omega, fun _ _ => hd⟩
  have hany : ((Node.module (.body ns)).visits 0).any (fun v => options.maxDepth < v.1) =
      false := by
    simpa using hdepth
  rw [extract_eq, Search.reached_eq_self hdepth, hany, Search.carried_visits_module options h]

theorem Known.extract (h : c.Known d m) (options : ExtractOptions) (tree : Node) :
    (c.extract options tree).catalog.Known d m := by
  rw [extract_eq]
  exact h.addAll options _

def extractAll (c : Catalog) (searches : List (ExtractOptions × Node)) : Catalog :=
  searches.foldl (fun c q => (c.extract q.1 q.2).catalog) c

theorem Known.extractAll (h : c.Known d m) (searches : List (ExtractOptions × Node)) :
    (c.extractAll searches).Known d m := by
  induction searches generalizing c with
  | nil => exact h
  | cons q searches ih => exact ih (h.extract q.1 q.2)

theorem extract_extractAll (c : Catalog) (options : ExtractOptions) (tree : Node)
    (searches : List (ExtractOptions × Node)) :
    (((c.extract options tree).catalog.extractAll searches).extract options tree).catalog =
      (c.extract options tree).catalog.extractAll searches := by
  rw [extract_eq _ options tree]
  apply addAll_eq_self
  intro e he
  apply Known.extractAll
  rw [extract_eq]
  exact known_addAll c e he

/-- A search adds the messages of a tree in preorder, each under its first occurrence, up to the
first node that lies too deep. -/
structure FirstSeen (c : Catalog) (options : ExtractOptions) (tree : Node) : Prop where
  succeeds : (∀ v ∈ tree.visits 0, v.1 ≤ options.maxDepth) →
    c.extract options tree = ⟨c.addAll options (Search.carried options (tree.visits 0)), false⟩
  fails : ∀ before v after, tree.visits 0 = before ++ v :: after →
    (∀ u ∈ before, u.1 ≤ options.maxDepth) → options.maxDepth < v.1 →
    c.extract options tree = ⟨c.addAll options (Search.carried options before), true⟩
  carries : ∀ (n : Node) (d m : String), n.entry? options = some (d, m) ↔ n.Resolves options d m
  /-- Searching the tree again adds nothing, whatever was searched in between. -/
  again : ∀ searches,
    (((c.extract options tree).catalog.extractAll searches).extract options tree).catalog =
      (c.extract options tree).catalog.extractAll searches

theorem extract_firstSeen (c : Catalog) (options : ExtractOptions) (tree : Node) :
    FirstSeen c options tree := by
  constructor
  · intro h
    have hany : (tree.visits 0).any (fun v => options.maxDepth < v.1) = false := by
      simpa using h
    rw [extract_eq, Search.reached_eq_self h, hany]
  · intro before v after hv h hd
    have hany : (before ++ v :: after).any (fun v => options.maxDepth < v.1) = true := by
      simp [hd]
    rw [extract_eq, hv, Search.reached_append_cons h hd, hany]
  · intro n d m
    exact Node.entry?_eq_some_iff
  · exact extract_extractAll c options tree

/-- A message that comes twice is recorded once. A limit of two ends the search at the inner
statement, so what comes behind it is not recorded either. -/
theorem extract_firstSeen_repeated :
    let say (message : String) : Node := .print (.filter (.ofString message) transFilter [])
    let inner := Node.body [say "Deep"]
    let tree := Node.module (.body [say "Hi", say "Hi", inner, say "Bye"])
    Catalog.empty.extract {} tree =
        ⟨⟨[("messages", [("Hi", .ofString "__Hi"), ("Deep", .ofString "__Deep"),
          ("Bye", .ofString "__Bye")])]⟩, false⟩ ∧
      Catalog.empty.extract { maxDepth := 2 } tree =
        ⟨⟨[("messages", [("Hi", .ofString "__Hi")])]⟩, true⟩ := by
  intro say inner tree
  have hvisits : tree.visits 0 =
      [(0, tree), (1, .body [say "Hi", say "Hi", inner, say "Bye"]), (2, say "Hi"), (2, say "Hi"),
        (2, inner)] ++ (3, say "Deep") :: [(2, say "Bye")] := by
    have hsay (depth : Nat) (message : String) :
        (say message).visits depth = [(depth, say message)] := Node.visits_eq depth _
    simp only [tree, inner, Node.visits_module, Node.visits_body, List.flatMap_cons, hsay]
    rfl
  constructor
  · have hdepth : ∀ v ∈ tree.visits 0, v.1 ≤ ({} : ExtractOptions).maxDepth := by
      rw [hvisits]
      decide
    have h := (extract_firstSeen .empty {} tree).succeeds hdepth
    rw [hvisits] at h
    exact h
  · exact (extract_firstSeen .empty { maxDepth := 2 } tree).fails _ _ _ hvisits (by decide)
      (by decide)

end Catalog
end Phrasebook
