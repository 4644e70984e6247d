import Mathlib.Data.List.Induction
import Phrasebook.Harvest
import Phrasebook.Proofs.Extraction.Search

/-!
A harvest against one search through many trees. A template is searched on its own and its messages
are replayed domain by domain; the catalog is the one that a single search leaves after going
through the trees of all templates that contribute.
-/
namespace Phrasebook

namespace Entries

universe u

variable {α : Type u} {k l : String}

theorem insert_insert_of_mem {es : Entries α} (hk : k ∈ keys es) (h : k ≠ l) (v w : α) :
    insert (insert es k v) l w = insert (insert es l w) k v := by
  induction es with
  | nil => cases hk
  | cons e es ih =>
    obtain ⟨k', v'⟩ := e
    by_cases hk' : k' = k
    · subst k'
      rw [insert, if_pos rfl, insert, if_neg h, insert, if_neg h, insert, if_pos rfl]
    · have hm : k ∈ keys es := (List.mem_cons.1 hk).resolve_left fun he => hk' he.symm
      by_cases hl : k' = l
      · subst k'
        rw [insert, if_neg hk', insert, if_pos rfl, insert, if_pos rfl, insert, if_neg hk']
      · rw [insert, if_neg hk', insert, if_neg hl, ih hm, insert, if_neg hl, insert,
          if_neg hk']

theorem exists_eq_append_cons {es : Entries α} {v : α} (h : get? es k = some v) :
    ∃ before after, es = before ++ (k, v) :: after ∧ k ∉ keys before := by
  induction es with
  | nil => cases h
  | cons e es ih =>
    obtain ⟨k', v'⟩ := e
    rw [get?_cons] at h
    split at h
    · next hk =>
      cases h
      exact ⟨[], es, by rw [hk]; rfl, List.not_mem_nil⟩
    · next hk =>
      obtain ⟨before, after, rfl, hn⟩ := ih h
      refine ⟨(k', v') :: before, after, rfl, ?_⟩
      rw [keys_cons, List.mem_cons, not_or]
      exact ⟨fun he => hk he.symm, hn⟩

end Entries

namespace Catalog

variable {options : ExtractOptions} {c g : Catalog} {d e m k : String} {v w : Value}

theorem mem_names_insertIfAbsent :
    e ∈ (c.insertIfAbsent d m v).names ↔ e ∈ c.names ∨ e = d :=
  Entries.mem_keys_insert

theorem messages_insertIfAbsent_of_ne (c : Catalog) (h : d ≠ e) (m : String) (v : Value) :
    (c.insertIfAbsent d m v).messages e = c.messages e := by
  rw [messages, messages, domain?_insertIfAbsent_of_ne c m v h]

/-- A message of a known domain can wait until one of another domain was recorded. -/
theorem insertIfAbsent_comm (hd : d ∈ c.names) (h : d ≠ e) (m k : String) (v w : Value) :
    (c.insertIfAbsent d m v).insertIfAbsent e k w =
      (c.insertIfAbsent e k w).insertIfAbsent d m v := by
  have hd' := messages_insertIfAbsent_of_ne c h m v
  have he' := messages_insertIfAbsent_of_ne c h.symm k w
  rw [insertIfAbsent, hd', insertIfAbsent.eq_def (c.insertIfAbsent e k w), he']
  exact congrArg Catalog.mk (Entries.insert_insert_of_mem hd h _ _)

def listed (c : Catalog) : List (String × String × Value) :=
  c.domains.flatMap fun d => d.2.map fun m => (d.1, m)

def replay (c : Catalog) (es : List (String × String × Value)) : Catalog :=
  es.foldl (fun c e => c.insertIfAbsent e.1 e.2.1 e.2.2) c

theorem addNew_eq_replay (c g : Catalog) : c.addNew g = c.replay g.listed := by
  rw [addNew, replay, listed, List.foldl_flatMap]
  apply List.foldl_ext
  intro c d _
  rw [List.foldl_map]

theorem replay_cons (c : Catalog) (f : String × String × Value)
    (es : List (String × String × Value)) :
    c.replay (f :: es) = (c.insertIfAbsent f.1 f.2.1 f.2.2).replay es :=
  rfl

theorem replay_append (c : Catalog) (es fs : List (String × String × Value)) :
    c.replay (es ++ fs) = (c.replay es).replay fs :=
  List.foldl_append

theorem mem_names_replay {es : List (String × String × Value)} :
    d ∈ (c.replay es).names ↔ d ∈ c.names ∨ ∃ f ∈ es, d = f.1 := by
  induction es generalizing c with
  | nil => simp [replay]
  | cons f es ih =>
    rw [replay_cons, ih, mem_names_insertIfAbsent, List.exists_mem_cons_iff, or_assoc]

theorem Known.replay (h : c.Known d m) (es : List (String × String × Value)) :
    (c.replay es).Known d m := by
  induction es generalizing c with
  | nil => exact h
  | cons f es ih => exact ih (h.insertIfAbsent _)

theorem known_replay {es : List (String × String × Value)} {f : String × String × Value}
    (h : f ∈ es) : (c.replay es).Known f.1 f.2.1 := by
  obtain ⟨before, after, rfl⟩ := List.append_of_mem h
  rw [replay_append, replay_cons]
  exact (known_insertIfAbsent _ _ _ _).replay after

theorem replay_insertIfAbsent_comm {es : List (String × String × Value)} (hd : d ∈ c.names)
    (h : ∀ f ∈ es, d ≠ f.1) (m : String) (v : Value) :
    (c.insertIfAbsent d m v).replay es = (c.replay es).insertIfAbsent d m v := by
  induction es generalizing c with
  | nil => rfl
  | cons f es ih =>
    obtain ⟨hf, hes⟩ := List.forall_mem_cons.1 h
    rw [replay_cons, replay_cons, insertIfAbsent_comm hd hf]
    exact ih (mem_names_insertIfAbsent.2 (.inl hd)) hes

/-- Domains stand once and hold a message each, as they do where messages were recorded one by
one. -/
structure Filled (c : Catalog) : Prop where
  distinct : Entries.Distinct c.domains
  nonempty : ∀ d ∈ c.domains, d.2 ≠ []

theorem filled_empty : empty.Filled :=
  ⟨List.nodup_nil, fun _ h => by cases h⟩

theorem Filled.insertIfAbsent (h : c.Filled) (d m : String) (v : Value) :
    (c.insertIfAbsent d m v).Filled := by
  refine ⟨h.distinct.insert d _, ?_⟩
  rintro ⟨e, ms⟩ he
  have hg : (c.insertIfAbsent d m v).domain? e = some ms := (h.distinct.insert d _).get? he
  by_cases hde : d = e
  · subst hde
    obtain ⟨ms', hms, hm⟩ := known_insertIfAbsent c d m v
    rw [hms, Option.some.injEq] at hg
    subst hg
    exact fun hn => by rw [show ms' = [] from hn] at hm; cases hm
  · rw [domain?_insertIfAbsent_of_ne c m v hde] at hg
    exact h.nonempty _ (Entries.mem_of_get? hg)

theorem Filled.addAll (h : c.Filled) (options : ExtractOptions)
    (found : List (String × String)) : (c.addAll options found).Filled := by
  induction found generalizing c with
  | nil => exact h
  | cons f found ih => exact ih (h.insertIfAbsent _ _ _)

theorem listed_append (xs ys : Entries Messages) :
    listed ⟨xs ++ ys⟩ = listed ⟨xs⟩ ++ listed ⟨ys⟩ :=
  List.flatMap_append

theorem listed_cons (d : String) (ms : Messages) (ys : Entries Messages) :
    listed ⟨(d, ms) :: ys⟩ = (ms.map fun m => (d, m)) ++ listed ⟨ys⟩ :=
  List.flatMap_cons

theorem mem_names_of_mem_listed {f : String × String × Value} (h : f ∈ c.listed) :
    f.1 ∈ c.names := by
  obtain ⟨e, he, hf⟩ := List.mem_flatMap.1 h
  obtain ⟨m, -, rfl⟩ := List.mem_map.1 hf
  exact Entries.mem_keys_of_mem he

/-- Recording a message in a catalog before it is replayed, or afterwards, is the same. -/
theorem Filled.replay_insertIfAbsent (h : g.Filled) (c : Catalog) (d m : String) (v : Value) :
    c.replay (g.insertIfAbsent d m v).listed = (c.replay g.listed).insertIfAbsent d m v := by
  cases hd : g.domain? d with
  | none =>
    have hn : d ∉ Entries.keys g.domains := (Entries.get?_eq_none_iff _ d).1 hd
    have hg : g.insertIfAbsent d m v = ⟨g.domains ++ [(d, [(m, v)])]⟩ := by
      rw [Catalog.insertIfAbsent, messages, hd]
      exact congrArg Catalog.mk (Entries.insert_of_not_mem hn)
    rw [hg, listed_append, replay_append]
    rfl
  | some ms =>
    by_cases hm : m ∈ Entries.keys ms
    · have hk : g.Known d m := ⟨ms, hd, hm⟩
      obtain ⟨w, hw⟩ := Entries.mem_keys_iff.1 hm
      have hl : (d, m, w) ∈ g.listed := List.mem_flatMap.2
        ⟨(d, ms), Entries.mem_of_get? hd, List.mem_map.2 ⟨(m, w), Entries.mem_of_get? hw, rfl⟩⟩
      rw [hk.insertIfAbsent_eq, (known_replay hl).insertIfAbsent_eq]
    · obtain ⟨before, after, hdom, hb⟩ := Entries.exists_eq_append_cons hd
      have hg : g.insertIfAbsent d m v = ⟨before ++ (d, ms ++ [(m, v)]) :: after⟩ := by
        rw [Catalog.insertIfAbsent, messages_of_domain? hd, Entries.insertIfAbsent,
          if_neg fun hc => hm (Entries.contains_eq_true_iff.1 hc), Entries.insert_of_not_mem hm,
          setDomain, hdom, Entries.insert_append_cons hb]
      have hother : ∀ f ∈ listed ⟨after⟩, d ≠ f.1 := by
        have hdist := h.distinct
        rw [hdom, Entries.Distinct, Entries.keys_append, List.nodup_append] at hdist
        intro f hf he
        exact Entries.Distinct.head hdist.2.1 (he ▸ mem_names_of_mem_listed hf)
      -- The domain is known once its own messages were replayed, for it has at least one.
      have hknown (c : Catalog) : d ∈ (c.replay (ms.map fun m => (d, m))).names := by
        obtain ⟨x, xs, hx⟩ := List.exists_cons_of_ne_nil (h.nonempty _ (Entries.mem_of_get? hd))
        rw [mem_names_replay]
        refine .inr ⟨(d, x), ?_, rfl⟩
        rw [show ms = x :: xs from hx]
        exact List.mem_cons_self
      rw [hg, listed_append, listed_cons, List.map_append, replay_append, replay_append,
        replay_append, show g = ⟨g.domains⟩ from rfl, hdom, listed_append, listed_cons,
        replay_append, replay_append]
      exact replay_insertIfAbsent_comm (hknown _) hother m v

theorem addAll_concat (options : ExtractOptions) (c : Catalog) (found : List (String × String))
    (f : String × String) :
    c.addAll options (found ++ [f]) = (c.addAll options found).insertIfAbsent f.1 f.2
      (.ofString (options.placeholder ++ f.2)) := by
  rw [addAll_append]
  rfl

theorem addNew_addAll (options : ExtractOptions) (c : Catalog) (found : List (String × String)) :
    c.addNew (empty.addAll options found) = c.addAll options found := by
  induction found using List.reverseRecOn with
  | nil => rfl
  | append_singleton found f ih =>
    have hf : (empty.addAll options found).Filled := filled_empty.addAll options found
    rw [addNew_eq_replay] at ih ⊢
    rw [addAll_concat, addAll_concat, hf.replay_insertIfAbsent, ih]

/-- A search that starts anew adds what a search that goes on would add. -/
theorem addNew_extract (c : Catalog) (options : ExtractOptions) (tree : Node) :
    c.addNew (empty.extract options tree).catalog = (c.extract options tree).catalog := by
  rw [extract_eq, extract_eq]
  exact addNew_addAll options c _

theorem tooDeep_extract (c : Catalog) (options : ExtractOptions) (tree : Node) :
    (c.extract options tree).tooDeep = (empty.extract options tree).tooDeep := by
  rw [extract_eq, extract_eq]

theorem extractAll_append (c : Catalog) (xs ys : List (ExtractOptions × Node)) :
    c.extractAll (xs ++ ys) = (c.extractAll xs).extractAll ys :=
  List.foldl_append

end Catalog

namespace ParsedTemplate

def rejection? (options : ExtractOptions) (p : ParsedTemplate) : Option String :=
  match p.tree with
  | .error message => some message
  | .ok tree =>
    if (Catalog.empty.extract options tree).tooDeep then some options.depthMessage else none

def contributes (options : ExtractOptions) (p : ParsedTemplate) : Bool :=
  (p.rejection? options).isNone

def searches (options : ExtractOptions) (ps : List ParsedTemplate) : List (ExtractOptions × Node) :=
  ps.filterMap fun p => p.tree.toOption.map fun tree => (options, tree)

theorem contributes_iff {options : ExtractOptions} {p : ParsedTemplate} :
    p.contributes options = true ↔
      ∃ tree, p.tree = .ok tree ∧ (Catalog.empty.extract options tree).tooDeep = false := by
  cases hp : p.tree with
  | error message => simp [contributes, rejection?, hp]
  | ok tree => cases hd : (Catalog.empty.extract options tree).tooDeep <;>
      simp [contributes, rejection?, hp, hd]

end ParsedTemplate

namespace Harvest

open ParsedTemplate (searches)

variable {options : ExtractOptions} {p : ParsedTemplate} {message : String}

theorem add_of_rejection? (h : p.rejection? options = some message) (s : Harvest) :
    s.add options p = s.reject p.path message := by
  cases hp : p.tree with
  | error message' =>
    simp only [ParsedTemplate.rejection?, hp, Option.some.injEq] at h
    simp only [add, hp, h]
  | ok tree =>
    simp only [ParsedTemplate.rejection?, hp, Option.ite_none_right_eq_some,
      Option.some.injEq] at h
    simp only [add, hp, h.1, if_true, h.2]

theorem add_of_contributes (h : p.contributes options = true) (s : Harvest) :
    s.add options p =
      { s with catalog := s.catalog.extractAll (searches options [p])
               templates := s.templates ++ [p.path] } := by
  obtain ⟨tree, hp, hd⟩ := ParsedTemplate.contributes_iff.1 h
  have hs : searches options [p] = [(options, tree)] := by
    rw [searches, List.filterMap_cons, hp]
    rfl
  rw [hs]
  simp only [add, hp, hd, Bool.false_eq_true, if_false, Catalog.addNew_extract]
  rfl

theorem foldl_add (options : ExtractOptions) (ps : List ParsedTemplate) (s : Harvest) :
    ps.foldl (add options) s =
      { catalog := s.catalog.extractAll (searches options (ps.filter (·.contributes options)))
        templates := s.templates ++ (ps.filter (·.contributes options)).map (·.path)
        errors := s.errors ++ ps.filterMap fun p =>
          (p.rejection? options).map fun message => ⟨p.path, message⟩ } := by
  induction ps generalizing s with
  | nil => simp [searches, Catalog.extractAll]
  | cons p ps ih =>
    rw [List.foldl_cons, ih]
    cases hr : p.rejection? options with
    | some message =>
      have hc : p.contributes options = false := by rw [ParsedTemplate.contributes, hr]; rfl
      rw [add_of_rejection? hr, List.filter_cons_of_neg (by simp [hc]), List.filterMap_cons, hr]
      simp [reject]
    | none =>
      have hc : p.contributes options = true := by rw [ParsedTemplate.contributes, hr]; rfl
      have hs : searches options (p :: ps.filter (·.contributes options)) =
          searches options [p] ++ searches options (ps.filter (·.contributes options)) :=
        List.filterMap_append (l := [p])
      rw [add_of_contributes hc, List.filter_cons_of_pos hc, List.filterMap_cons, hr, hs,
        Catalog.extractAll_append]
      simp

/-- What a harvest from templates holds. -/
structure SharedSearch (options : ExtractOptions) (ps : List ParsedTemplate) (s : Harvest) :
    Prop where
  /-- The templates with a tree that a search gets through, and no others, contribute. -/
  templates : s.templates = (ps.filter (·.contributes options)).map (·.path)
  contributes : ∀ p : ParsedTemplate, p.contributes options = true ↔
    ∃ tree, p.tree = .ok tree ∧ ∀ c : Catalog, (c.extract options tree).tooDeep = false
  rejected : s.errors.map (·.path) = (ps.filter (!·.contributes options)).map (·.path)
  messages : s.errors = ps.filterMap fun p =>
    (p.rejection? options).map fun message => ⟨p.path, message⟩
  /-- One search goes through the trees of the contributing templates in turn. -/
  catalog : s.catalog =
    Catalog.empty.extractAll (searches options (ps.filter (·.contributes options)))
  /-- Other templates may come and go anywhere. -/
  invisible : ∀ qs : List ParsedTemplate,
    qs.filter (·.contributes options) = ps.filter (·.contributes options) →
      (ofParsed options qs).catalog = s.catalog

theorem ofParsed_sharedSearch (options : ExtractOptions) (ps : List ParsedTemplate) :
    SharedSearch options ps (ofParsed options ps) := by
  constructor
  · rw [ofParsed, foldl_add]
    rfl
  · intro p
    rw [ParsedTemplate.contributes_iff]
    constructor
    · rintro ⟨tree, hp, hd⟩
      exact ⟨tree, hp, fun c => by rw [Catalog.tooDeep_extract, hd]⟩
    · rintro ⟨tree, hp, hd⟩
      exact ⟨tree, hp, hd _⟩
  · rw [ofParsed, foldl_add]
    simp only [List.nil_append]
    induction ps with
    | nil => rfl
    | cons p ps ih =>
      rw [List.filterMap_cons, List.filter_cons, ParsedTemplate.contributes]
      cases p.rejection? options with
      | none => exact ih
      | some message =>
        simpa using ih
  · rw [ofParsed, foldl_add]
    rfl
  · rw [ofParsed, foldl_add]
  · intro qs h
    rw [ofParsed, foldl_add, h, ofParsed, foldl_add]

end Harvest
end Phrasebook
