import Phrasebook.Entries

namespace Phrasebook
namespace Entries

universe u

variable {α : Type u} {a b es base : Entries α} {k key : String} {v w : α}

@[simp] theorem keys_nil : keys ([] : Entries α) = [] := rfl

@[simp] theorem keys_cons (e : String × α) (es : Entries α) :
    keys (e :: es) = e.1 :: keys es := rfl

@[simp] theorem keys_append (a b : Entries α) : keys (a ++ b) = keys a ++ keys b :=
  List.map_append

theorem mem_keys_of_mem {e : String × α} (h : e ∈ es) : e.1 ∈ keys es :=
  List.mem_map_of_mem h

theorem get?_cons (k : String) (v : α) (es : Entries α) (key : String) :
    get? ((k, v) :: es) key = if k = key then some v else get? es key := rfl

theorem mem_of_get? (h : get? es k = some v) : (k, v) ∈ es := by
  induction es with
  | nil => cases h
  | cons e es ih =>
    obtain ⟨k', v'⟩ := e
    rw [get?_cons] at h
    split at h
    · next hk =>
      cases h
      rw [hk]
      exact List.mem_cons_self
    · exact List.mem_cons_of_mem _ (ih h)

theorem mem_keys_iff : k ∈ keys es ↔ ∃ v, get? es k = some v := by
  rw [← Option.isSome_iff_exists, Option.isSome_iff_ne_none, ne_eq, get?_eq_none_iff,
    Decidable.not_not]

theorem mem_keys_of_get? (h : get? es k = some v) : k ∈ keys es :=
  mem_keys_iff.2 ⟨v, h⟩

theorem contains_eq_true_iff : contains es k = true ↔ k ∈ keys es := by
  rw [contains, Option.isSome_iff_exists, mem_keys_iff]

theorem contains_eq_false_iff : contains es k = false ↔ k ∉ keys es := by
  rw [← contains_eq_true_iff, Bool.not_eq_true]

theorem Distinct.head (h : Distinct ((k, v) :: es)) : k ∉ keys es :=
  (List.nodup_cons.1 h).1

theorem Distinct.tail {e : String × α} (h : Distinct (e :: es)) : Distinct es :=
  (List.nodup_cons.1 h).2

theorem Distinct.get? (h : Distinct es) (hm : (k, v) ∈ es) : get? es k = some v := by
  induction es with
  | nil => cases hm
  | cons e es ih =>
    obtain ⟨k', v'⟩ := e
    rw [get?_cons]
    rcases List.mem_cons.1 hm with he | hm
    · cases he
      rw [if_pos rfl]
    · have hk : k' ≠ k := fun hk => h.head (hk ▸ mem_keys_of_mem hm)
      rw [if_neg hk]
      exact ih h.tail hm

theorem get?_append (a b : Entries α) (k : String) :
    get? (a ++ b) k = (get? a k).or (get? b k) := by
  induction a with
  | nil => rfl
  | cons e a ih =>
    obtain ⟨k', v'⟩ := e
    rw [List.cons_append, get?_cons, get?_cons, ih]
    split <;> rfl

theorem Distinct.ext (h : Distinct a) (hk : keys a = keys b)
    (hg : ∀ k ∈ keys a, Entries.get? a k = Entries.get? b k) : a = b := by
  induction a generalizing b with
  | nil =>
    cases b with
    | nil => rfl
    | cons e b => cases hk
  | cons e a ih =>
    cases b with
    | nil => cases hk
    | cons e' b =>
      obtain ⟨k, v⟩ := e
      obtain ⟨k', v'⟩ := e'
      have hk' : k = k' := (List.cons.inj hk).1
      subst k'
      have hv := hg k List.mem_cons_self
      rw [get?_cons, get?_cons, if_pos rfl, if_pos rfl] at hv
      cases hv
      rw [ih h.tail (List.cons.inj hk).2]
      intro key hm
      have hne : k ≠ key := fun he => h.head (he ▸ hm)
      have := hg key (List.mem_cons_of_mem _ hm)
      rwa [get?_cons, get?_cons, if_neg hne, if_neg hne] at this

def mapValues {β : Type u} (f : String → α → β) (es : Entries α) : Entries β :=
  es.map fun e => (e.1, f e.1 e.2)

theorem mapValues_cons {β : Type u} (f : String → α → β) (e : String × α) (es : Entries α) :
    mapValues f (e :: es) = (e.1, f e.1 e.2) :: mapValues f es := rfl

@[simp] theorem keys_mapValues {β : Type u} (f : String → α → β) (es : Entries α) :
    keys (mapValues f es) = keys es := by
  rw [keys, keys, mapValues, List.map_map]
  rfl

theorem get?_mapValues {β : Type u} (f : String → α → β) (es : Entries α) (k : String) :
    get? (mapValues f es) k = (get? es k).map (f k) := by
  induction es with
  | nil => rfl
  | cons e es ih =>
    obtain ⟨k', v'⟩ := e
    rw [mapValues_cons, get?_cons, get?_cons, ih]
    split
    · next hk => rw [hk, Option.map_some]
    · rfl

theorem Distinct.mapValues {β : Type u} (h : Distinct es) (f : String → α → β) :
    Distinct (mapValues f es) := by
  rw [Distinct, keys_mapValues]
  exact h

theorem mem_mapValues {β : Type u} {f : String → α → β} {e : String × β}
    (h : e ∈ mapValues f es) : ∃ v, (e.1, v) ∈ es ∧ e.2 = f e.1 v := by
  obtain ⟨⟨k, v⟩, hm, rfl⟩ := List.mem_map.1 h
  exact ⟨v, hm, rfl⟩

theorem insert_of_not_mem (h : k ∉ keys es) : insert es k v = es ++ [(k, v)] := by
  induction es with
  | nil => rfl
  | cons e es ih =>
    obtain ⟨k', v'⟩ := e
    have hk : k' ≠ k := fun he => h (he ▸ List.mem_cons_self)
    rw [insert, if_neg hk, ih fun hm => h (List.mem_cons_of_mem _ hm)]
    rfl

theorem insert_get? (h : get? es k = some v) : insert es k v = es := by
  induction es with
  | nil => cases h
  | cons e es ih =>
    obtain ⟨k', v'⟩ := e
    rw [get?_cons] at h
    rw [insert]
    split
    · next hk =>
      rw [if_pos hk] at h
      cases h
      rfl
    · next hk =>
      rw [if_neg hk] at h
      rw [ih h]

theorem insert_append_cons (h : k ∉ keys a) :
    insert (a ++ (k, w) :: b) k v = a ++ (k, v) :: b := by
  induction a with
  | nil => simp [insert]
  | cons e a ih =>
    obtain ⟨k', v'⟩ := e
    have hk : k' ≠ k := fun he => h (he ▸ List.mem_cons_self)
    rw [List.cons_append, insert, if_neg hk, ih fun hm => h (List.mem_cons_of_mem _ hm)]
    rfl

theorem get?_insert (es : Entries α) (key : String) (v : α) (k : String) :
    get? (insert es key v) k = if key = k then some v else get? es k := by
  split
  · next h => rw [h, get?_insert_self]
  · next h => rw [get?_insert_of_ne es v h]

theorem contains_insert (es : Entries α) (key : String) (v : α) (k : String) :
    contains (insert es key v) k = (key == k || contains es k) := by
  rw [contains, get?_insert]
  split
  · next h => simp [h]
  · next h => simp [h, contains]

theorem mem_keys_insert : k ∈ keys (insert es key v) ↔ k ∈ keys es ∨ k = key := by
  rw [keys_insert]
  split
  · next h => exact ⟨.inl, fun hk => hk.elim id fun hk => hk ▸ h⟩
  · rw [List.mem_append, List.mem_singleton]

theorem keys_prefix_insert (es : Entries α) (key : String) (v : α) :
    keys es <+: keys (insert es key v) := by
  rw [keys_insert]
  split
  · exact List.prefix_rfl
  · exact List.prefix_append _ _

theorem Distinct.insert (h : Distinct es) (key : String) (v : α) :
    Distinct (insert es key v) := by
  rw [Distinct, keys_insert]
  split
  · exact h
  · next hk =>
    rw [List.nodup_append]
    refine ⟨h, by simp, fun k hm k' hm' => ?_⟩
    rw [List.mem_singleton.1 hm']
    exact fun he => hk (he ▸ hm)

/-- Sets each listed key in turn. -/
def insertAll (base es : Entries α) : Entries α := es.foldl (fun b e => insert b e.1 e.2) base

@[simp] theorem insertAll_nil (base : Entries α) : insertAll base [] = base := rfl

@[simp] theorem insertAll_cons (base : Entries α) (e : String × α) (es : Entries α) :
    insertAll base (e :: es) = insertAll (insert base e.1 e.2) es := rfl

theorem get?_insertAll (h : Distinct es) (base : Entries α) (k : String) :
    get? (insertAll base es) k = (get? es k).or (get? base k) := by
  induction es generalizing base with
  | nil => rfl
  | cons e es ih =>
    obtain ⟨k', v⟩ := e
    rw [insertAll_cons, ih h.tail, get?_insert, get?_cons]
    by_cases hk : k' = k
    · have hn := (get?_eq_none_iff es k).2 (hk ▸ h.head)
      rw [hn, if_pos hk, if_pos hk]
      rfl
    · rw [if_neg hk, if_neg hk]

theorem keys_insertAll (h : Distinct es) (base : Entries α) :
    keys (insertAll base es) = keys base ++ (keys es).filter fun k => !contains base k := by
  induction es generalizing base with
  | nil => simp
  | cons e es ih =>
    obtain ⟨k, v⟩ := e
    have hf : (keys es).filter (fun k' => !contains (insert base k v) k') =
        (keys es).filter fun k' => !contains base k' := by
      apply List.filter_congr
      intro k' hk'
      have hne : k ≠ k' := fun he => h.head (he ▸ hk')
      rw [contains, contains, get?_insert_of_ne base v hne]
    rw [insertAll_cons, ih h.tail, hf, keys_insert, keys_cons]
    by_cases hm : k ∈ keys base
    · rw [if_pos hm, List.filter_cons_of_neg]
      simpa using contains_eq_true_iff.2 hm
    · rw [if_neg hm, List.filter_cons_of_pos, List.append_assoc]
      · rfl
      · simpa using contains_eq_false_iff.2 hm

/-- Keys that are set more than once stand where they are set first. -/
theorem keys_insertAll_eraseDups (base es : Entries α) :
    keys (insertAll base es) =
      keys base ++ ((keys es).filter fun k => !contains base k).eraseDups := by
  induction es generalizing base with
  | nil => simp
  | cons e es ih =>
    obtain ⟨k, v⟩ := e
    rw [insertAll_cons, ih, keys_insert, keys_cons]
    by_cases hm : k ∈ keys base
    · have hc := contains_eq_true_iff.2 hm
      have hsame : ∀ k', contains (insert base k v) k' = contains base k' := by
        intro k'
        rw [contains_insert]
        by_cases hk : k = k'
        · rw [← hk, hc, Bool.or_true]
        · simp [hk]
      rw [if_pos hm, List.filter_cons_of_neg (by simp [hc])]
      simp only [hsame]
    · have hc := contains_eq_false_iff.2 hm
      have hnew : (keys es).filter (fun k' => !contains (insert base k v) k') =
          ((keys es).filter fun k' => !contains base k').filter fun k' => !k' == k := by
        rw [List.filter_filter]
        apply List.filter_congr
        intro k' _
        rw [contains_insert, Bool.not_or, BEq.comm]
      rw [if_neg hm, List.filter_cons_of_pos (by simp [hc]), List.eraseDups_cons, hnew,
        List.append_assoc]
      rfl

/-- Of a key that is set more than once the last value stays. -/
theorem get?_insertAll_reverse (base es : Entries α) (k : String) :
    get? (insertAll base es) k = (get? es.reverse k).or (get? base k) := by
  induction es generalizing base with
  | nil => rfl
  | cons e es ih =>
    obtain ⟨k', v⟩ := e
    rw [insertAll_cons, ih, get?_insert, List.reverse_cons, get?_append, Option.or_assoc, get?_cons]
    split <;> rfl

theorem Distinct.insertAll (h : Distinct base) (es : Entries α) :
    Distinct (insertAll base es) := by
  induction es generalizing base with
  | nil => exact h
  | cons e es ih => exact ih (h.insert e.1 e.2)

theorem insertAll_of_keys_prefix (h : Distinct es) (hb : keys base <+: keys es) :
    insertAll base es = es := by
  have hd : Distinct base := h.sublist hb.sublist
  apply (hd.insertAll es).ext
  · obtain ⟨rest, hr⟩ := hb
    rw [keys_insertAll h, ← hr, List.filter_append]
    have h₁ : (keys base).filter (fun k => !contains base k) = [] := by
      rw [List.filter_eq_nil_iff]
      intro k hk
      simpa using contains_eq_true_iff.2 hk
    have h₂ : rest.filter (fun k => !contains base k) = rest := by
      rw [List.filter_eq_self]
      intro k hk
      have hn : k ∉ keys base := by
        rw [Distinct, ← hr] at h
        exact fun hm => (List.nodup_append.1 h).2.2 k hm k hk rfl
      simpa using contains_eq_false_iff.2 hn
    rw [h₁, h₂, List.nil_append]
  · intro k hk
    rw [get?_insertAll h]
    cases hg : get? es k with
    | some v => rfl
    | none =>
      have hn := (get?_eq_none_iff es k).1 hg
      rw [Option.none_or, get?_eq_none_iff]
      exact fun hm => hn (hb.subset hm)

theorem insertAll_empty (h : Distinct es) : insertAll [] es = es := by
  have hb : keys ([] : Entries α) <+: keys es := List.nil_prefix
  exact insertAll_of_keys_prefix h hb

theorem eq_cons_of_keys_prefix (hk : [k] <+: keys es) (hg : get? es k = some v) :
    ∃ rest, es = (k, v) :: rest := by
  cases es with
  | nil => cases hg
  | cons e es =>
    obtain ⟨l, w⟩ := e
    rw [keys_cons, List.cons_prefix_cons] at hk
    obtain ⟨rfl, -⟩ := hk
    rw [get?_cons, if_pos rfl, Option.some.injEq] at hg
    exact ⟨es, by rw [hg]⟩

end Entries
end Phrasebook
