import Phrasebook.Proofs.Value

namespace Phrasebook
namespace Value

variable {base es : Messages} {k key : String} {v slot : Value} {s : Scalar} {f : Value → Value}

theorem append_cases (es : Messages) (s : Scalar) :
    append es s = es ∨ append es s = Entries.insert es (nextIndex es) (scalar s) := by
  rw [append]
  split
  · exact .inl rfl
  · exact .inr rfl

theorem mergeEntry_new (hg : Entries.get? base k = none) (hk : isNumericKey k = false) :
    mergeEntry base k v f = Entries.insert base k v := by
  simp only [mergeEntry, hg, hk, Bool.not_false, ↓reduceIte]

theorem mergeEntry_slot (hg : Entries.get? base k = some slot)
    (hc : slot.isContainer = true ∨ v.isContainer = true) :
    mergeEntry base k v f = Entries.insert base k (f slot) := by
  simp only [mergeEntry, hg]
  split
  · rfl
  · next hs =>
    cases v with
    | scalar s => cases hc.resolve_left hs
    | list items => rfl
    | map es => rfl

theorem mergeEntry_open (hg : Entries.get? base k = none) (hk : isNumericKey k = true)
    (hc : v.isContainer = true) :
    mergeEntry base k v f = Entries.insert base k (f null) := by
  simp only [mergeEntry, hg, hk, Bool.not_true, Bool.false_eq_true, ↓reduceIte]
  cases v with
  | scalar s => cases hc
  | list items => rfl
  | map es => rfl

theorem mergeEntry_item (hk : isNumericKey k = true)
    (hs : ∀ slot, Entries.get? base k = some slot → slot.isContainer = false) :
    mergeEntry base k (scalar s) f = append base s := by
  rw [mergeEntry]
  split
  · simp only [hk, Bool.not_true, Bool.false_eq_true, ↓reduceIte]
  · next slot hg => simp only [hs slot hg, hk, Bool.false_eq_true, ↓reduceIte]

theorem mergeEntry_set (hg : Entries.get? base k = some slot) (hs : slot.isContainer = false)
    (hk : isNumericKey k = false) :
    mergeEntry base k (scalar s) f = Entries.insert base k (scalar s) := by
  simp only [mergeEntry, hg, hs, hk, Bool.false_eq_true, ↓reduceIte]

/-- A step sets the key of its entry, or it appends a leaf that came under a numeric key. -/
theorem mergeEntry_cases (base : Messages) (k : String) (v : Value) (f : Value → Value) :
    (∃ w, mergeEntry base k v f = Entries.insert base k w) ∨
      ∃ s, v = scalar s ∧ isNumericKey k = true ∧
        (∀ slot, Entries.get? base k = some slot → slot.isContainer = false) ∧
        mergeEntry base k v f = append base s := by
  cases hg : Entries.get? base k with
  | none =>
    cases hk : isNumericKey k with
    | false => exact .inl ⟨v, mergeEntry_new hg hk⟩
    | true =>
      cases v with
      | scalar s =>
        have hs : ∀ slot, Entries.get? base k = some slot → slot.isContainer = false := by
          simp [hg]
        exact .inr ⟨s, rfl, rfl, by simp, mergeEntry_item hk hs⟩
      | list items => exact .inl ⟨_, mergeEntry_open hg hk rfl⟩
      | map es => exact .inl ⟨_, mergeEntry_open hg hk rfl⟩
  | some slot =>
    by_cases hc : slot.isContainer = true ∨ v.isContainer = true
    · exact .inl ⟨_, mergeEntry_slot hg hc⟩
    · rw [not_or, Bool.not_eq_true, Bool.not_eq_true] at hc
      obtain ⟨s, rfl⟩ := isContainer_eq_false_iff.1 hc.2
      cases hk : isNumericKey k with
      | false => exact .inl ⟨_, mergeEntry_set hg hc.1 hk⟩
      | true =>
        have hs : ∀ slot, Entries.get? base k = some slot → slot.isContainer = false := by
          simp [hg, hc.1]
        exact .inr ⟨s, rfl, rfl, by simp [hc.1], mergeEntry_item hk hs⟩

@[simp] theorem mergeEntries_nil (base : Messages) : mergeEntries base [] = base := rfl

theorem mergeEntries_cons (base : Messages) (k : String) (v : Value) (es : Messages) :
    mergeEntries base ((k, v) :: es) =
      mergeEntries (mergeEntry base k v fun slot => merge slot v) es := rfl

theorem mergeEntries_append (base es es' : Messages) :
    mergeEntries base (es ++ es') = mergeEntries (mergeEntries base es) es' := by
  induction es generalizing base with
  | nil => rfl
  | cons e es ih => exact ih _

theorem keys_prefix_mergeEntry (base : Messages) (k : String) (v : Value) (f : Value → Value) :
    Entries.keys base <+: Entries.keys (mergeEntry base k v f) := by
  rcases mergeEntry_cases base k v f with ⟨w, he⟩ | ⟨s, -, -, -, he⟩
  · rw [he]
    exact Entries.keys_prefix_insert base k w
  · rw [he]
    rcases append_cases base s with he | he
    · exact he.symm ▸ List.prefix_rfl
    · rw [he]
      exact Entries.keys_prefix_insert base _ _

theorem keys_prefix_mergeEntries (base es : Messages) :
    Entries.keys base <+: Entries.keys (mergeEntries base es) := by
  induction es generalizing base with
  | nil => exact List.prefix_rfl
  | cons e es ih =>
    obtain ⟨k, v⟩ := e
    exact (keys_prefix_mergeEntry base k v _).trans (ih _)

theorem distinct_mergeEntry (h : Entries.Distinct base) (k : String) (v : Value)
    (f : Value → Value) : Entries.Distinct (mergeEntry base k v f) := by
  rcases mergeEntry_cases base k v f with ⟨w, he⟩ | ⟨s, -, -, -, he⟩
  · rw [he]
    exact h.insert k w
  · rw [he]
    rcases append_cases base s with he | he <;> rw [he]
    · exact h
    · exact h.insert _ _

theorem distinct_mergeEntries (h : Entries.Distinct base) (es : Messages) :
    Entries.Distinct (mergeEntries base es) := by
  induction es generalizing base with
  | nil => exact h
  | cons e es ih =>
    obtain ⟨k, v⟩ := e
    exact ih (distinct_mergeEntry h k v _)

theorem get?_mergeEntry_of_ne (hk : k ≠ key) (hn : nextIndex base ≠ key) :
    Entries.get? (mergeEntry base k v f) key = Entries.get? base key := by
  rcases mergeEntry_cases base k v f with ⟨w, he⟩ | ⟨s, -, -, -, he⟩
  · rw [he, Entries.get?_insert_of_ne _ _ hk]
  · rw [he]
    rcases append_cases base s with he | he <;> rw [he]
    exact Entries.get?_insert_of_ne _ _ hn

/-- What an entry of the base becomes when an addition has a value under its key. -/
def joined (key : String) (slot v : Value) : Value :=
  if slot.isContainer || v.isContainer then merge slot v
  else if isNumericKey key then slot else v

theorem joined_of_isContainer (key : String)
    (hc : slot.isContainer = true ∨ v.isContainer = true) :
    joined key slot v = merge slot v := by
  rw [joined, if_pos]
  rwa [Bool.or_eq_true]

theorem joined_numeric (hk : isNumericKey key = true) (hs : slot.isContainer = false)
    (hv : v.isContainer = false) : joined key slot v = slot := by
  simp [joined, hk, hs, hv]

theorem joined_name (hk : isNumericKey key = false) (hs : slot.isContainer = false)
    (hv : v.isContainer = false) : joined key slot v = v := by
  simp [joined, hk, hs, hv]

theorem get?_mergeEntry_self (hg : Entries.get? base k = some slot) (hn : nextIndex base ≠ k) :
    Entries.get? (mergeEntry base k v fun slot => merge slot v) k = some (joined k slot v) := by
  by_cases hc : slot.isContainer = true ∨ v.isContainer = true
  · rw [mergeEntry_slot hg hc, Entries.get?_insert_self, joined_of_isContainer k hc]
  · rw [not_or, Bool.not_eq_true, Bool.not_eq_true] at hc
    obtain ⟨s, rfl⟩ := isContainer_eq_false_iff.1 hc.2
    cases hk : isNumericKey k with
    | false =>
      rw [mergeEntry_set hg hc.1 hk, Entries.get?_insert_self, joined_name hk hc.1 rfl]
    | true =>
      rw [mergeEntry_item hk (by simp [hg, hc.1]), joined_numeric hk hc.1 rfl]
      rcases append_cases base s with he | he <;> rw [he]
      · exact hg
      · rw [Entries.get?_insert_of_ne _ _ hn, hg]

def Spared (key : String) (base es : Messages) : Prop :=
  ∀ xs e ys, es = xs ++ e :: ys → nextIndex (mergeEntries base xs) ≠ key

theorem Spared.head {e : String × Value} (h : Spared key base (e :: es)) :
    nextIndex base ≠ key :=
  h [] e es rfl

theorem Spared.tail (h : Spared key base ((k, v) :: es)) :
    Spared key (mergeEntry base k v fun slot => merge slot v) es := by
  intro xs e ys he
  exact h ((k, v) :: xs) e ys (congrArg _ he)

theorem Spared.of_name (hk : isNumericKey key = false) (base es : Messages) :
    Spared key base es := by
  intro xs e ys he hn
  have := isNumericKey_nextIndex (mergeEntries base xs)
  rw [hn, hk] at this
  cases this

theorem get?_mergeEntries_of_not_mem (hm : key ∉ Entries.keys es) (hs : Spared key base es) :
    Entries.get? (mergeEntries base es) key = Entries.get? base key := by
  induction es generalizing base with
  | nil => rfl
  | cons e es ih =>
    obtain ⟨k, v⟩ := e
    have hk : k ≠ key := fun h => hm (h ▸ List.mem_cons_self)
    rw [mergeEntries_cons, ih (fun h => hm (List.mem_cons_of_mem _ h)) hs.tail,
      get?_mergeEntry_of_ne hk hs.head]

theorem get?_mergeEntries_of_mem (hd : Entries.Distinct es) (hs : Spared key base es)
    (hb : Entries.get? base key = some slot) (he : Entries.get? es key = some v) :
    Entries.get? (mergeEntries base es) key = some (joined key slot v) := by
  induction es generalizing base with
  | nil => cases he
  | cons e es ih =>
    obtain ⟨k, w⟩ := e
    rw [Entries.get?_cons] at he
    rw [mergeEntries_cons]
    split at he
    · next hk =>
      cases he
      subst hk
      rw [get?_mergeEntries_of_not_mem hd.head hs.tail, get?_mergeEntry_self hb hs.head]
    · next hk =>
      apply ih hd.tail hs.tail
      · rw [get?_mergeEntry_of_ne hk hs.head, hb]
      · exact he

theorem get?_mergeEntries_new (hk : isNumericKey key = false) (hd : Entries.Distinct es)
    (hb : Entries.get? base key = none) :
    Entries.get? (mergeEntries base es) key = Entries.get? es key := by
  induction es generalizing base with
  | nil => exact hb
  | cons e es ih =>
    obtain ⟨k, w⟩ := e
    have hs := Spared.of_name hk base ((k, w) :: es)
    rw [Entries.get?_cons, mergeEntries_cons]
    split
    · next hkk =>
      subst hkk
      rw [get?_mergeEntries_of_not_mem hd.head hs.tail, mergeEntry_new hb hk,
        Entries.get?_insert_self]
    · next hkk =>
      apply ih hd.tail
      rw [get?_mergeEntry_of_ne hkk hs.head, hb]

theorem mergeEntries_eq_insertAll (g : String → Value → Value) (hd : Entries.Distinct es)
    (h : ∀ e ∈ es, ∀ b, Entries.get? b e.1 = Entries.get? base e.1 →
      mergeEntry b e.1 e.2 (fun slot => merge slot e.2) = Entries.insert b e.1 (g e.1 e.2)) :
    mergeEntries base es = Entries.insertAll base (Entries.mapValues g es) := by
  induction es generalizing base with
  | nil => rfl
  | cons e es ih =>
    obtain ⟨k, v⟩ := e
    rw [mergeEntries_cons, h _ List.mem_cons_self base rfl, ih hd.tail]
    · rfl
    · intro e he b hb
      have hk : k ≠ e.1 := fun hk => hd.head (hk ▸ Entries.mem_keys_of_mem he)
      apply h e (List.mem_cons_of_mem _ he)
      rw [hb, Entries.get?_insert_of_ne _ _ hk]

theorem keysBelow_mergeEntry {m : Int} (h : KeysBelow m base) (hk : KeysBelow m [(k, v)])
    (hm : 0 ≤ m) (f : Value → Value) : KeysBelow (m + 1) (mergeEntry base k v f) := by
  have hle : m ≤ m + 1 := by omega
  rcases mergeEntry_cases base k v f with ⟨w, he⟩ | ⟨s, -, -, -, he⟩
  · rw [he]
    exact (h.insert hk w).mono hle
  · rw [he]
    rcases append_cases base s with he | he <;> rw [he]
    · exact h.mono hle
    · exact (h.mono hle).insert (nextIndex_below h hm (scalar s)) _

/-- The integer keys of both sides leave room for one append after each entry. -/
def Room (base es : Messages) : Prop :=
  ∃ m : Int, 0 ≤ m ∧ KeysBelow m base ∧ KeysBelow m es ∧ m + es.length ≤ 9223372036854775808

theorem Room.head {e : String × Value} (h : Room base (e :: es)) :
    nextIndex base ∉ Entries.keys base := by
  obtain ⟨m, hm, hb, -, hl⟩ := h
  rw [List.length_cons] at hl
  apply nextIndex_not_mem
  exact hb.mono (by omega)

theorem Room.tail (h : Room base ((k, v) :: es)) :
    Room (mergeEntry base k v fun slot => merge slot v) es := by
  obtain ⟨m, hm, hb, he, hl⟩ := h
  obtain ⟨hk, he⟩ := KeysBelow.cons_iff.1 he
  rw [List.length_cons] at hl
  exact ⟨m + 1, by omega, keysBelow_mergeEntry hb hk hm _, he.mono (by omega), by omega⟩

theorem Room.nextIndex_not_mem {e : String × Value} {xs ys : Messages}
    (h : Room base (xs ++ e :: ys)) :
    nextIndex (mergeEntries base xs) ∉ Entries.keys (mergeEntries base xs) := by
  induction xs generalizing base with
  | nil => exact h.head
  | cons x xs ih =>
    obtain ⟨k, v⟩ := x
    exact ih h.tail

theorem Room.spared (h : Room base es) (hk : key ∈ Entries.keys base) : Spared key base es := by
  intro xs e ys he hn
  rw [he] at h
  apply h.nextIndex_not_mem
  rw [hn]
  exact (keys_prefix_mergeEntries base xs).subset hk

end Value
end Phrasebook
