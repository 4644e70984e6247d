import Phrasebook.Merge
import Phrasebook.Proofs.Entries
import Mathlib.Data.List.TakeWhile

namespace Phrasebook

theorem int64InRange_iff {z : Int} :
    int64InRange z = true ↔ -9223372036854775808 ≤ z ∧ z < 9223372036854775808 := by
  have hl : Int64.minValue.toInt = -9223372036854775808 := by decide
  have hu : Int64.maxValue.toInt = 9223372036854775807 := by decide
  rw [int64InRange, hl, hu, Bool.and_eq_true, decide_eq_true_iff, decide_eq_true_iff]
  omega

theorem toInt_ofInt_of_inRange {z : Int} (h : int64InRange z = true) :
    (Int64.ofInt z).toInt = z := by
  obtain ⟨hl, hu⟩ := int64InRange_iff.1 h
  apply Int64.toInt_ofInt_of_le <;> omega

theorem toInt_ofInt_le {z : Int} (h : -9223372036854775808 ≤ z) : (Int64.ofInt z).toInt ≤ z := by
  have hs : Int64.size = 18446744073709551616 := rfl
  rw [Int64.toInt_ofInt, Int.bmod_def, hs]
  split <;> omega

theorem toList_toString_int (z : Int) :
    (toString z).toList = (if 0 ≤ z then [] else ['-']) ++ Nat.toDigits 10 z.natAbs := by
  rw [Int.toString_eq_repr, Int.repr_eq_if]
  split
  · next h =>
    have he : z.toNat = z.natAbs := by omega
    rw [Nat.toList_repr, he, List.nil_append]
  · next h =>
    rw [String.toList_append, Nat.toList_repr]
    have he : (-z).toNat = z.natAbs := by omega
    rw [he]
    rfl

theorem isDigit_toDigits {n : Nat} : ∀ c ∈ Nat.toDigits 10 n, c.isDigit = true :=
  fun _ h => Nat.isDigit_of_mem_toDigits (by decide) (by decide) h

theorem isDigits_toDigits (n : Nat) : isDigits (Nat.toDigits 10 n) = true := by
  have hn : (Nat.toDigits 10 n).isEmpty = false := by simp
  rw [isDigits, hn, Bool.not_false, Bool.true_and, List.all_eq_true]
  exact isDigit_toDigits

theorem digitsValue_toDigits (n : Nat) : digitsValue (Nat.toDigits 10 n) = n := by
  have h := @Nat.ofDigitChars_ten_toDigits n
  rwa [Nat.ofDigitChars_eq_foldl] at h

theorem takeSign_digits {cs : List Char} (h : ∀ c ∈ cs, c.isDigit = true) :
    takeSign cs = (false, cs) := by
  cases cs with
  | nil => rfl
  | cons c cs =>
    have hc := h c List.mem_cons_self
    rw [takeSign.eq_def]
    split
    · next he => cases he; cases hc
    · next he => cases he; cases hc
    · rfl

theorem takeSign_toString_int (z : Int) :
    takeSign (toString z).toList = (decide (z < 0), Nat.toDigits 10 z.natAbs) := by
  rw [toList_toString_int]
  split
  · next h =>
    rw [List.nil_append, takeSign_digits isDigit_toDigits, decide_eq_false (by omega)]
  · next h =>
    rw [decide_eq_true (by omega)]
    rfl

theorem readInt64?_toString_int {z : Int} (h : int64InRange z = true) :
    readInt64? (toString z).toList = some (Int64.ofInt z) := by
  have hz : (if decide (z < 0) = true then -(z.natAbs : Int) else z.natAbs) = z := by
    split
    · next hn => have := of_decide_eq_true hn; omega
    · next hn => have := of_decide_eq_false (Bool.not_eq_true _ ▸ hn); omega
  rw [readInt64?, takeSign_toString_int]
  simp only [isDigits_toDigits, digitsValue_toDigits, hz, h, ↓reduceIte]

theorem integerKey?_toString_int {z : Int} (h : int64InRange z = true) :
    integerKey? (toString z) = some (Int64.ofInt z) := by
  rw [integerKey?, readInt64?_toString_int h, Option.filter_some, toInt_ofInt_of_inRange h,
    beq_self_eq_true, if_pos rfl]

theorem eq_toString_of_integerKey? {k : String} {i : Int64} (h : integerKey? k = some i) :
    k = toString i.toInt := by
  rw [integerKey?, Option.filter_eq_some_iff] at h
  exact (eq_of_beq h.2).symm

theorem toString_int_inj {y z : Int} (h : toString y = toString z) : y = z := by
  have hs := congrArg (fun s : String => takeSign s.toList) h
  simp only [takeSign_toString_int, Prod.mk.injEq] at hs
  have hn := congrArg digitsValue hs.2
  rw [digitsValue_toDigits, digitsValue_toDigits] at hn
  have hd := decide_eq_decide.1 hs.1
  omega

theorem positionKey_eq (n : Nat) : positionKey n = toString (n : Int) := rfl

theorem positionKey_inj {m n : Nat} (h : positionKey m = positionKey n) : m = n :=
  Int.ofNat_inj.1 (toString_int_inj h)

theorem toInt_of_integerKey?_positionKey {n : Nat} {i : Int64}
    (h : integerKey? (positionKey n) = some i) : i.toInt = n := by
  have he := eq_toString_of_integerKey? h
  rw [positionKey_eq] at he
  exact (toString_int_inj he).symm

theorem isKeyBlank_of_isDigit {c : Char} (h : c.isDigit = true) : isKeyBlank c = false := by
  rw [← Bool.not_eq_true]
  intro hb
  simp only [isKeyBlank, Bool.or_eq_true, beq_iff_eq] at hb
  rcases hb with ((((rfl | rfl) | rfl) | rfl) | rfl) | rfl <;> cases h

theorem trimKeyBlanks_eq_self {cs : List Char} (h : ∀ c ∈ cs, isKeyBlank c = false) :
    trimKeyBlanks cs = cs := by
  have hd {ds : List Char} (hs : ∀ c ∈ ds, isKeyBlank c = false) :
      ds.dropWhile isKeyBlank = ds := by
    rw [List.dropWhile_eq_self_iff]
    intro hl
    simp [hs _ (List.getElem_mem hl)]
  rw [trimKeyBlanks, hd h, hd, List.reverse_reverse]
  intro c hc
  exact h c (List.mem_reverse.1 hc)

theorem isKeyBlank_toString_int (z : Int) : ∀ c ∈ (toString z).toList, isKeyBlank c = false := by
  intro c hc
  rw [toList_toString_int, List.mem_append] at hc
  rcases hc with hc | hc
  · split at hc
    · cases hc
    · rw [List.mem_singleton.1 hc]
      decide
  · exact isKeyBlank_of_isDigit (isDigit_toDigits c hc)

theorem isNumericKey_toString_int (z : Int) : isNumericKey (toString z) = true := by
  have ht : (Nat.toDigits 10 z.natAbs).takeWhile Char.isDigit = Nat.toDigits 10 z.natAbs :=
    List.takeWhile_eq_self_iff.2 isDigit_toDigits
  have hd : (Nat.toDigits 10 z.natAbs).dropWhile Char.isDigit = [] :=
    List.dropWhile_eq_nil_iff.2 isDigit_toDigits
  have hn : (Nat.toDigits 10 z.natAbs).isEmpty = false := by simp
  rw [isNumericKey, numeralKey?, trimKeyBlanks_eq_self (isKeyBlank_toString_int z), Numeral.read?,
    takeSign_toString_int]
  simp only [ht, hd, Numeral.takeFraction, hn, Bool.false_and, Numeral.readExponent?,
    Bool.false_eq_true, ↓reduceIte, Option.map_some, Option.isSome_some]

@[simp] theorem isNumericKey_positionKey (n : Nat) : isNumericKey (positionKey n) = true :=
  isNumericKey_toString_int n

def KeysBelow (m : Int) (es : Messages) : Prop :=
  ∀ k ∈ Entries.keys es, ∀ i, integerKey? k = some i → i.toInt < m

instance (m : Int) (es : Messages) : Decidable (KeysBelow m es) :=
  decidable_of_iff ((Entries.keys es).all fun k => (integerKey? k).all fun i => i.toInt < m)
    (by simp [KeysBelow, Option.all_eq_true])

theorem KeysBelow.mono {m n : Int} {es : Messages} (h : KeysBelow m es) (hn : m ≤ n) :
    KeysBelow n es :=
  fun k hk i hi => Int.lt_of_lt_of_le (h k hk i hi) hn

theorem KeysBelow.nil (m : Int) : KeysBelow m [] := by
  intro k hk
  cases hk

theorem KeysBelow.cons_iff {m : Int} {e : String × Value} {es : Messages} :
    KeysBelow m (e :: es) ↔ KeysBelow m [e] ∧ KeysBelow m es := by
  constructor
  · intro h
    refine ⟨fun k hk => h k ?_, fun k hk => h k (List.mem_cons_of_mem _ hk)⟩
    rw [List.mem_singleton.1 hk]
    exact List.mem_cons_self
  · rintro ⟨he, hs⟩ k hk
    rcases List.mem_cons.1 hk with rfl | hk
    · exact he _ List.mem_cons_self
    · exact hs k hk

theorem KeysBelow.insert {m : Int} {es : Messages} {k : String} {v : Value}
    (h : KeysBelow m es) (hk : KeysBelow m [(k, v)]) (w : Value) :
    KeysBelow m (Entries.insert es k w) := by
  intro k' hk'
  rcases Entries.mem_keys_insert.1 hk' with hm | rfl
  · exact h k' hm
  · exact hk _ List.mem_cons_self

theorem KeysBelow.toString_int {m z : Int} (h : z < m) (v : Value) :
    KeysBelow m [(toString z, v)] := by
  intro k hk i hi
  have he := eq_toString_of_integerKey? hi
  rw [List.mem_singleton.1 hk] at he
  rw [← toString_int_inj he]
  exact h

namespace Value

/-- The number that comes next, before it wraps: zero, or one more than an integer key. -/
def Follows (es : Messages) (z : Int) : Prop :=
  z = 0 ∨ ∃ k ∈ Entries.keys es, ∃ i, integerKey? k = some i ∧ z = i.toInt + 1

theorem Follows.bounds {m z : Int} {es : Messages} (hs : Follows es z) (h : KeysBelow m es)
    (hm : 0 ≤ m) : -9223372036854775808 ≤ z ∧ z ≤ m := by
  rcases hs with rfl | ⟨k, hk, i, hi, rfl⟩
  · omega
  · have hl := i.le_toInt
    have hu := h k hk i hi
    omega

theorem nextIndex_spec (es : Messages) :
    ∃ z : Int, nextIndex es = toString (Int64.ofInt z).toInt ∧ KeysBelow z es ∧ Follows es z := by
  rw [nextIndex]
  split
  · next n hn =>
    have hle := (List.max?_eq_some_iff.1 hn).2
    have hm := (List.max?_eq_some_iff.1 hn).1
    obtain ⟨k, hk, hi⟩ := List.mem_filterMap.1 hm
    obtain ⟨i, hki, rfl⟩ := Option.map_eq_some_iff.1 hi
    refine ⟨i.toInt + 1, rfl, fun k' hk' i' hi' => ?_, .inr ⟨k, hk, i, hki, rfl⟩⟩
    apply Int.lt_add_one_of_le
    apply hle
    exact List.mem_filterMap.2 ⟨k', hk', by rw [hi']; rfl⟩
  · next hn =>
    refine ⟨0, rfl, fun k hk i hi => ?_, .inl rfl⟩
    have he := List.max?_eq_none_iff.1 hn
    have hm : i.toInt ∈ (Entries.keys es).filterMap fun k => (integerKey? k).map Int64.toInt :=
      List.mem_filterMap.2 ⟨k, hk, by rw [hi]; rfl⟩
    rw [he] at hm
    cases hm

example : nextIndex [("9223372036854775807", .null)] = "-9223372036854775808" := by decide

theorem isNumericKey_nextIndex (es : Messages) : isNumericKey (nextIndex es) = true := by
  obtain ⟨z, hz, -, -⟩ := nextIndex_spec es
  rw [hz]
  exact isNumericKey_toString_int _

/-- As long as the integers last, nothing wraps. -/
theorem nextIndex_of_keysBelow {es : Messages} (h : KeysBelow 9223372036854775807 es) :
    ∃ z : Int, int64InRange z = true ∧ nextIndex es = toString z ∧ KeysBelow z es ∧
      Follows es z := by
  obtain ⟨z, hz, hb, hs⟩ := nextIndex_spec es
  have hbounds := hs.bounds h (by decide)
  have hr : int64InRange z = true := int64InRange_iff.2 (by omega)
  rw [toInt_ofInt_of_inRange hr] at hz
  exact ⟨z, hr, hz, hb, hs⟩

theorem exists_integerKey?_nextIndex {es : Messages} (h : KeysBelow 9223372036854775807 es) :
    ∃ i, integerKey? (nextIndex es) = some i ∧ KeysBelow i.toInt es := by
  obtain ⟨z, hr, hz, hb, -⟩ := nextIndex_of_keysBelow h
  refine ⟨Int64.ofInt z, hz ▸ integerKey?_toString_int hr, ?_⟩
  rwa [toInt_ofInt_of_inRange hr]

theorem nextIndex_not_mem {es : Messages} (h : KeysBelow 9223372036854775807 es) :
    nextIndex es ∉ Entries.keys es := by
  obtain ⟨i, hi, hb⟩ := exists_integerKey?_nextIndex h
  intro hm
  exact Int.lt_irrefl _ (hb _ hm i hi)

theorem nextIndex_below {m : Int} {es : Messages} (h : KeysBelow m es) (hm : 0 ≤ m) (v : Value) :
    KeysBelow (m + 1) [(nextIndex es, v)] := by
  obtain ⟨z, hz, -, hs⟩ := nextIndex_spec es
  obtain ⟨hl, hu⟩ := hs.bounds h hm
  rw [hz]
  apply KeysBelow.toString_int
  exact Int.lt_add_one_of_le (Int.le_trans (toInt_ofInt_le hl) hu)

end Value
end Phrasebook
