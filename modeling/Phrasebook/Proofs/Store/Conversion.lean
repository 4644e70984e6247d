import Phrasebook.Proofs.Value
import Phrasebook.Store.Writing

namespace Phrasebook

namespace Yaml

theorem Number.text_ofInt64 (n : Int64) : (Number.ofInt64 n).text = toString n.toInt := rfl

theorem Number.toScalar_ofInt64 (n : Int64) : (Number.ofInt64 n).toScalar = .int n := by
  have hl := n.le_toInt
  have hu := n.toInt_lt
  have hr : int64InRange n.toInt = true := int64InRange_iff.2 (by omega)
  rw [ofInt64, toScalar, if_pos hr, Int64.ofInt_toInt]

end Yaml

theorem keyText_keyData (key : String) : (keyData key).keyText = .ok key := by
  rw [keyData]
  cases h : integerKey? key with
  | some n => rw [Yaml.Data.keyText, Yaml.Number.text_ofInt64, ← eq_toString_of_integerKey? h]
  | none => rfl

theorem Scalar.toValue_toData (s : Scalar) : s.toData.toValue = .ok (.scalar s) := by
  cases s with
  | int n => rw [toData, Yaml.Data.toValue, Yaml.Number.toScalar_ofInt64]
  | _ => rfl

def Scalar.oneNaN : Scalar → Scalar
  | float x => .float (if x.isNaN then .nan else x)
  | s => s

namespace Value

open Yaml.Data (itemsToValues entriesToMessages)

mutual

theorem toValue_toData : ∀ v : Value, v.Distinct → v.toData.toValue = .ok v
  | scalar s, _ => s.toValue_toData
  | list items, h => by
    rw [toData, Yaml.Data.toValue, itemsToValues_itemsToData items h]
    rfl
  | map es, h => by
    rw [toData, Yaml.Data.toValue, entriesToMessages_entriesToData es [] h.2,
      Entries.insertAll_empty h.1]
    rfl

theorem itemsToValues_itemsToData : ∀ vs : List Value, DistinctItems vs →
    itemsToValues (itemsToData vs) = .ok vs
  | [], _ => rfl
  | v :: vs, h => by
    rw [itemsToData, itemsToValues, toValue_toData v h.1, itemsToValues_itemsToData vs h.2]
    rfl

theorem entriesToMessages_entriesToData : ∀ (es : List (String × Value)) (acc : Messages),
    DistinctEntries es → entriesToMessages acc (entriesToData es) = .ok (acc.insertAll es)
  | [], _, _ => rfl
  | (k, v) :: es, acc, h => by
    have hes := entriesToMessages_entriesToData es (Entries.insert acc k v) h.2
    rw [entriesToData, entriesToMessages, keyText_keyData, toValue_toData v h.1]
    exact hes

end

mutual

/-- The value with one NaN in place of every other. -/
def oneNaN : Value → Value
  | scalar s => scalar s.oneNaN
  | list items => list (itemsOneNaN items)
  | map es => map (entriesOneNaN es)

def itemsOneNaN : List Value → List Value
  | [] => []
  | v :: vs => v.oneNaN :: itemsOneNaN vs

def entriesOneNaN : List (String × Value) → Messages
  | [] => []
  | (k, v) :: es => (k, v.oneNaN) :: entriesOneNaN es

end

theorem keys_entriesOneNaN (es : List (String × Value)) :
    Entries.keys (entriesOneNaN es) = Entries.keys es := by
  induction es with
  | nil => rfl
  | cons e es ih => exact congrArg (e.1 :: ·) ih

mutual

theorem distinct_oneNaN : ∀ v : Value, v.Distinct → v.oneNaN.Distinct
  | scalar _, _ => trivial
  | list items, h => distinctItems_oneNaN items h
  | map es, h => by
    refine ⟨?_, distinctEntries_oneNaN es h.2⟩
    rw [Entries.Distinct, keys_entriesOneNaN]
    exact h.1

theorem distinctItems_oneNaN : ∀ vs : List Value, DistinctItems vs →
    DistinctItems (itemsOneNaN vs)
  | [], _ => trivial
  | v :: vs, h => ⟨distinct_oneNaN v h.1, distinctItems_oneNaN vs h.2⟩

theorem distinctEntries_oneNaN : ∀ es : List (String × Value), DistinctEntries es →
    DistinctEntries (entriesOneNaN es)
  | [], _ => trivial
  | (_, v) :: es, h => ⟨distinct_oneNaN v h.1, distinctEntries_oneNaN es h.2⟩

end

end Value

def firstLine (text : String) : List Char := text.toList.takeWhile (· ≠ '\n')

/-- What is taken for granted of the text of messages: the reader of documents finds their data in
it, and there is no mistaking its first line for one that holds nothing. -/
structure ReadsBack (m : Messages) : Prop where
  data : Yaml.Data.read? (renderMessages m) = some (Value.map m).oneNaN.toData
  line : m ≠ [] → isEmptyLine (firstLine (renderMessages m)) = false

theorem takeWhile_mem_splitAt (cs : List Char) :
    cs.takeWhile (· ≠ '\n') ∈ splitAt (· == '\n') cs := by
  suffices h : (splitAt (· == '\n') cs).head? = some (cs.takeWhile (· ≠ '\n')) from
    List.mem_of_head? h
  induction cs with
  | nil => rfl
  | cons c cs ih =>
    rw [splitAt]
    split
    · next hc =>
      rw [beq_iff_eq] at hc
      rw [List.takeWhile_cons_of_neg (by simpa using hc)]
      rfl
    · next hc =>
      rw [beq_iff_eq] at hc
      rw [List.takeWhile_cons_of_pos (by simpa using hc)]
      cases hs : splitAt (· == '\n') cs with
      | nil =>
        rw [hs] at ih
        cases ih
      | cons part parts =>
        rw [hs] at ih
        rw [Option.some.inj ih]
        rfl

theorem isEmptyDocument_eq_false {text : String} (h : isEmptyLine (firstLine text) = false) :
    isEmptyDocument text = false := by
  rw [isEmptyDocument, List.all_eq_false]
  exact ⟨_, takeWhile_mem_splitAt text.toList, by rw [← firstLine, h]; exact Bool.false_ne_true⟩

/-- The messages that are read again: none if every line of their text counts as empty. -/
def reloaded (m : Messages) : Messages :=
  if isEmptyDocument (renderMessages m) then [] else Value.entriesOneNaN m

theorem ReadsBack.reloaded {m : Messages} (h : ReadsBack m) :
    reloaded m = Value.entriesOneNaN m := by
  cases m with
  | nil => exact ite_self []
  | cons e m =>
    rw [Phrasebook.reloaded, isEmptyDocument_eq_false (h.line (List.cons_ne_nil e m))]
    rfl

theorem messagesOfText_renderMessages (path : Path) {m : Messages} (hd : (Value.map m).Distinct)
    (h : Yaml.Data.read? (renderMessages m) = some (Value.map m).oneNaN.toData) :
    messagesOfText path (renderMessages m) = .ok (reloaded m) := by
  have hn := Value.distinct_oneNaN _ hd
  have hentries := Value.entriesToMessages_entriesToData (Value.entriesOneNaN m) [] hn.2
  rw [Entries.insertAll_empty hn.1] at hentries
  rw [messagesOfText, reloaded]
  split
  · rfl
  · rw [h, Value.oneNaN, Value.toData]
    simp only [messagesOfRoot, hentries]
    rfl

end Phrasebook
