import Mathlib.Data.List.Lex

namespace Phrasebook

def textBytes (s : String) : List UInt8 := s.toUTF8.data.toList

/-- Whether a text comes before another one, byte by byte. -/
def BytesLt (a b : String) : Prop := List.Lex (· < ·) (textBytes a) (textBytes b)

theorem textBytes_eq (s : String) : textBytes s = s.toList.flatMap String.utf8EncodeChar := by
  rw [textBytes, String.toUTF8, ← String.utf8Encode_toList, List.utf8Encode,
    List.toList_data_toByteArray]

theorem lex_cons_ofNat {m n : Nat} (hm : m < 256) (hn : n < 256) {as bs : List UInt8} :
    List.Lex (· < ·) (UInt8.ofNat m :: as) (UInt8.ofNat n :: bs) ↔
      m < n ∨ m = n ∧ List.Lex (· < ·) as bs := by
  have hlt : UInt8.ofNat m < UInt8.ofNat n ↔ m < n := by
    rw [UInt8.lt_iff_toNat_lt, UInt8.toNat_ofNat_of_lt' hm, UInt8.toNat_ofNat_of_lt' hn]
  have heq : UInt8.ofNat m = UInt8.ofNat n ↔ m = n := by
    rw [← UInt8.toNat_inj, UInt8.toNat_ofNat_of_lt' hm, UInt8.toNat_ofNat_of_lt' hn]
  rw [← hlt, ← heq]
  exact List.cons_lt_cons_iff

theorem lex_utf8EncodeChar {c d : Char} (h : c < d) (as bs : List UInt8) :
    List.Lex (· < ·) (String.utf8EncodeChar c ++ as) (String.utf8EncodeChar d ++ bs) := by
  have hlt : c.val.toNat < d.val.toNat := h
  have hmax : d.val.toNat < 1114112 := by
    obtain hd | hd := d.valid <;> omega
  -- A byte holds six bits, so that all quotients are made of those by 64.
  have htwo (n : Nat) : n / 4096 = n / 64 / 64 := by omega
  have hthree (n : Nat) : n / 262144 = n / 64 / 64 / 64 := by omega
  unfold String.utf8EncodeChar
  dsimp only
  generalize c.val.toNat = v at hlt
  generalize d.val.toNat = w at hlt hmax
  -- One case for each pair of lengths; what follows the bytes never decides.
  by_cases hrest : List.Lex (· < ·) as bs
  all_goals
    repeat' split
    all_goals simp (disch := omega) only [List.cons_append, List.nil_append, lex_cons_ofNat, hrest,
      htwo, hthree]
    all_goals omega

theorem BytesLt.of_lt {a b : String} (h : a < b) : BytesLt a b := by
  rw [BytesLt, textBytes_eq, textBytes_eq]
  have hlex : List.Lex (· < ·) a.toList b.toList := h
  generalize a.toList = as at hlex
  generalize b.toList = bs at hlex
  induction hlex with
  | nil =>
    next c cs =>
    obtain ⟨x, xs, hx⟩ := List.exists_cons_of_length_pos (l := String.utf8EncodeChar c) (by
      rw [String.length_utf8EncodeChar]
      exact c.utf8Size_pos)
    rw [List.flatMap_cons, hx]
    exact .nil
  | cons _ ih =>
    rw [List.flatMap_cons, List.flatMap_cons]
    exact ih.append_left _ _
  | rel hcd =>
    rw [List.flatMap_cons, List.flatMap_cons]
    exact lex_utf8EncodeChar hcd _ _

theorem bytesLt_iff {a b : String} : BytesLt a b ↔ a < b := by
  refine ⟨fun h => ?_, .of_lt⟩
  by_cases hab : a < b
  · exact hab
  by_cases hba : b < a
  · exact absurd h (List.lt_asymm (BytesLt.of_lt hba))
  · cases String.le_antisymm hba hab
    exact absurd h (List.lt_irrefl _)

end Phrasebook
