import Mathlib.Computability.Language
import Mathlib.Data.List.TakeWhile
import Mathlib.Order.CompletePartialOrder

/-!
Patterns for texts, as languages of characters. A scanner reads a run of characters of one kind as
far as it goes; in front of a text that begins with none of them this is the only way to read it,
and the longest one.
-/
namespace Phrasebook

open Computability

def oneOf (p : Char → Bool) : Language Char := {cs | ∃ c, p c = true ∧ cs = [c]}

def manyOf (p : Char → Bool) : Language Char := (oneOf p)∗

def someOf (p : Char → Bool) : Language Char := oneOf p * manyOf p

def optional (l : Language Char) : Language Char := 1 + l

/-- No text of the language begins with a character that passes the test. -/
def NeverStarts (p : Char → Bool) (l : Language Char) : Prop :=
  ∀ cs ∈ l, ∀ c, cs.head? = some c → p c = false

def NeverEnds (p : Char → Bool) (l : Language Char) : Prop :=
  ∀ cs ∈ l, ∀ c, cs.getLast? = some c → p c = false

section Membership

variable {p : Char → Bool} {l m : Language Char} {c : Char} {cs ds : List Char}

theorem mem_optional : cs ∈ optional l ↔ cs = [] ∨ cs ∈ l := by
  rw [optional, Language.mem_add, Language.mem_one]

theorem nil_mem_optional (l : Language Char) : [] ∈ optional l := mem_optional.2 (.inl rfl)

theorem mem_oneOf_mul : cs ∈ oneOf p * l ↔ ∃ c ds, cs = c :: ds ∧ p c = true ∧ ds ∈ l := by
  rw [Language.mem_mul]
  constructor
  · rintro ⟨_, ⟨c, hc, rfl⟩, ds, hd, rfl⟩
    exact ⟨c, ds, rfl, hc, hd⟩
  · rintro ⟨c, ds, rfl, hc, hd⟩
    exact ⟨[c], ⟨c, hc, rfl⟩, ds, hd, rfl⟩

theorem cons_mem_oneOf_mul : c :: cs ∈ oneOf p * l ↔ p c = true ∧ cs ∈ l := by
  rw [mem_oneOf_mul]
  constructor
  · rintro ⟨c', ds, he, hc, hd⟩
    cases he
    exact ⟨hc, hd⟩
  · rintro ⟨hc, hd⟩
    exact ⟨c, cs, rfl, hc, hd⟩

theorem nil_not_mem_oneOf_mul : [] ∉ oneOf p * l := by
  intro h
  obtain ⟨c, ds, he, -⟩ := mem_oneOf_mul.1 h
  cases he

theorem mem_manyOf : cs ∈ manyOf p ↔ ∀ c ∈ cs, p c = true := by
  rw [manyOf, Language.mem_kstar]
  constructor
  · rintro ⟨parts, rfl, hparts⟩ c hc
    obtain ⟨part, hm, hc⟩ := List.mem_flatten.1 hc
    obtain ⟨d, hd, rfl⟩ := hparts part hm
    rwa [List.mem_singleton.1 hc]
  · intro h
    refine ⟨cs.map fun c => [c], ?_, ?_⟩
    · induction cs with
      | nil => rfl
      | cons c cs ih =>
        rw [List.map_cons, List.flatten_cons, ← ih fun d hd => h d (List.mem_cons_of_mem c hd)]
        rfl
    · intro part hm
      obtain ⟨c, hc, rfl⟩ := List.mem_map.1 hm
      exact ⟨c, h c hc, rfl⟩

theorem mem_someOf : cs ∈ someOf p ↔ cs ≠ [] ∧ ∀ c ∈ cs, p c = true := by
  cases cs with
  | nil => simp [someOf, nil_not_mem_oneOf_mul]
  | cons c cs => simp [someOf, cons_mem_oneOf_mul, mem_manyOf]

theorem nil_mem_mul (h : [] ∈ l * m) : [] ∈ l ∧ [] ∈ m := by
  obtain ⟨a, ha, b, hb, he⟩ := Language.mem_mul.1 h
  obtain ⟨rfl, rfl⟩ := List.append_eq_nil_iff.1 he
  exact ⟨ha, hb⟩

theorem NeverStarts.eq_nil_of_isPrefix (h : NeverStarts p l) (hc : p c = true) (hd : ds ∈ l)
    (hp : ds <+: c :: cs) : ds = [] := by
  cases ds with
  | nil => rfl
  | cons d ds =>
    obtain ⟨rfl, -⟩ := List.cons_prefix_cons.1 hp
    rw [h _ hd d rfl] at hc
    cases hc

theorem not_isPrefix_of_head (h : ∀ c, cs.head? = some c → p c = false) :
    ∀ ds ∈ oneOf p * l, ¬ ds <+: cs := by
  rintro ds hd ⟨rest, rfl⟩
  obtain ⟨c, ds, rfl, hc, -⟩ := mem_oneOf_mul.1 hd
  rw [h c rfl] at hc
  cases hc

theorem mem_takeWhile_of_mem (cs : List Char) : ∀ c ∈ cs.takeWhile p, p c = true :=
  fun _ => List.mem_takeWhile_imp

theorem NeverStarts.oneOf_mul {q : Char → Bool} (h : ∀ c, q c = true → p c = false) :
    NeverStarts p (oneOf q * l) := by
  intro cs hm c hc
  obtain ⟨d, ds, rfl, hd, -⟩ := mem_oneOf_mul.1 hm
  cases hc
  exact h c hd

theorem NeverStarts.optional (h : NeverStarts p l) : NeverStarts p (optional l) := by
  intro cs hm c hc
  rcases mem_optional.1 hm with rfl | hm
  · cases hc
  · exact h cs hm c hc

theorem NeverStarts.add (h : NeverStarts p l) (h' : NeverStarts p m) : NeverStarts p (l + m) := by
  intro cs hm
  rcases (Language.mem_add ..).1 hm with hm | hm
  · exact h cs hm
  · exact h' cs hm

theorem NeverStarts.optional_mul (h : NeverStarts p l) (h' : NeverStarts p m) :
    NeverStarts p (Phrasebook.optional l * m) := by
  intro cs hm c hc
  obtain ⟨a, ha, b, hb, rfl⟩ := Language.mem_mul.1 hm
  cases a with
  | nil => exact h' b hb c hc
  | cons d a => exact h _ ((mem_optional.1 ha).resolve_left (List.cons_ne_nil d a)) c hc

theorem NeverStarts.mul (h : NeverStarts p l) (hl : [] ∉ l) : NeverStarts p (l * m) := by
  intro cs hm c hc
  obtain ⟨a, ha, b, -, rfl⟩ := Language.mem_mul.1 hm
  cases a with
  | nil => exact absurd ha hl
  | cons d a => exact h _ ha c hc

theorem takeWhile_append_of_head (h : ∀ c ∈ cs, p c = true)
    (hr : ∀ d, ds.head? = some d → p d = false) : (cs ++ ds).takeWhile p = cs := by
  rw [List.takeWhile_append_of_pos h]
  cases ds with
  | nil => exact List.append_nil cs
  | cons d ds => rw [List.takeWhile_cons_of_neg (by simp [hr d rfl]), List.append_nil]

theorem dropWhile_append_of_head (h : ∀ c ∈ cs, p c = true)
    (hr : ∀ d, ds.head? = some d → p d = false) : (cs ++ ds).dropWhile p = ds := by
  rw [List.dropWhile_append_of_pos h]
  cases ds with
  | nil => rfl
  | cons d ds => rw [List.dropWhile_cons_of_neg (by simp [hr d rfl])]

theorem mem_manyOf_mul (h : NeverStarts p l) : cs ∈ manyOf p * l ↔ cs.dropWhile p ∈ l := by
  rw [Language.mem_mul]
  constructor
  · rintro ⟨a, ha, b, hb, rfl⟩
    rwa [dropWhile_append_of_head (mem_manyOf.1 ha) (h b hb)]
  · intro hd
    exact ⟨_, mem_manyOf.2 (mem_takeWhile_of_mem cs), _, hd, List.takeWhile_append_dropWhile⟩

theorem mem_someOf_mul (h : NeverStarts p l) :
    cs ∈ someOf p * l ↔ cs.takeWhile p ≠ [] ∧ cs.dropWhile p ∈ l := by
  rw [Language.mem_mul]
  constructor
  · rintro ⟨a, ha, b, hb, rfl⟩
    obtain ⟨hn, ha⟩ := mem_someOf.1 ha
    rw [takeWhile_append_of_head ha (h b hb), dropWhile_append_of_head ha (h b hb)]
    exact ⟨hn, hb⟩
  · rintro ⟨hn, hd⟩
    exact ⟨_, mem_someOf.2 ⟨hn, mem_takeWhile_of_mem cs⟩, _, hd, List.takeWhile_append_dropWhile⟩

theorem mem_mul_manyOf (h : NeverEnds p l) :
    cs ∈ l * manyOf p ↔ (cs.reverse.dropWhile p).reverse ∈ l := by
  rw [Language.mem_mul]
  constructor
  · rintro ⟨a, ha, b, hb, rfl⟩
    have hrun : ∀ c ∈ b.reverse, p c = true := fun c hc =>
      mem_manyOf.1 hb c (List.mem_reverse.1 hc)
    rwa [List.reverse_append, dropWhile_append_of_head hrun, List.reverse_reverse]
    intro c hc
    rw [List.head?_reverse] at hc
    exact h a ha c hc
  · intro hd
    refine ⟨_, hd, (cs.reverse.takeWhile p).reverse, mem_manyOf.2 ?_, ?_⟩
    · intro c hc
      exact mem_takeWhile_of_mem _ c (List.mem_reverse.1 hc)
    · rw [← List.reverse_append, List.takeWhile_append_dropWhile, List.reverse_reverse]

theorem oneOf_le_manyOf {q : Char → Bool} (h : ∀ c, p c = true → q c = true) :
    oneOf p ≤ manyOf q := by
  rintro _ ⟨c, hc, rfl⟩
  exact mem_manyOf.2 (List.forall_mem_singleton.2 (h c hc))

theorem optional_le_manyOf (h : l ≤ manyOf p) : optional l ≤ manyOf p := add_le one_le_kstar h

theorem mul_le_manyOf (h : l ≤ manyOf p) (h' : m ≤ manyOf p) : l * m ≤ manyOf p :=
  (mul_le_mul' h h').trans_eq (kstar_mul_kstar _)

theorem manyOf_le_manyOf {q : Char → Bool} (h : ∀ c, p c = true → q c = true) :
    manyOf p ≤ manyOf q := by
  intro cs hm
  exact mem_manyOf.2 fun c hc => h c (mem_manyOf.1 hm c hc)

end Membership

/-- The text `ds` is the longest one of the language with which the text `cs` begins. -/
structure LongestMatch (l : Language Char) (cs ds : List Char) : Prop where
  mem : ds ∈ l
  begins : ds <+: cs
  longest : ∀ es ∈ l, es <+: cs → es.length ≤ ds.length

namespace LongestMatch

variable {p : Char → Bool} {l m : Language Char} {c : Char} {cs ds : List Char}

theorem nil (h : ∀ es ∈ l, ¬ es <+: cs) : LongestMatch (optional l) cs [] where
  mem := nil_mem_optional l
  begins := List.nil_prefix
  longest es he hp := by
    rcases mem_optional.1 he with rfl | he
    · exact le_rfl
    · exact absurd hp (h es he)

theorem optional (h : LongestMatch l cs ds) : LongestMatch (optional l) cs ds where
  mem := mem_optional.2 (.inr h.mem)
  begins := h.begins
  longest es he hp := by
    rcases mem_optional.1 he with rfl | he
    · exact Nat.zero_le _
    · exact h.longest es he hp

theorem of_optional (h : LongestMatch (Phrasebook.optional l) cs ds) (hd : ds ≠ []) :
    LongestMatch l cs ds where
  mem := (mem_optional.1 h.mem).resolve_left hd
  begins := h.begins
  longest es he hp := h.longest es (mem_optional.2 (.inr he)) hp

theorem not_isPrefix (h : LongestMatch (Phrasebook.optional l) cs []) (hl : [] ∉ l) :
    ∀ es ∈ l, ¬ es <+: cs := by
  intro es he hp
  have hlen := h.longest es (mem_optional.2 (.inr he)) hp
  rw [List.length_eq_zero_iff.1 (Nat.le_zero.1 hlen)] at he
  exact hl he

theorem oneOf_mul (hc : p c = true) (h : LongestMatch l cs ds) :
    LongestMatch (oneOf p * l) (c :: cs) (c :: ds) where
  mem := cons_mem_oneOf_mul.2 ⟨hc, h.mem⟩
  begins := List.cons_prefix_cons.2 ⟨rfl, h.begins⟩
  longest es he hp := by
    obtain ⟨d, fs, rfl, -, hf⟩ := mem_oneOf_mul.1 he
    exact Nat.succ_le_succ (h.longest fs hf (List.cons_prefix_cons.1 hp).2)

theorem add_left (h : LongestMatch l cs ds) (hm : ∀ es ∈ m, ¬ es <+: cs) :
    LongestMatch (l + m) cs ds where
  mem := (Language.mem_add ..).2 (.inl h.mem)
  begins := h.begins
  longest es he hp := by
    rcases (Language.mem_add ..).1 he with he | he
    · exact h.longest es he hp
    · exact absurd hp (hm es he)

theorem add_right (h : LongestMatch m cs ds) (hl : ∀ es ∈ l, es <+: cs → es = []) :
    LongestMatch (l + m) cs ds where
  mem := (Language.mem_add ..).2 (.inr h.mem)
  begins := h.begins
  longest es he hp := by
    rcases (Language.mem_add ..).1 he with he | he
    · rw [hl es he hp]
      exact Nat.zero_le _
    · exact h.longest es he hp

theorem optional_cons (hc : p c = true) (hl : [] ∉ l)
    (h : LongestMatch (Phrasebook.optional l) cs ds) :
    LongestMatch (Phrasebook.optional (oneOf p * l)) (c :: cs)
      (if ds.isEmpty then [] else c :: ds) := by
  cases ds with
  | nil =>
    apply nil
    intro es he hp
    obtain ⟨d, fs, rfl, -, hf⟩ := mem_oneOf_mul.1 he
    exact h.not_isPrefix hl fs hf (List.cons_prefix_cons.1 hp).2
  | cons d ds => exact (oneOf_mul hc (h.of_optional (List.cons_ne_nil d ds))).optional

/-- A run goes as far as it can, for what comes behind it begins with no character of the run. -/
theorem someOf_mul (hl : NeverStarts p l) (hn : cs.takeWhile p ≠ [])
    (h : LongestMatch l (cs.dropWhile p) ds) :
    LongestMatch (someOf p * l) cs (cs.takeWhile p ++ ds) where
  mem := Language.mem_mul.2
    ⟨_, mem_someOf.2 ⟨hn, mem_takeWhile_of_mem cs⟩, ds, h.mem, rfl⟩
  begins := by
    nth_rewrite 2 [← List.takeWhile_append_dropWhile (p := p) (l := cs)]
    exact (List.prefix_append_right_inj _).2 h.begins
  longest es he hp := by
    obtain ⟨a, ha, b, hb, rfl⟩ := Language.mem_mul.1 he
    obtain ⟨-, ha⟩ := mem_someOf.1 ha
    obtain ⟨rest, hr⟩ := hp
    rw [List.append_assoc] at hr
    cases b with
    | nil =>
      have hrun : a <+: cs.takeWhile p := by
        rw [← hr, List.takeWhile_append_of_pos ha]
        exact List.prefix_append _ _
      simp only [List.append_nil, List.length_append]
      exact Nat.le_add_right_of_le hrun.length_le
    | cons d b =>
      have hhead : ∀ c, (d :: b ++ rest).head? = some c → p c = false := hl (d :: b) hb
      have ht := takeWhile_append_of_head ha hhead
      have hd := dropWhile_append_of_head ha hhead
      rw [hr] at ht hd
      rw [ht, List.length_append, List.length_append]
      exact Nat.add_le_add_left (h.longest _ hb (hd ▸ List.prefix_append _ _)) _

theorem someOf (hn : cs.takeWhile p ≠ []) : LongestMatch (someOf p) cs (cs.takeWhile p) := by
  have hone : LongestMatch (1 : Language Char) (cs.dropWhile p) [] :=
    ⟨rfl, List.nil_prefix, fun es he _ => by rw [(Language.mem_one es).1 he]⟩
  have h := someOf_mul (l := 1) (by rintro _ ⟨⟩ _ ⟨⟩) hn hone
  rwa [mul_one, List.append_nil] at h

theorem optional_someOf (p : Char → Bool) (cs : List Char) :
    LongestMatch (Phrasebook.optional (Phrasebook.someOf p)) cs (cs.takeWhile p) := by
  by_cases hn : cs.takeWhile p = []
  · rw [hn]
    refine nil (not_isPrefix_of_head fun c hc => ?_)
    cases cs with
    | nil => cases hc
    | cons d cs =>
      cases hc
      by_contra hp
      rw [List.takeWhile_cons_of_pos (Bool.not_eq_false _ ▸ hp)] at hn
      cases hn
  · exact (someOf hn).optional

end LongestMatch
end Phrasebook
