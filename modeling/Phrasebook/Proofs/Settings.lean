import Phrasebook.Proofs.Files.Ancestors
import Phrasebook.Settings

namespace Phrasebook.Settings

variable {t : FileTree} {p : Path} {dirs : List Path} {file : Path}

/-- The `i`-th of the directories holds settings. Those before it hold none, and no repository. -/
structure Nearest (t : FileTree) (dirs : List Path) (i : Nat) (dir : Path) : Prop where
  mem : dirs[i]? = some dir
  settings : t.hasEntry (dir.join fileName) = true
  nearer (j : Nat) (d : Path) : j < i → dirs[j]? = some d →
    t.hasEntry (d.join fileName) = false ∧ t.hasEntry (d.join repositoryName) = false

theorem exists_nearest_cons (t : FileTree) (dir : Path) (dirs : List Path) (file : Path) :
    (∃ i d, Nearest t (dir :: dirs) i d ∧ file = d.join fileName) ↔
      (t.hasEntry (dir.join fileName) = true ∧ file = dir.join fileName) ∨
        (t.hasEntry (dir.join fileName) = false ∧ t.hasEntry (dir.join repositoryName) = false ∧
          ∃ i d, Nearest t dirs i d ∧ file = d.join fileName) := by
  constructor
  · rintro ⟨i, d, h, hfile⟩
    cases i with
    | zero =>
      cases h.mem
      exact .inl ⟨h.settings, hfile⟩
    | succ i =>
      obtain ⟨hsettings, hrepository⟩ := h.nearer 0 dir (Nat.succ_pos i) rfl
      refine .inr ⟨hsettings, hrepository, i, d, ⟨h.mem, h.settings, fun j d' hj => ?_⟩, hfile⟩
      exact h.nearer (j + 1) d' (Nat.succ_lt_succ hj)
  · rintro (⟨hsettings, hfile⟩ | ⟨hsettings, hrepository, i, d, h, hfile⟩)
    · exact ⟨0, dir, ⟨rfl, hsettings, fun j _ hj => absurd hj (Nat.not_lt_zero j)⟩, hfile⟩
    · refine ⟨i + 1, d, ⟨h.mem, h.settings, fun j d' hj hd' => ?_⟩, hfile⟩
      cases j with
      | zero =>
        cases hd'
        exact ⟨hsettings, hrepository⟩
      | succ j => exact h.nearer j d' (Nat.lt_of_succ_lt_succ hj) hd'

theorem findFrom?_succ (t : FileTree) (fuel : Nat) (dir file : Path) :
    findFrom? t (fuel + 1) dir = some file ↔
      (t.hasEntry (dir.join fileName) = true ∧ file = dir.join fileName) ∨
        (t.hasEntry (dir.join fileName) = false ∧ t.hasEntry (dir.join repositoryName) = false ∧
          ∃ above, dir.parent? = some above ∧ findFrom? t fuel above = some file) := by
  rw [findFrom?]
  cases hsettings : t.hasEntry (dir.join fileName) with
  | true => simpa using eq_comm
  | false =>
    cases hrepository : t.hasEntry (dir.join repositoryName) with
    | true => simp
    | false => simp [Option.bind_eq_some_iff]

theorem findFrom?_eq_some_iff {fuel : Nat} (h : p.Climbs dirs) (hfuel : dirs.length ≤ fuel) :
    findFrom? t fuel p = some file ↔ ∃ i d, Nearest t dirs i d ∧ file = d.join fileName := by
  induction h generalizing fuel with
  | top hp =>
    obtain ⟨fuel, rfl⟩ := Nat.exists_eq_add_one.2 hfuel
    rw [findFrom?_succ, exists_nearest_cons, hp]
    have hnone : ¬ ∃ i d, Nearest t [] i d ∧ file = d.join fileName := fun ⟨i, d, h, _⟩ =>
      Option.some_ne_none d (h.mem.symm.trans List.getElem?_nil)
    simp [hnone]
  | up hp h ih =>
    obtain ⟨fuel, rfl⟩ := Nat.exists_eq_add_one.2 (Nat.lt_of_lt_of_le (Nat.succ_pos _) hfuel)
    rw [findFrom?_succ, exists_nearest_cons, hp, ← ih (Nat.le_of_succ_le_succ hfuel)]
    simp

/-- The settings file that is found is the one in the nearest directory, from the given one upwards,
that holds any, provided that no nearer one holds a repository. -/
theorem find?_nearest (p : Path) :
    ∃ dirs, p.Ascends dirs ∧ ∀ t file, find? t p = some file ↔
      ∃ i d, Nearest t dirs i d ∧ file = d.join fileName := by
  obtain ⟨dirs, hclimb, hascend⟩ := p.exists_climbs
  exact ⟨dirs, hascend, fun t file => findFrom?_eq_some_iff hclimb hascend.length_le⟩

end Phrasebook.Settings
