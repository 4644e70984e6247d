import Phrasebook.Extraction
import Phrasebook.Proofs.Entries

namespace Phrasebook
namespace Catalog

variable {options : ExtractOptions} {c : Catalog} {d m : String} {found : List (String × String)}

def addAll (options : ExtractOptions) (c : Catalog) (found : List (String × String)) : Catalog :=
  found.foldl
    (fun c e => c.insertIfAbsent e.1 e.2 (.ofString (options.placeholder ++ e.2))) c

def Known (c : Catalog) (d m : String) : Prop :=
  ∃ ms, c.domain? d = some ms ∧ m ∈ Entries.keys ms

theorem domain?_insertIfAbsent (c : Catalog) (d m : String) (v : Value) :
    (c.insertIfAbsent d m v).domain? d = some (Entries.insertIfAbsent (c.messages d) m v) :=
  Entries.get?_insert_self _ _ _

theorem domain?_insertIfAbsent_of_ne (c : Catalog) {d e : String} (m : String) (v : Value)
    (h : d ≠ e) : (c.insertIfAbsent d m v).domain? e = c.domain? e :=
  Entries.get?_insert_of_ne _ _ h

theorem messages_of_domain? {ms : Messages} (h : c.domain? d = some ms) : c.messages d = ms := by
  rw [messages, h, Option.getD_some]

theorem known_insertIfAbsent (c : Catalog) (d m : String) (v : Value) :
    (c.insertIfAbsent d m v).Known d m := by
  refine ⟨_, domain?_insertIfAbsent c d m v, ?_⟩
  rw [Entries.insertIfAbsent]
  split
  · next h => exact Entries.contains_eq_true_iff.1 h
  · exact Entries.mem_keys_insert.2 (.inr rfl)

theorem Known.insertIfAbsent {e k : String} (h : c.Known d m) (v : Value) :
    (c.insertIfAbsent e k v).Known d m := by
  obtain ⟨ms, hms, hm⟩ := h
  by_cases he : e = d
  · subst he
    refine ⟨_, domain?_insertIfAbsent c e k v, ?_⟩
    rw [messages_of_domain? hms, Entries.insertIfAbsent]
    split
    · exact hm
    · exact Entries.mem_keys_insert.2 (.inl hm)
  · refine ⟨ms, ?_, hm⟩
    rw [domain?_insertIfAbsent_of_ne c k v he, hms]

theorem Known.insertIfAbsent_eq (h : c.Known d m) (v : Value) : c.insertIfAbsent d m v = c := by
  obtain ⟨ms, hms, hm⟩ := h
  rw [Catalog.insertIfAbsent, messages_of_domain? hms, Entries.insertIfAbsent,
    if_pos (Entries.contains_eq_true_iff.2 hm), setDomain]
  exact congrArg Catalog.mk (Entries.insert_get? hms)

theorem addAll_cons (options : ExtractOptions) (c : Catalog) (e : String × String)
    (found : List (String × String)) :
    c.addAll options (e :: found) =
      (c.insertIfAbsent e.1 e.2 (.ofString (options.placeholder ++ e.2))).addAll options found :=
  rfl

theorem addAll_append (options : ExtractOptions) (c : Catalog) (xs ys : List (String × String)) :
    c.addAll options (xs ++ ys) = (c.addAll options xs).addAll options ys :=
  List.foldl_append

theorem Known.addAll (h : c.Known d m) (options : ExtractOptions)
    (found : List (String × String)) : (c.addAll options found).Known d m := by
  induction found generalizing c with
  | nil => exact h
  | cons e found ih => exact ih (h.insertIfAbsent _)

theorem known_addAll (c : Catalog) :
    ∀ e ∈ found, (c.addAll options found).Known e.1 e.2 := by
  induction found generalizing c with
  | nil =>
    intro e he
    cases he
  | cons f found ih =>
    intro e he
    rw [addAll_cons]
    rcases List.mem_cons.1 he with rfl | he
    · exact (known_insertIfAbsent _ _ _ _).addAll options found
    · exact ih _ e he

theorem addAll_eq_self (h : ∀ e ∈ found, c.Known e.1 e.2) : c.addAll options found = c := by
  induction found with
  | nil => rfl
  | cons e found ih =>
    rw [addAll_cons, (h e List.mem_cons_self).insertIfAbsent_eq]
    exact ih fun e he => h e (List.mem_cons_of_mem _ he)

end Catalog
end Phrasebook
