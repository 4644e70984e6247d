import Phrasebook.Proofs.Loose
import Phrasebook.Proofs.Merge.Reconciliation
import Phrasebook.Proofs.Merge.Replay

namespace Phrasebook
namespace Value

variable {base es : Messages} {k : String} {slot : Value} {s : Scalar}

def taken (base : Messages) (k : String) (v : Value) : Value :=
  match Entries.get? base k with
  | some slot => joined k slot v
  | none => v

theorem taken_new (hg : Entries.get? base k = none) (v : Value) : taken base k v = v := by
  rw [taken, hg]

theorem taken_slot (hg : Entries.get? base k = some slot) (v : Value) :
    taken base k v = joined k slot v := by
  rw [taken, hg]

theorem mergeEntry_name (hk : isNumericKey k = false) (base : Messages) (v : Value) :
    mergeEntry base k v (fun slot => merge slot v) = Entries.insert base k (taken base k v) := by
  cases hg : Entries.get? base k with
  | none => rw [taken_new hg, mergeEntry_new hg hk]
  | some slot =>
    rw [taken_slot hg]
    by_cases hc : slot.isContainer = true ∨ v.isContainer = true
    · rw [mergeEntry_slot hg hc, joined_of_isContainer k hc]
    · rw [not_or, Bool.not_eq_true, Bool.not_eq_true] at hc
      rw [joined_name hk hc.1 hc.2]
      obtain ⟨s, rfl⟩ := isContainer_eq_false_iff.1 hc.2
      rw [mergeEntry_set hg hc.1 hk]

theorem mergeEntries_names (hd : Entries.Distinct es)
    (hk : ∀ k ∈ Entries.keys es, isNumericKey k = false) (base : Messages) :
    mergeEntries base es = Entries.insertAll base (Entries.mapValues (taken base) es) := by
  apply mergeEntries_eq_insertAll (taken base) hd
  intro e he b hb
  rw [mergeEntry_name (hk _ (Entries.mem_keys_of_mem he)), taken, taken, hb]

theorem append_self (h : Entries.get? base k = some (scalar s)) (hs : s.looselyEqual s = true) :
    append base s = base := by
  rw [append, if_pos]
  rw [List.any_eq_true]
  exact ⟨scalar s, List.mem_map.2 ⟨_, Entries.mem_of_get? h, rfl⟩, hs⟩

theorem mergeEntry_ofString {b : Messages} {t : String}
    (hg : Entries.get? b k = some (ofString t)) :
    mergeEntry b k (ofString t) (fun slot => merge slot (ofString t)) =
      Entries.insert b k (ofString t) := by
  rw [Entries.insert_get? hg]
  cases hk : isNumericKey k with
  | true =>
    have hs : ∀ slot, Entries.get? b k = some slot → slot.isContainer = false := by
      intro slot h
      cases hg.symm.trans h
      rfl
    rw [ofString, mergeEntry_item hk hs, append_self hg (Scalar.looselyEqual_str_self t)]
  | false => rw [ofString, mergeEntry_set hg rfl hk, ← ofString, Entries.insert_get? hg]

/-- What took the place of a text placeholder takes it again unchanged. -/
theorem mergeEntry_taken {b : Messages} {v : Value} {t : String} (hv : v.Named) (hd : v.Distinct)
    (hk : isNumericKey k = false) (hg : Entries.get? b k = some (ofString t)) :
    mergeEntry b k (joined k (ofString t) v) (fun slot => merge slot (joined k (ofString t) v)) =
      Entries.insert b k (joined k (ofString t) v) := by
  rw [mergeEntry_name hk, taken_slot hg]
  cases hc : v.isContainer with
  | false =>
    have hj : joined k (ofString t) v = v := joined_name hk rfl hc
    rw [hj, hj]
  | true =>
    have hm := isContainer_merge (ofString t) v
    rw [joined_of_isContainer k (.inr hc), joined_of_isContainer k (.inr hm), ofString,
      merge_scalar_merge_scalar (Scalar.looselyEqual_str_self t) hv hd hc]

theorem mergeEntries_mergeEntries (hb : ∀ m ∈ base, ∃ t, m.2 = ofString t)
    (hbd : Entries.Distinct base) (hn : (map es).Named) (hd : (map es).Distinct) :
    mergeEntries base (mergeEntries base es) = mergeEntries base es := by
  have hk := hn.here
  have he := mergeEntries_names hd.1 hk base
  have hr : Entries.Distinct (mergeEntries base es) := distinct_mergeEntries hbd es
  have hself : Entries.mapValues (fun _ w => w) (mergeEntries base es) = mergeEntries base es :=
    List.map_id _
  -- it is enough that every step sets an entry to what it is
  suffices h : ∀ e ∈ mergeEntries base es, ∀ b, Entries.get? b e.1 = Entries.get? base e.1 →
      mergeEntry b e.1 e.2 (fun slot => merge slot e.2) = Entries.insert b e.1 e.2 by
    rw [mergeEntries_eq_insertAll (fun _ w => w) hr h, hself]
    exact Entries.insertAll_of_keys_prefix hr (keys_prefix_mergeEntries base es)
  intro e hm b hbe
  obtain ⟨k, w⟩ := e
  have hw := hr.get? hm
  rw [he, Entries.get?_insertAll (hd.1.mapValues _), Entries.get?_mapValues] at hw
  cases hgb : Entries.get? base k with
  | none =>
    rw [hgb] at hbe hw
    cases hge : Entries.get? es k with
    | none =>
      rw [hge] at hw
      cases hw
    | some v => exact mergeEntry_new hbe (hk k (Entries.mem_keys_of_get? hge))
  | some slot =>
    obtain ⟨t, rfl⟩ : ∃ t, slot = ofString t := hb _ (Entries.mem_of_get? hgb)
    rw [hgb] at hbe hw
    cases hge : Entries.get? es k with
    | some v =>
      have hkn := hk k (Entries.mem_keys_of_get? hge)
      rw [hge, Option.map_some, Option.some_or, Option.some.injEq, taken_slot hgb] at hw
      subst hw
      exact mergeEntry_taken (hn.get? hge) (hd.at_key hge) hkn hbe
    | none =>
      rw [hge, Option.map_none, Option.none_or, Option.some.injEq] at hw
      subst hw
      exact mergeEntry_ofString hbe

end Value

namespace Catalog

variable {c p : Catalog}

/-- Every message is a text, as extraction records them. -/
def Textual (c : Catalog) : Prop := ∀ d ∈ c.domains, ∀ m ∈ d.2, ∃ t, m.2 = .ofString t

/-- No map inside a domain has a numeric key, at any depth. -/
def Named (c : Catalog) : Prop := ∀ d ∈ c.domains, (Value.map d.2).Named

theorem distinct_reconcile (hc : Entries.Distinct c.groups) (hp : Entries.Distinct p.groups) :
    Entries.Distinct (c.reconcile p).groups := by
  rw [Entries.Distinct, keys_groups, names, reconcile_domains c hp, Entries.keys_mapValues]
  exact hc.insertAll _

theorem settle_settle (hc : c.Distinct) (ht : c.Textual) (d : String) {m : Messages}
    (hn : (Value.map m).Named) (hd : (Value.map m).Distinct) :
    c.settle d (c.settle d m) = c.settle d m := by
  unfold settle
  cases he : c.domain? d with
  | some e =>
    have hte := ht _ (Entries.mem_of_get? he)
    exact Value.mergeEntries_mergeEntries hte (hc.domain? he).1 hn hd
  | none =>
    cases isNumericKey d with
    | true =>
      have hnil : ∀ m ∈ ([] : Messages), ∃ t, m.2 = .ofString t := by simp
      exact Value.mergeEntries_mergeEntries hnil List.nodup_nil hn hd
    | false => rfl

theorem settle_own (hc : c.Distinct) (ht : c.Textual) {d : String} {e : Messages}
    (he : c.domain? d = some e) : c.settle d e = e := by
  have hn : (Value.map []).Named := by simp [Value.Named]
  have hs := settle_settle hc ht d hn ⟨List.nodup_nil, trivial⟩
  have hnil : c.settle d [] = e := by
    rw [settle, he]
    exact Value.mergeEntries_nil e
  rw [hnil] at hs
  exact hs

theorem reconcile_eq_self (hp : Entries.Distinct p.groups) (hk : c.names <+: p.names)
    (hm : ∀ d m, p.domain? d = some m → c.settle d m = m) : c.reconcile p = p := by
  have hpre : Entries.keys c.groups <+:
      Entries.keys (Entries.mapValues (Value.settled c.groups) p.groups) := by
    rw [Entries.keys_mapValues, keys_groups, keys_groups]
    exact hk
  have hs : (c.reconcile p).domains = p.domains := by
    rw [reconcile_domains c hp, Entries.insertAll_of_keys_prefix (hp.mapValues _) hpre]
    apply ((hp.mapValues _).mapValues _).ext
    · rw [Entries.keys_mapValues, Entries.keys_mapValues, keys_groups, names]
    · intro d hd
      rw [Entries.get?_mapValues, Entries.get?_mapValues, get?_groups, domain?]
      cases hg : Entries.get? p.domains d with
      | none => rfl
      | some m => exact congrArg some ((toMessages_settled c d m).trans (hm d m hg))
  exact congrArg Catalog.mk hs

/-- A second update changes nothing. -/
theorem reconcile_reconcile (hc : c.Distinct) (ht : c.Textual) (hp : p.Distinct) (hn : p.Named) :
    c.reconcile (c.reconcile p) = c.reconcile p := by
  apply reconcile_eq_self (distinct_reconcile hc.groups hp.groups)
  · rw [names_reconcile c hp.groups]
    exact List.prefix_append _ _
  · intro d m hm
    rw [domain?_reconcile c hp.groups] at hm
    cases hq : p.domain? d with
    | some q =>
      rw [hq, Option.map_some, Option.some_or, Option.some.injEq] at hm
      subst hm
      exact settle_settle hc ht d (hn _ (Entries.mem_of_get? hq)) (hp.domain? hq)
    | none =>
      rw [hq, Option.map_none, Option.none_or] at hm
      exact settle_own hc ht hm

/-- A list with a gap under a placeholder, beside a domain whose name is a numeric key. -/
theorem reconcile_reconcile_menu :
    let c : Catalog := ⟨[("messages", [("menu", .ofString "__menu"), ("7", .ofString "__7")])]⟩
    let p : Catalog := ⟨[("404", [("lost", .null)]),
      ("messages", [("menu", .list [.map [("home", .ofString "Accueil")], .null, .list []])])]⟩
    c.Distinct ∧ c.Textual ∧ p.Distinct ∧ p.Named ∧
      c.reconcile (c.reconcile p) = c.reconcile p := by
  intro c p
  have hc : c.Distinct := by
    simp [c, Distinct, toValue, Value.Distinct, Value.DistinctEntries, Entries.Distinct,
      Entries.keys, Value.ofString]
  have ht : c.Textual := by
    simp only [c, Textual, List.forall_mem_cons, List.not_mem_nil, false_implies, implies_true,
      and_true]
    exact ⟨⟨_, rfl⟩, ⟨_, rfl⟩⟩
  have hp : p.Distinct := by
    simp [p, Distinct, toValue, Value.Distinct, Value.DistinctEntries, Value.DistinctItems,
      Entries.Distinct, Entries.keys, Value.ofString, Value.null]
  have hn : p.Named := by
    simp only [p, Named, Value.Named, Value.ofString, Value.null, Value.everywhere_map,
      Value.everywhere_list, Value.everywhere_scalar, List.forall_mem_cons, List.not_mem_nil,
      false_implies, implies_true, and_true]
    decide
  exact ⟨hc, ht, hp, hn, reconcile_reconcile hc ht hp hn⟩

end Catalog
end Phrasebook
