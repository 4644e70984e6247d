import Phrasebook.Proofs.Merge.Addition

namespace Phrasebook
namespace Value

variable {base es : Messages} {key : String} {v slot : Value}

def settled (base : Messages) (key : String) (v : Value) : Value :=
  match Entries.get? base key with
  | some slot => merge slot v
  | none => if isNumericKey key then merge null v else v

theorem mergeEntries_containers (hd : Entries.Distinct es)
    (hc : ∀ e ∈ es, e.2.isContainer = true) :
    mergeEntries base es = Entries.insertAll base (Entries.mapValues (settled base) es) := by
  apply mergeEntries_eq_insertAll (settled base) hd
  intro e he b hb
  rw [settled, ← hb]
  cases hg : Entries.get? b e.1 with
  | some slot => rw [mergeEntry_slot hg (.inr (hc e he))]
  | none =>
    cases hk : isNumericKey e.1 with
    | true => rw [mergeEntry_open hg hk (hc e he), if_pos rfl]
    | false => rw [mergeEntry_new hg hk, if_neg (by exact Bool.false_ne_true)]

/-- A leaf that meets a container goes to a place of its own, beside the names of the container. -/
theorem get?_entries_merge_scalar {s : Scalar} (hk : isNumericKey key = false) (hv : v.Distinct)
    (hg : Entries.get? v.entries key = some slot) :
    Entries.get? (merge (scalar s) v).entries key = some slot := by
  have hc : v.additions = v.entries := by
    cases v with
    | scalar t => cases hg
    | list items => rfl
    | map es => rfl
  have hn : Entries.get? (scalar s).toMessages key = none := by
    rw [toMessages]
    split
    · rfl
    · rw [Entries.get?_cons, if_neg]
      · rfl
      · rintro rfl
        rw [isNumericKey_positionKey] at hk
        cases hk
  rw [entries_merge, hc, get?_mergeEntries_new hk hv.entries hn, hg]

/-- How the messages of a domain come out of a reconciliation, with regard to names. -/
structure Reconciled (extracted persisted merged : Messages) : Prop where
  /-- The extracted keys, numeric ones too, stay first. -/
  first : Entries.keys extracted <+: Entries.keys merged
  known : ∀ k, isNumericKey k = false →
    (k ∈ Entries.keys merged ↔ k ∈ Entries.keys extracted ∨ k ∈ Entries.keys persisted)
  /-- A persisted leaf wins, and so does whatever was persisted under a name of its own. -/
  wins : ∀ k v, isNumericKey k = false → Entries.get? persisted k = some v →
    v.isContainer = false ∨ k ∉ Entries.keys extracted → Entries.get? merged k = some v
  kept : ∀ k, isNumericKey k = false → k ∉ Entries.keys persisted →
    Entries.get? merged k = Entries.get? extracted k
  /-- A persisted group stays a group, with every name in it unchanged. -/
  group : ∀ k v, isNumericKey k = false → Entries.get? persisted k = some v →
    v.isContainer = true → k ∈ Entries.keys extracted →
    ∃ w, Entries.get? merged k = some w ∧ w.isContainer = true ∧
      ∀ k' u, isNumericKey k' = false → Entries.get? v.entries k' = some u →
        Entries.get? w.entries k' = some u

theorem reconciled_new (es : Messages) : Reconciled [] es es where
  first := List.nil_prefix
  known := by simp
  wins := fun k v _ hg _ => hg
  kept := fun k _ hk => (Entries.get?_eq_none_iff es k).2 hk
  group := by simp

theorem reconciled_mergeEntries (hb : ∀ m ∈ base, m.2.isContainer = false)
    (hd : (map es).Distinct) : Reconciled base es (mergeEntries base es) where
  first := keys_prefix_mergeEntries base es
  known := by
    intro k hk
    constructor
    · intro hm
      by_cases hkb : k ∈ Entries.keys base
      · exact .inl hkb
      · have hn := (Entries.get?_eq_none_iff base k).2 hkb
        obtain ⟨v, hv⟩ := Entries.mem_keys_iff.1 hm
        rw [get?_mergeEntries_new hk hd.1 hn] at hv
        exact .inr (Entries.mem_keys_of_get? hv)
    · rintro (hm | hm)
      · exact (keys_prefix_mergeEntries base es).subset hm
      · obtain ⟨v, hv⟩ := Entries.mem_keys_iff.1 hm
        cases hg : Entries.get? base k with
        | none =>
          rw [Entries.mem_keys_iff, get?_mergeEntries_new hk hd.1 hg]
          exact ⟨v, hv⟩
        | some slot =>
          apply Entries.mem_keys_of_get?
          exact get?_mergeEntries_of_mem hd.1 (.of_name hk base es) hg hv
  wins := by
    intro k v hk hv hc
    cases hg : Entries.get? base k with
    | none => rw [get?_mergeEntries_new hk hd.1 hg, hv]
    | some slot =>
      have hs := hb _ (Entries.mem_of_get? hg)
      have hv' := hc.resolve_right fun h => h (Entries.mem_keys_of_get? hg)
      rw [get?_mergeEntries_of_mem hd.1 (.of_name hk base es) hg hv, joined_name hk hs hv']
  kept := fun k hk hm => get?_mergeEntries_of_not_mem hm (.of_name hk base es)
  group := by
    intro k v hk hv hc hm
    obtain ⟨slot, hg⟩ := Entries.mem_keys_iff.1 hm
    obtain ⟨s, rfl⟩ := isContainer_eq_false_iff.1 (hb _ (Entries.mem_of_get? hg))
    refine ⟨merge (scalar s) v, ?_, isContainer_merge _ _, ?_⟩
    · rw [get?_mergeEntries_of_mem hd.1 (.of_name hk base es) hg hv,
        joined_of_isContainer k (.inr hc)]
    · intro k' u hk' hu
      exact get?_entries_merge_scalar hk' (hd.at_key hv) hu

end Value

namespace Catalog

variable {c p : Catalog} {d : String}

def Distinct (c : Catalog) : Prop := c.toValue.Distinct

def groups (c : Catalog) : Messages := Entries.mapValues (fun _ => .map) c.domains

theorem toValue_eq (c : Catalog) : c.toValue = .map c.groups := rfl

@[simp] theorem keys_groups (c : Catalog) : Entries.keys c.groups = c.names :=
  Entries.keys_mapValues _ _

theorem get?_groups (c : Catalog) (d : String) :
    Entries.get? c.groups d = (c.domain? d).map .map :=
  Entries.get?_mapValues _ _ d

theorem isContainer_of_mem_groups {e : String × Value} (h : e ∈ c.groups) :
    e.2.isContainer = true := by
  obtain ⟨m, -, hm⟩ := Entries.mem_mapValues h
  rw [hm]
  rfl

theorem Distinct.groups (h : c.Distinct) : Entries.Distinct c.groups := h.1

theorem Distinct.domain? {m : Messages} (h : c.Distinct) (hm : c.domain? d = some m) :
    (Value.map m).Distinct := by
  apply Value.Distinct.at_key h (k := d)
  rw [toValue_eq, Value.entries_map, get?_groups, hm, Option.map_some]

theorem Distinct.messages (h : c.Distinct) (d : String) : (Value.map (c.messages d)).Distinct := by
  rw [Catalog.messages]
  cases hm : c.domain? d with
  | some m => exact h.domain? hm
  | none => exact ⟨List.nodup_nil, trivial⟩

theorem reconcile_domains (c : Catalog) (hp : Entries.Distinct p.groups) :
    (c.reconcile p).domains = Entries.mapValues (fun _ => Value.toMessages)
      (Entries.insertAll c.groups (Entries.mapValues (Value.settled c.groups) p.groups)) := by
  have hm : Value.mergeAll c.toValue [p.toValue] = Value.merge c.toValue p.toValue :=
    Value.mergeAll_singleton _ _
  have hr : Value.mergeEntries c.groups p.groups =
      Entries.insertAll c.groups (Entries.mapValues (Value.settled c.groups) p.groups) :=
    Value.mergeEntries_containers hp fun e he => isContainer_of_mem_groups he
  rw [reconcile, mergeAll, List.map_singleton, hm, toValue_eq, toValue_eq, Value.merge_map_map,
    ofValue, Value.toMessages, hr]
  rfl

theorem names_reconcile (c : Catalog) (hp : Entries.Distinct p.groups) :
    (c.reconcile p).names = c.names ++ p.names.filter fun d => !Entries.contains c.domains d := by
  have hc (d : String) : Entries.contains c.groups d = Entries.contains c.domains d := by
    rw [Entries.contains, Entries.contains, get?_groups, Option.isSome_map]
    rfl
  rw [names, reconcile_domains c hp, Entries.keys_mapValues,
    Entries.keys_insertAll (hp.mapValues _), Entries.keys_mapValues, keys_groups, keys_groups]
  simp only [hc]

/-- What the messages of a persisted domain become. A domain that was not extracted is taken over
as it is, unless its name is a numeric key. -/
def settle (c : Catalog) (d : String) (m : Messages) : Messages :=
  match c.domain? d with
  | some e => Value.mergeEntries e m
  | none => if isNumericKey d then Value.mergeEntries [] m else m

theorem toMessages_settled (c : Catalog) (d : String) (m : Messages) :
    (Value.settled c.groups d (.map m)).toMessages = c.settle d m := by
  rw [Value.settled, get?_groups, settle]
  cases c.domain? d with
  | some e => rfl
  | none =>
    cases isNumericKey d with
    | true => exact Value.toMessages_merge _ _
    | false => rfl

theorem domain?_reconcile (c : Catalog) (hp : Entries.Distinct p.groups) (d : String) :
    (c.reconcile p).domain? d = ((p.domain? d).map (c.settle d)).or (c.domain? d) := by
  rw [domain?, reconcile_domains c hp, Entries.get?_mapValues,
    Entries.get?_insertAll (hp.mapValues _), Entries.get?_mapValues, get?_groups, get?_groups]
  cases p.domain? d with
  | some m => exact congrArg some (toMessages_settled c d m)
  | none =>
    cases c.domain? d with
    | some e => rfl
    | none => rfl

/-- Every message is a leaf, as extraction records them. -/
def Flat (c : Catalog) : Prop := ∀ d ∈ c.domains, ∀ m ∈ d.2, m.2.isContainer = false

theorem Flat.messages (h : c.Flat) (d : String) : ∀ m ∈ c.messages d, m.2.isContainer = false := by
  rw [Catalog.messages]
  cases hm : c.domain? d with
  | some m => exact h _ (Entries.mem_of_get? hm)
  | none =>
    intro m hm
    cases hm

/-- Persisted translations win and nothing named is lost, in any domain. -/
theorem reconcile_reconciled (hc : c.Flat) (hp : p.Distinct) :
    (c.reconcile p).names = c.names ++ (p.names.filter fun d => !Entries.contains c.domains d) ∧
      ∀ d, Value.Reconciled (c.messages d) (p.messages d) ((c.reconcile p).messages d) := by
  refine ⟨names_reconcile c hp.groups, fun d => ?_⟩
  have hf := hc.messages d
  have hd := hp.messages d
  unfold messages at hf hd ⊢
  rw [domain?_reconcile c hp.groups]
  cases hcd : c.domain? d with
  | some e =>
    rw [hcd] at hf
    cases hpd : p.domain? d with
    | some m =>
      rw [hpd] at hd
      rw [Option.map_some, Option.some_or, Option.getD_some, settle, hcd]
      exact Value.reconciled_mergeEntries hf hd
    | none =>
      have hn : (Value.map []).Distinct := ⟨List.nodup_nil, trivial⟩
      exact Value.reconciled_mergeEntries hf hn
  | none =>
    cases hpd : p.domain? d with
    | some m =>
      rw [hpd] at hd
      rw [Option.map_some, Option.some_or, Option.getD_some, settle, hcd]
      cases isNumericKey d with
      | true => exact Value.reconciled_mergeEntries (by simp) hd
      | false => exact Value.reconciled_new m
    | none => exact Value.reconciled_new []

/-- A persisted group under an extracted name, beside a new domain whose name is a numeric key. -/
theorem reconcile_reconciled_menu :
    let c : Catalog := ⟨[("messages", [("menu", .ofString "__menu"), ("7", .ofString "__7")])]⟩
    let p : Catalog := ⟨[("404", [("lost", .null)]),
      ("messages", [("menu", .map [("home", .ofString "Accueil")]), ("7", .ofString "Sept")])]⟩
    c.Flat ∧ p.Distinct ∧ (c.reconcile p).names = ["messages", "404"] ∧
      Entries.get? ((c.reconcile p).messages "404") "lost" = some .null := by
  intro c p
  have hc : c.Flat := by
    simp only [c, Flat]
    decide
  have hp : p.Distinct := by
    simp [p, Distinct, toValue, Value.Distinct, Value.DistinctEntries, Entries.Distinct,
      Entries.keys, Value.ofString, Value.null]
  obtain ⟨hn, hr⟩ := reconcile_reconciled hc hp
  exact ⟨hc, hp, hn, (hr "404").wins "lost" .null (by decide) rfl (.inl rfl)⟩

end Catalog
end Phrasebook
