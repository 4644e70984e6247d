import Phrasebook.Proofs.Command.Update
import Phrasebook.Proofs.Store.Loading

namespace Phrasebook

open Store (found)

structure Store.Fresh (s : Store) (t : FileTree) (l : Location) : Prop where
  rooted : t.Rooted
  absent : t.entry? l = none
  made : (t.makeDirectories s.dir).2 = none
  locate : FileTree.locate (t.makeDirectories s.dir).1 s.dir = .ok l

namespace Store.Fresh

variable {s : Store} {t : FileTree} {l : Location}

theorem makeDirectories (h : s.Fresh t l) :
    t.makeDirectories s.dir = ((t.makeDirectories s.dir).1, none) := by
  rw [← h.made]

theorem usable (h : s.Fresh t l) (hlocale : isLocale s.locale = true) : s.Usable :=
  ⟨FileTree.text_ne_empty_of_locate h.locate, chars_of_isLocale hlocale⟩

theorem loadCatalog (h : s.Fresh t l) : loadCatalog t s.dir s.locale = .ok {} := by
  rw [Phrasebook.loadCatalog]
  cases hl : t.locate s.dir with
  | error e => rfl
  | ok k =>
    have ha := t.makeDirectories_altered (fun _ => False) s.dir
    cases (ha.locate hl).symm.trans h.locate
    simp only [h.absent]
    rfl

theorem holds (h : s.Fresh t l) (hs : s.Usable) : s.Holds (t.makeDirectories s.dir).1 l [] := by
  obtain ⟨k, hk⟩ := Store.exists_standsAt hs h.makeDirectories
  cases hk.locate.symm.trans h.locate
  constructor
  case stands => exact hk
  case names => rw [FileTree.fileNames_makeDirectories, h.rooted.fileNames_eq_nil h.absent]; rfl
  case distinct => exact List.nodup_nil
  all_goals exact List.forall_mem_nil _

end Store.Fresh

namespace UpdatePlan

variable {p : UpdatePlan} {t : FileTree} {l : Location} {es ds : List (String × Messages)}

def writable (ds : List (String × Messages)) : List (String × Messages) :=
  ds.filter fun d => isWritableDomain d.1

theorem writable_cons_of_true {d : String × Messages} (h : isWritableDomain d.1 = true) :
    writable (d :: ds) = d :: writable ds :=
  List.filter_cons_of_pos h

theorem writable_cons_of_false {d : String × Messages} (h : isWritableDomain d.1 = false) :
    writable (d :: ds) = writable ds :=
  List.filter_cons_of_neg (Bool.eq_false_iff.1 h)

theorem writeDomains_of_none (h : writable ds = []) (t : FileTree) (s : Transcript) :
    ∃ s', p.writeDomains ds t s = (t, s', none) := by
  induction ds generalizing s with
  | nil => exact ⟨s, rfl⟩
  | cons d ds ih =>
    rw [writeDomains]
    cases hd : isWritableDomain d.1 with
    | true =>
      rw [writable_cons_of_true hd] at h
      cases h
    | false =>
      rw [writable_cons_of_false hd] at h
      exact ih h _

/-- The directories that the first write makes can as well be there already. -/
theorem writeDomains_makeDirectories (hs : p.store.Usable) {t₁ : FileTree}
    (h : t.makeDirectories p.store.dir = (t₁, none)) (hne : writable ds ≠ []) (s : Transcript) :
    p.writeDomains ds t s = p.writeDomains ds t₁ s := by
  induction ds generalizing s with
  | nil => exact absurd rfl hne
  | cons d ds ih =>
    rw [writeDomains, writeDomains]
    cases hd : isWritableDomain d.1 with
    | true => simp only [Store.write_makeDirectories hs h, if_true]
    | false =>
      rw [writable_cons_of_false hd] at hne
      exact ih hne _

theorem writeDomains_holds (hs : p.store.Usable) (h : p.store.Holds t l es)
    (hnew : (Entries.keys es ++ Entries.keys ds).Nodup) (s : Transcript) :
    ∃ t' s' e, p.writeDomains ds t s = (t', s', e) ∧
      (e = none ↔ ∀ d ∈ writable ds, p.store.Fits t l d.1) ∧
      (e = none → p.store.Holds t' l ((writable ds).reverse ++ es)) := by
  -- Along the domains that are left: those behind them have their files and nothing else has.
  induction ds generalizing t es s with
  | nil => exact ⟨t, s, none, rfl, ⟨fun _ => List.forall_mem_nil _, fun _ => rfl⟩, fun _ => h⟩
  | cons d ds ih =>
    obtain ⟨d, m⟩ := d
    rw [Entries.keys_cons] at hnew
    rw [writeDomains]
    cases hd : isWritableDomain d with
    | false =>
      rw [writable_cons_of_false hd]
      exact ih h (hnew.sublist (List.Sublist.append_left (List.sublist_cons_self _ _) _)) _
    | true =>
      have hplain := isWritableDomain_iff.1 hd
      have hd' : d ∉ Entries.keys es := fun hmem =>
        (List.nodup_append.1 hnew).2.2 d hmem d List.mem_cons_self rfl
      rw [writable_cons_of_true hd]
      obtain ⟨hfit, hwrite⟩ | ⟨hfit, e, hwrite⟩ := h.write hs hplain hd' m
      · simp only [hwrite, if_true]
        have hset := h.set_file hplain hd' hfit m
        obtain ⟨t', s', e, hrest, hiff, hholds⟩ := ih hset
          (List.perm_middle.nodup_iff.1 hnew) _
        refine ⟨t', s', e, hrest, ?_, fun he => ?_⟩
        · rw [hiff, List.forall_mem_cons, and_iff_right hfit]
          -- The new file takes the place of no domain that is left.
          refine forall₂_congr fun d' hmem => Store.fits_set_file ?_ _
          have hkey : d'.1 ∈ Entries.keys ds :=
            Entries.mem_keys_of_mem (List.mem_filter.1 hmem).1
          rintro rfl
          exact (List.nodup_cons.1 (List.nodup_append.1 hnew).2.1).1 hkey
        · rw [List.reverse_cons, List.append_assoc]
          exact hholds he
      · simp only [hwrite, if_true]
        have hsome : some e ≠ none := Option.some_ne_none e
        refine ⟨t, _, some e, rfl, iff_of_false hsome fun hall => ?_, fun he => absurd he hsome⟩
        exact hfit (hall _ List.mem_cons_self)

/-- What is left of domains that were written one after the other into a directory at `l`, and what
is loaded from it. -/
structure Reloads (p : UpdatePlan) (t : FileTree) (l : Location) (ds : List (String × Messages))
    (written : FileTree × Transcript × Option WriteError) : Prop where
  complete : written.2.2 = none ↔ ∀ d ∈ writable ds,
    p.store.Fits (t.makeDirectories p.store.dir).1 l d.1
  loaded : written.2.2 = none → ∃ loaded,
    loadCatalog written.1 p.store.dir p.store.locale = .ok loaded ∧
      loaded.catalog.domains.Perm (found (writable p.merged.domains))
  apart (d d' : String) : isWritableDomain d = true → isWritableDomain d' = true →
    isMarked d = false → domainOfFile? (p.store.fileName d) p.store.locale = some d ∧
      p.store.filePath d ≠ p.store.backupPath d'

/-- Domains that are written in any order into a directory that was not there are loaded again, but
for those whose names begin as the names of backups do. -/
theorem writeDomains_reloads (p : UpdatePlan) (t : FileTree) (s : Transcript) (l : Location)
    (ds : List (String × Messages)) (hlocale : isLocale p.store.locale = true)
    (hfresh : p.store.Fresh t l) (hdistinct : Entries.Distinct p.merged.domains)
    (hds : ds.Perm p.merged.domains)
    (hvalues : ∀ d ∈ writable ds, (Value.map d.2).Distinct ∧
      Yaml.Data.read? (renderMessages d.2) = some (Value.map d.2).oneNaN.toData) :
    p.Reloads t l ds (p.writeDomains ds t s) := by
  have hs := hfresh.usable hlocale
  have hperm : (writable ds).reverse.Perm (writable p.merged.domains) :=
    (List.reverse_perm _).trans (hds.filter _)
  have hnew : (Entries.keys ([] : List (String × Messages)) ++ Entries.keys ds).Nodup :=
    (hds.map Prod.fst).nodup_iff.2 hdistinct
  obtain ⟨t', s', e, hwrite, hiff, hholds⟩ := writeDomains_holds hs (hfresh.holds hs) hnew s
  have hapart (d d' : String) (hd : isWritableDomain d = true) (hd' : isWritableDomain d' = true)
      (hm : isMarked d = false) : domainOfFile? (p.store.fileName d) p.store.locale = some d ∧
        p.store.filePath d ≠ p.store.backupPath d' := by
    have hplain := isWritableDomain_iff.1 hd
    rw [Store.domainOfFile?_fileName hplain.nonempty, hm]
    exact ⟨rfl, Store.filePath_ne_backupPath hs hplain (isWritableDomain_iff.1 hd') hm⟩
  by_cases hne : writable ds = []
  · -- Nothing is written: the directory is not made.
    obtain ⟨s'', hnone⟩ := writeDomains_of_none (p := p) hne t s
    rw [hnone]
    refine ⟨by simp [hne], fun _ => ⟨{}, hfresh.loadCatalog, ?_⟩, hapart⟩
    rw [hne] at hperm
    exact Store.found_perm hperm
  · rw [writeDomains_makeDirectories hs hfresh.makeDirectories hne, hwrite]
    refine ⟨hiff, fun he => ?_, hapart⟩
    have hfiles := hholds he
    rw [List.append_nil] at hfiles
    obtain ⟨loaded, hload, hloaded⟩ := hfiles.loadCatalog hs fun d hd =>
      hvalues d (List.mem_reverse.1 hd)
    exact ⟨loaded, hload, hloaded.trans (Store.found_perm hperm)⟩

/-- A domain that begins with a tilde is written and not loaded. -/
theorem writeDomains_reloads_marked :
    let m : Messages := [("k", .scalar (.str "v"))]
    let t : FileTree := { entries := [(["h"], .directory)], home := ["h"] }
    let p : UpdatePlan :=
      { store := ⟨⟨"tr/app"⟩, "fr"⟩
        merged := ⟨[("a", m), ("x/y", m), ("~b", m)]⟩
        complete := true }
    let ds := [("~b", m), ("x/y", m), ("a", m)]
    isLocale "fr" = true ∧ p.store.Fresh t ["h", "tr", "app"] ∧
      Entries.Distinct p.merged.domains ∧ ds.Perm p.merged.domains ∧
      (∀ d ∈ writable ds, (Value.map d.2).Distinct ∧
        Yaml.Data.read? (renderMessages d.2) = some (Value.map d.2).oneNaN.toData) ∧
      p.Reloads t ["h", "tr", "app"] ds (p.writeDomains ds t {}) ∧
      (p.writeDomains ds t {}).2.2 = none ∧
      ∃ loaded, loadCatalog (p.writeDomains ds t {}).1 ⟨"tr/app"⟩ "fr" = .ok loaded ∧
        loaded.catalog.domains = [("a", m)] := by
  intro m t p ds
  have htext : renderMessages m = "k: v\n" := by decide +kernel
  have hreads : (Value.map m).Distinct ∧
      Yaml.Data.read? (renderMessages m) = some (Value.map m).oneNaN.toData := by
    refine ⟨by simp [m, Value.Distinct, Value.DistinctEntries, Entries.Distinct, Entries.keys], ?_⟩
    rw [htext]
    decide +kernel
  have hfresh : p.store.Fresh t ["h", "tr", "app"] :=
    ⟨by decide, by decide, by decide, by decide⟩
  have hdistinct : Entries.Distinct p.merged.domains := by
    simp [p, Entries.Distinct, Entries.keys]
  have hds : ds.Perm p.merged.domains := List.reverse_perm p.merged.domains
  have hvalues : ∀ d ∈ writable ds, (Value.map d.2).Distinct ∧
      Yaml.Data.read? (renderMessages d.2) = some (Value.map d.2).oneNaN.toData := by
    intro d hd
    have hm : d.2 = m := by
      have hd := (List.mem_filter.1 hd).1
      simp only [ds, List.mem_cons, List.not_mem_nil, or_false] at hd
      obtain rfl | rfl | rfl := hd <;> rfl
    rw [hm]
    exact hreads
  have hlocale : isLocale p.store.locale = true := by decide
  have hr := writeDomains_reloads p t {} ["h", "tr", "app"] ds hlocale hfresh hdistinct hds hvalues
  have hnone : (p.writeDomains ds t {}).2.2 = none := hr.complete.2 (by decide)
  have hm : reloaded m = m := by
    rw [reloaded, htext]
    rfl
  have hfound : found (writable p.merged.domains) = [("a", reloaded m)] := by
    simp [p, found, writable, isWritableDomain, isMarked]
  obtain ⟨loaded, hload, hperm⟩ := hr.loaded hnone
  rw [hfound, hm] at hperm
  exact ⟨hlocale, hfresh, hdistinct, hds, hvalues, hr, hnone, loaded, hload,
    List.perm_singleton.1 hperm⟩

end UpdatePlan
end Phrasebook
