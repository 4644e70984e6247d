import Phrasebook.Command.Update
import Phrasebook.Proofs.Extraction.Harvest
import Phrasebook.Proofs.Store.Writing

namespace Phrasebook

theorem isAlphanum_of_isLocale {locale : String} (h : isLocale locale = true) :
    ∀ c ∈ locale.toList, c = '_' ∨ c = '-' ∨ c.isAlphanum = true := by
  have hparts : ∀ part ∈ splitAt (fun c => c == '_' || c == '-') locale.toList,
      ∀ c ∈ part, c.isAlphanum = true := by
    rw [isLocale] at h
    intro part hp c hc
    cases hs : splitAt (fun c => c == '_' || c == '-') locale.toList with
    | nil => exact absurd hs (splitAt_ne_nil _ _)
    | cons language parts =>
      rw [hs] at hp h
      simp only [Bool.and_eq_true, List.all_eq_true] at h
      obtain rfl | hp := List.mem_cons.1 hp
      · rw [Char.isAlphanum, h.1.2 c hc, Bool.true_or]
      · exact (h.2 part hp).2 c hc
  intro c hc
  obtain hsep | ⟨part, hp, hcp⟩ := mem_splitAt (fun c => c == '_' || c == '-') hc
  · simp only [Bool.or_eq_true, beq_iff_eq] at hsep
    exact hsep.imp_right .inl
  · exact .inr (.inr (hparts part hp c hcp))

theorem chars_of_isLocale {locale : String} (h : isLocale locale = true) :
    ∀ c ∈ locale.toList, c ≠ '/' ∧ c ≠ '\x00' := by
  intro c hc
  obtain rfl | rfl | halnum := isAlphanum_of_isLocale h c hc
  · decide
  · decide
  · constructor <;>
    · rintro rfl
      exact absurd halnum (by decide)

theorem dot_not_mem_of_isLocale {locale : String} (h : isLocale locale = true) :
    '.' ∉ locale.toList := by
  intro hc
  obtain hc | hc | hc := isAlphanum_of_isLocale h '.' hc <;> exact absurd hc (by decide)

namespace Printing

variable {α ε : Type} {b : Bool} {lines : List String} {error : String}
  {f : Unit → Printing α} {result : Except String α}

/-- A computation that comes to a result whatever has been printed before it. -/
def Gives (x : Printing α) (result : Except String α) : Prop :=
  ∀ s, ∃ s', x.run.run s = (result, s')

namespace Gives

theorem pure (a : α) : Gives (Pure.pure a) (.ok a) := fun s => ⟨s, rfl⟩

theorem say (h : Gives (f ()) result) : Gives (Printing.say lines >>= f) result :=
  fun s => h { s with out := s.out ++ lines }

theorem complain (h : Gives (f ()) result) : Gives (Printing.complain lines >>= f) result :=
  fun s => h { s with err := s.err ++ lines }

theorem complain_if (h : Gives (f ()) result) :
    Gives (if b then Printing.complain lines >>= f else f ()) result := by
  cases b with
  | false => exact h
  | true => exact complain h

theorem throw_of_true (hb : b = true) (h : Gives (f ()) result) :
    Gives (if !b then throw error >>= f else f ()) result := by
  subst hb
  exact h

theorem throw_of_false (hb : b = false) :
    Gives (if !b then throw error >>= f else f ()) (.error error) := by
  subst hb
  exact fun s => ⟨s, rfl⟩

variable {message : ε → String} {e : ε} {a : α} {β : Type} {g : α → Printing β}
  {outcome : Except String β}

theorem check_ok {x : Except ε α} (hx : x = .ok a) (h : Gives (g a) outcome) :
    Gives (check message x >>= g) outcome := by
  subst hx
  exact h

theorem check_error {x : Except ε α} (hx : x = .error e) :
    Gives (check message x >>= g) (.error (message e)) := by
  subst hx
  exact fun s => ⟨s, rfl⟩

end Gives
end Printing

namespace UpdateRequest

def translations (r : UpdateRequest) (settings : Settings) : Path :=
  (r.bundleDir settings).join settings.translationsDir

def scanned (r : UpdateRequest) (t : FileTree) (settings : Settings) : List Path :=
  settings.selection.templates t ((r.bundleDir settings).join settings.viewsDir)

def harvest (r : UpdateRequest) (t : FileTree) (settings : Settings) : Harvest :=
  Harvest.ofFiles (settings.extractOptions r.placeholder) t (r.scanned t settings)

/-- The stages of an update before it writes, with what they find. -/
structure Prepared (r : UpdateRequest) (t : FileTree) (settings : Settings) (persisted : Loaded) :
    Prop where
  locale : isLocale r.locale = true
  load : ∃ file, Settings.load t r.rootPath = .ok (settings, file)
  bundle : t.isDirectory (r.bundleDir settings) = true
  catalog : loadCatalog t (r.translations settings) r.locale = .ok persisted

def planOf (r : UpdateRequest) (t : FileTree) (settings : Settings) (persisted : Loaded) :
    UpdatePlan where
  store := { dir := r.translations settings, locale := r.locale }
  merged := (r.harvest t settings).catalog.reconcile persisted.catalog
  complete := (r.harvest t settings).errors.isEmpty

variable {r : UpdateRequest} {t : FileTree} {settings : Settings} {persisted : Loaded}

theorem Prepared.plan (h : r.Prepared t settings persisted) :
    (r.plan t).Gives (.ok (r.planOf t settings persisted)) := by
  obtain ⟨file, hs⟩ := h.load
  rw [UpdateRequest.plan]
  refine .throw_of_true h.locale (.check_ok hs (.complain_if ?_))
  refine .throw_of_true h.bundle (.complain (.say (.complain ?_)))
  exact .check_ok h.catalog (.say (.pure _))

theorem plan_of_not_prepared (h : ¬ ∃ settings persisted, r.Prepared t settings persisted) :
    ∃ message, (r.plan t).Gives (.error message) := by
  rw [UpdateRequest.plan]
  cases hl : isLocale r.locale with
  | false => exact ⟨_, .throw_of_false rfl⟩
  | true =>
    cases hs : Settings.load t r.rootPath with
    | error e => exact ⟨_, .throw_of_true rfl (.check_error rfl)⟩
    | ok loaded =>
      obtain ⟨settings, file⟩ := loaded
      cases hb : t.isDirectory (r.bundleDir settings) with
      | false =>
        exact ⟨_, .throw_of_true rfl (.check_ok rfl (.complain_if (.throw_of_false hb)))⟩
      | true =>
        cases hc : loadCatalog t (r.translations settings) r.locale with
        | error e =>
          exact ⟨_, .throw_of_true rfl (.check_ok rfl (.complain_if (.throw_of_true hb
            (.complain (.say (.complain (.check_error hc)))))))⟩
        | ok persisted => exact absurd ⟨settings, persisted, hl, ⟨file, hs⟩, hb, hc⟩ h

end UpdateRequest

def TemplateFails (t : FileTree) (options : ExtractOptions) (path : Path) : Prop :=
  (∃ e, t.readText path = .error e) ∨
    ∃ source, t.readText path = .ok source ∧
      ((∃ e, parseTemplate source = .error e) ∨
        ∃ tree, parseTemplate source = .ok tree ∧
          (Catalog.empty.extract options tree).tooDeep = true)

theorem templateFails_iff {t : FileTree} {options : ExtractOptions} {path : Path} :
    TemplateFails t options path ↔ (parseFile t path).contributes options = false := by
  rw [← Bool.not_eq_true, ParsedTemplate.contributes_iff, parseFile, TemplateFails]
  cases t.readText path with
  | error e => simp
  | ok source =>
    cases hp : parseTemplate source with
    | error e => simp [hp, Except.mapError]
    | ok tree => simp [hp, Except.mapError]

theorem errors_ofFiles_eq_nil_iff (options : ExtractOptions) (t : FileTree) (files : List Path) :
    (Harvest.ofFiles options t files).errors = [] ↔
      ∀ path ∈ files, ¬ TemplateFails t options path := by
  rw [Harvest.ofFiles, Harvest.ofParsed, Harvest.foldl_add]
  simp [templateFails_iff, ParsedTemplate.contributes]

/-- The files of plain domains, and their backups, right inside the directory of a store. -/
def Store.Own (s : Store) (t : FileTree) (domains : List String) (k : Location) : Prop :=
  ∃ l, t.locate s.dir = .ok l ∧ ∃ d ∈ domains, PlainDomain d ∧
    (k = l ++ [d ++ "." ++ s.locale ++ ".yml"] ∨ k = l ++ ["~" ++ d ++ "." ++ s.locale ++ ".yml"])

namespace Store

variable {s : Store} {t t' : FileTree} {domains domains' : List String} {d : String}
  {k l : Location} {m : Messages}

theorem Own.altered {may : Location → Prop} (h : s.Own t domains k) (ha : t.Altered may t')
    (hsub : domains ⊆ domains') : s.Own t' domains' k := by
  obtain ⟨l, hl, d, hd, hk⟩ := h
  exact ⟨l, ha.locate hl, d, hsub hd, hk⟩

theorem Wrote.own (h : s.Wrote l t t' d m) (ht : s.StandsAt t l) (hd : PlainDomain d) :
    t.Altered (s.Own t' [d]) t' := by
  refine h.altered.mono fun k hk => ⟨l, h.altered.locate ht.locate, d, List.mem_singleton_self d,
    hd, ?_⟩
  refine hk.imp ?_ ?_
  · rintro rfl
    rw [fileName_eq]
  · rintro ⟨rfl, -⟩
    rw [backupName_eq]

end Store

namespace UpdatePlan

theorem writeDomains_done (p : UpdatePlan) (hs : p.store.Usable) (ds : List (String × Messages))
    (t : FileTree) (s : Transcript) :
    ∃ t' s' e done, p.writeDomains ds t s = (t', s', e) ∧ t.Altered (p.store.Own t' done) t' ∧
      ((e = none ∧ done = (Entries.keys ds).filter isWritableDomain) ∨
        ∃ d, e.isSome = true ∧ done ++ [d] <+: (Entries.keys ds).filter isWritableDomain ∧
          s'.out.getLast? = some ("Writing " ++ p.store.fileName d)) := by
  induction ds generalizing t s with
  | nil => exact ⟨t, s, none, [], rfl, .refl _ t, .inl ⟨rfl, rfl⟩⟩
  | cons entry ds ih =>
    obtain ⟨d, m⟩ := entry
    rw [writeDomains, Entries.keys_cons]
    cases hd : isWritableDomain d with
    | false =>
      rw [List.filter_cons_of_neg (Bool.eq_false_iff.1 hd)]
      exact ih t _
    | true =>
      rw [List.filter_cons_of_pos hd]
      obtain ⟨t₁, h₁, ⟨e, hw⟩ | ⟨l, t₂, hl, hwrote, hw⟩⟩ :=
        Store.write_cases hs (isWritableDomain_iff.1 hd) t m
      · simp only [hw, if_true]
        refine ⟨t₁, _, some e, [], rfl, h₁ _, .inr ⟨d, rfl, ?_, ?_⟩⟩
        · exact List.prefix_append [d] _
        · simp
      · simp only [hw, if_true]
        obtain ⟨t', s', e, done, hrest, hdone, hend⟩ := ih t₂ _
        refine ⟨t', s', e, d :: done, hrest, ?_, ?_⟩
        · -- Own files are told by where the directory is, and there it stays.
          have hown := hwrote.own hl (isWritableDomain_iff.1 hd)
          refine ((h₁ _).trans (hown.mono fun k hk => hk.altered hdone ?_)).trans
            (hdone.mono fun k hk => hk.altered (.refl (fun _ => False) t') ?_)
          · exact List.cons_subset_cons d (List.nil_subset done)
          · exact List.subset_cons_self d done
        · refine hend.imp ?_ ?_
          · rintro ⟨he, rfl⟩
            exact ⟨he, rfl⟩
          · rintro ⟨d', he, hpre, hlast⟩
            exact ⟨d', he, List.cons_prefix_cons.2 ⟨rfl, hpre⟩, hlast⟩

end UpdatePlan

namespace UpdateRequest

variable {r : UpdateRequest} {t : FileTree} {settings : Settings} {persisted : Loaded}

theorem Prepared.usable (h : r.Prepared t settings persisted) :
    (r.planOf t settings persisted).store.Usable := by
  refine ⟨Path.text_join_ne_empty ?_ _, chars_of_isLocale h.locale⟩
  obtain ⟨l, hl, -⟩ := FileTree.isDirectory_iff.1 h.bundle
  exact FileTree.text_ne_empty_of_locate hl

/-- What a run may have done to a tree, and how it may have ended. -/
structure Footprint (r : UpdateRequest) (t : FileTree) (o : Outcome) : Prop where
  unforced : r.force = false → o.tree = t
  unprepared : (¬ ∃ settings persisted, r.Prepared t settings persisted) →
    o.tree = t ∧ ((r.force || r.dump) = true → o.status = .error)
  kept (l : Location) (c : Content) : t.entry? l = some (.file c) →
    ∃ c', o.tree.entry? l = some (.file c')
  /-- Only own files are touched, those of the domains that come before the end of the run. -/
  written (settings : Settings) (persisted : Loaded) : r.Prepared t settings persisted →
    r.force = true → ∃ done,
      t.Altered (Store.Own ⟨r.translations settings, r.locale⟩ o.tree done) o.tree ∧
      ((o.status ≠ .error ∧
          done = (r.planOf t settings persisted).merged.names.filter isWritableDomain) ∨
        (o.status = .error ∧ ∃ d,
          done ++ [d] <+: (r.planOf t settings persisted).merged.names.filter isWritableDomain ∧
          o.transcript.out.getLast? = some ("Writing " ++ d ++ "." ++ r.locale ++ ".yml")))
  status (settings : Settings) (persisted : Loaded) : r.Prepared t settings persisted →
    (r.force || r.dump) = true → o.status ≠ .error → (o.status.code = 1 ↔
      ∃ path ∈ r.scanned t settings,
        TemplateFails t (settings.extractOptions r.placeholder) path)

theorem run_of_idle (h : (r.force || r.dump) = false) (t : FileTree) : (r.run t).tree = t := by
  rw [Bool.or_eq_false_iff] at h
  rw [run, h.1, h.2]
  rfl

theorem run_of_plan {result : Except String UpdatePlan} (hact : (r.force || r.dump) = true)
    (hp : (r.plan t).Gives result) :
    ∃ s, r.run t = match result with
      | .error message => .abort t s message
      | .ok p => if r.force then p.write t s else ⟨p.status, s, t⟩ := by
  obtain ⟨s, hs⟩ := hp {}
  have hidle : (!r.force && !r.dump) = false := by rw [← Bool.not_or, hact]; rfl
  rw [run, hidle, hs]
  cases result with
  | error message => exact ⟨s, rfl⟩
  | ok p => exact ⟨_, rfl⟩

theorem run_of_not_prepared (h : ¬ ∃ settings persisted, r.Prepared t settings persisted)
    (hact : (r.force || r.dump) = true) : (r.run t).tree = t ∧ (r.run t).status = .error := by
  obtain ⟨message, hp⟩ := plan_of_not_prepared h
  obtain ⟨s, hr⟩ := run_of_plan hact hp
  rw [hr]
  exact ⟨rfl, rfl⟩

end UpdateRequest

namespace UpdatePlan

variable {p : UpdatePlan}

theorem status_ne_error (p : UpdatePlan) : p.status ≠ .error := by
  rw [status]
  split <;> exact nofun

theorem code_status : p.status.code = 1 ↔ p.complete = false := by
  rw [status]
  cases p.complete <;> decide

/-- What writing the merged messages may have done, and how it may have ended. -/
structure Written (p : UpdatePlan) (t : FileTree) (o : Outcome) (done : List String) : Prop where
  altered : t.Altered (p.store.Own o.tree done) o.tree
  ended : (o.status = p.status ∧ done = p.merged.names.filter isWritableDomain) ∨
    (o.status = .error ∧ ∃ d, done ++ [d] <+: p.merged.names.filter isWritableDomain ∧
      o.transcript.out.getLast? = some ("Writing " ++ p.store.fileName d))

theorem write_written (hs : p.store.Usable) (t : FileTree) (s : Transcript) :
    ∃ done, p.Written t (p.write t s) done := by
  obtain ⟨t', s', e, done, hw, ha, hend⟩ := p.writeDomains_done hs p.merged.domains t
    { s with out := s.out ++ ["", "Writing files..."] }
  refine ⟨done, ?_⟩
  rw [write, hw]
  cases e with
  | none =>
    obtain ⟨-, hdone⟩ | ⟨d, he, -⟩ := hend
    · exact ⟨ha, .inl ⟨rfl, hdone⟩⟩
    · cases he
  | some e =>
    obtain ⟨he, -⟩ | ⟨d, -, hd⟩ := hend
    · cases he
    · exact ⟨ha, .inr ⟨rfl, d, hd⟩⟩

end UpdatePlan

namespace UpdateRequest

variable {r : UpdateRequest} {t : FileTree}

theorem run_tree_of_unforced (h : r.force = false) (t : FileTree) : (r.run t).tree = t := by
  cases hact : r.force || r.dump with
  | false => exact run_of_idle hact t
  | true =>
    by_cases hp : ∃ settings persisted, r.Prepared t settings persisted
    · obtain ⟨settings, persisted, hp⟩ := hp
      obtain ⟨s, hr⟩ := run_of_plan hact hp.plan
      rw [hr, h]
      rfl
    · exact (run_of_not_prepared hp hact).1

theorem Prepared.written (h : r.Prepared t settings persisted) (hforce : r.force = true) :
    ∃ done, (r.planOf t settings persisted).Written t (r.run t) done := by
  obtain ⟨s, hr⟩ := run_of_plan (by rw [hforce, Bool.true_or]) h.plan
  rw [hr]
  simp only [if_pos hforce]
  exact UpdatePlan.write_written h.usable t s

theorem Prepared.status (h : r.Prepared t settings persisted)
    (hact : (r.force || r.dump) = true) (he : (r.run t).status ≠ .error) :
    (r.run t).status = (r.planOf t settings persisted).status := by
  cases hforce : r.force with
  | true =>
    obtain ⟨done, -, ⟨hs, -⟩ | ⟨hs, -⟩⟩ := h.written hforce
    · exact hs
    · exact absurd hs he
  | false =>
    obtain ⟨s, hr⟩ := run_of_plan hact h.plan
    rw [hr, hforce]
    rfl

/-- An update touches its own files only, and none if one of its stages fails. -/
theorem run_footprint (r : UpdateRequest) (t : FileTree) : r.Footprint t (r.run t) := by
  have hunprepared (h : ¬ ∃ settings persisted, r.Prepared t settings persisted) :
      (r.run t).tree = t := by
    cases hact : r.force || r.dump with
    | false => exact run_of_idle hact t
    | true => exact (run_of_not_prepared h hact).1
  constructor
  case unforced => exact fun h => run_tree_of_unforced h t
  case unprepared => exact fun h => ⟨hunprepared h, fun hact => (run_of_not_prepared h hact).2⟩
  case kept =>
    intro l c hc
    by_cases hp : ∃ settings persisted, r.Prepared t settings persisted
    · obtain ⟨settings, persisted, hp⟩ := hp
      cases hforce : r.force with
      | false => exact ⟨c, by rw [run_tree_of_unforced hforce, hc]⟩
      | true =>
        obtain ⟨done, hw⟩ := hp.written hforce
        exact hw.altered.file hc
    · exact ⟨c, by rw [hunprepared hp, hc]⟩
  case written =>
    intro settings persisted hp hforce
    obtain ⟨done, ha, hend⟩ := hp.written hforce
    refine ⟨done, ha, hend.imp ?_ ?_⟩
    · rintro ⟨hs, hd⟩
      exact ⟨hs ▸ UpdatePlan.status_ne_error _, hd⟩
    · rintro ⟨hs, d, hd, hlast⟩
      exact ⟨hs, d, hd, by rw [hlast, Store.fileName_eq]; rfl⟩
  case status =>
    intro settings persisted hp hact he
    rw [hp.status hact he, UpdatePlan.code_status]
    have herrors := errors_ofFiles_eq_nil_iff (settings.extractOptions r.placeholder) t
      (r.scanned t settings)
    rw [planOf, harvest, List.isEmpty_eq_false_iff, ne_eq, herrors]
    simp

end UpdateRequest
end Phrasebook
