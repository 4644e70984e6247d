import Phrasebook.Proofs.Command.Update
import Phrasebook.Proofs.Files.Listing
import Phrasebook.Proofs.Store.EmptyLines
import Phrasebook.Proofs.Store.Loading

namespace Phrasebook

variable {t t' : FileTree} {dir : Path} {locale locale' name domain domain' : String}
  {names domains rest more : List String} {loaded : Loaded} {m : Messages}
  {e : CatalogError}

theorem NamesDomain.eq_of_append (h : NamesDomain locale name domain)
    (h' : name = domain' ++ fileSuffix locale "yml" ∨ name = domain' ++ fileSuffix locale "yaml") :
    domain' = domain := by
  obtain hf | hf := h.file <;> obtain hf' | hf' := h' <;> rw [hf] at hf'
  · exact (String.append_left_inj _).1 hf'.symm
  · exact absurd hf' (append_yml_ne_append_yaml _ _ _ _)
  · exact absurd hf'.symm (append_yml_ne_append_yaml _ _ _ _)
  · exact (String.append_left_inj _).1 hf'.symm

theorem splitAt_append_fileSuffix {ext : String} (hl : '.' ∉ locale.toList)
    (he : '.' ∉ ext.toList) (front : String) :
    splitAt (· == '.') (front ++ fileSuffix locale ext).toList =
      splitAt (· == '.') front.toList ++ [locale.toList, ext.toList] := by
  have hnone {s : String} (hs : '.' ∉ s.toList) : ∀ c ∈ s.toList, (c == '.') = false :=
    fun c hc => beq_eq_false_iff_ne.2 fun h => hs (h ▸ hc)
  rw [toList_append_fileSuffix, List.append_assoc, List.cons_append, splitAt_append_cons rfl,
    splitAt_append_cons rfl, splitAt_of_forall (hnone hl), splitAt_of_forall (hnone he)]
  rfl

theorem NamesDomain.exists_ending (h : NamesDomain locale name domain) :
    ∃ ext, '.' ∉ ext.toList ∧ name = domain ++ fileSuffix locale ext := by
  obtain hf | hf := h.file
  · exact ⟨"yml", by decide, hf⟩
  · exact ⟨"yaml", by decide, hf⟩

theorem NamesDomain.unique (hl : isLocale locale = true) (hl' : isLocale locale' = true)
    (h : NamesDomain locale name domain) (h' : NamesDomain locale' name domain') :
    domain' = domain ∧ locale' = locale := by
  obtain ⟨ext, he, hf⟩ := h.exists_ending
  obtain ⟨ext', he', hf'⟩ := h'.exists_ending
  have hparts := splitAt_append_fileSuffix (dot_not_mem_of_isLocale hl) he domain
  rw [← hf, hf', splitAt_append_fileSuffix (dot_not_mem_of_isLocale hl') he' domain'] at hparts
  have hlast := (List.append_inj' hparts rfl).2
  have hlocale : locale' = locale := String.toList_inj.1 (List.cons.inj hlast).1
  subst hlocale
  exact ⟨h.eq_of_append h'.file, rfl⟩

/-- Of the two files of a domain the one with the longer ending comes first. -/
theorem bytesLt_fileSuffix (front locale : String) :
    BytesLt (front ++ fileSuffix locale "yaml") (front ++ fileSuffix locale "yml") := by
  rw [bytesLt_iff]
  show List.Lex (· < ·) _ _
  rw [toList_append_fileSuffix, toList_append_fileSuffix]
  have hend : List.Lex (· < ·) ('.' :: "yaml".toList) ('.' :: "yml".toList) := by decide
  exact hend.append_left _ _

/-- The messages of a domain with two files: those of the second one are merged into those of the
first. With a single file they are those of that one. -/
def together (first second : Option Messages) : Option Messages :=
  match first, second with
  | none, m => m
  | some m, none => some m
  | some m, some m' => some ((Value.map m).mergeAll [.map m']).toMessages

/-- The messages of a file, if it is among those of the given names. -/
def held (t : FileTree) (dir : Path) (names : List String) (name : String) : Option Messages :=
  if name ∈ names then (readMessages t (dir.join name)).toOption else none

theorem held_of_not_mem (h : name ∉ names) : held t dir names name = none := if_neg h

theorem held_concat_self (hread : readMessages t (dir.join name) = .ok m) :
    held t dir (names ++ [name]) name = some m := by
  rw [held, if_pos (by simp), hread]
  rfl

theorem held_concat_of_ne {other : String} (h : other ≠ name) :
    held t dir (names ++ [name]) other = held t dir names other := by
  rw [held, held]
  simp [h]

/-- What has been loaded from files of the given names, which stand for the given domains. -/
structure LoadedFrom (t : FileTree) (dir : Path) (locale : String) (names domains : List String)
    (loaded : Loaded) : Prop where
  files : loaded.files = names.map dir.join
  order : loaded.catalog.names = domains.eraseDups
  messages (domain : String) : loaded.catalog.domain? domain =
    together (held t dir names (domain ++ fileSuffix locale "yaml"))
      (held t dir names (domain ++ fileSuffix locale "yml"))

theorem LoadedFrom.empty (t : FileTree) (dir : Path) (locale : String) :
    LoadedFrom t dir locale [] [] {} :=
  ⟨rfl, rfl, fun _ => rfl⟩

theorem domain?_add (loaded : Loaded) (domain : String) (path : Path) (m : Messages)
    (d : String) : (loaded.add domain path m).catalog.domain? d =
      if d = domain then together (loaded.catalog.domain? domain) (some m)
      else loaded.catalog.domain? d := by
  rw [Loaded.add, Catalog.domain?, Catalog.setDomain, Entries.get?_insert]
  refine if_congr eq_comm ?_ rfl
  cases loaded.catalog.domain? domain <;> rfl

theorem together_concat (hname : NamesDomain locale name domain)
    (hlast : ∀ n ∈ names, BytesLt n name) (hread : readMessages t (dir.join name) = .ok m) :
    together (held t dir (names ++ [name]) (domain ++ fileSuffix locale "yaml"))
        (held t dir (names ++ [name]) (domain ++ fileSuffix locale "yml")) =
      together (together (held t dir names (domain ++ fileSuffix locale "yaml"))
        (held t dir names (domain ++ fileSuffix locale "yml"))) (some m) := by
  have hne := append_yml_ne_append_yaml domain domain locale locale
  have hnew : name ∉ names := fun hmem => (hlast name hmem).asymm (hlast name hmem)
  obtain rfl | rfl := hname.file
  · -- The other file of the domain, if there is one, has been read.
    rw [held_concat_self hread, held_concat_of_ne hne.symm, held_of_not_mem hnew]
    cases held t dir names (domain ++ fileSuffix locale "yaml") <;> rfl
  · -- The other file of the domain, if there is one, comes later.
    have hlater : domain ++ fileSuffix locale "yml" ∉ names := fun hmem =>
      (bytesLt_fileSuffix domain locale).asymm (hlast _ hmem)
    rw [held_concat_self hread, held_concat_of_ne hne, held_of_not_mem hnew,
      held_of_not_mem hlater]
    rfl

theorem LoadedFrom.add (h : LoadedFrom t dir locale names domains loaded)
    (hname : NamesDomain locale name domain) (hlast : ∀ n ∈ names, BytesLt n name)
    (hread : readMessages t (dir.join name) = .ok m) :
    LoadedFrom t dir locale (names ++ [name]) (domains ++ [domain])
      (loaded.add domain (dir.join name) m) := by
  constructor
  case files => rw [Loaded.add, h.files, List.map_append]; rfl
  case order =>
    have horder := h.order
    rw [Catalog.names] at horder ⊢
    rw [Loaded.add, Catalog.setDomain, Entries.keys_insert, horder, List.eraseDups_append]
    by_cases hd : domain ∈ domains
    · simp [hd, List.removeAll]
    · simp [hd, List.removeAll, List.eraseDups_cons]
  case messages =>
    intro d
    rw [domain?_add, h.messages]
    by_cases hd : d = domain
    · rw [if_pos hd, hd, together_concat hname hlast hread]
    · -- The file of one domain is no file of another.
      have hyml : d ++ fileSuffix locale "yml" ≠ name := fun hf =>
        hd (hname.eq_of_append (.inl hf.symm))
      have hyaml : d ++ fileSuffix locale "yaml" ≠ name := fun hf =>
        hd (hname.eq_of_append (.inr hf.symm))
      rw [if_neg hd, held_concat_of_ne hyml, held_concat_of_ne hyaml, h.messages]

def FailsFirst (t : FileTree) (dir : Path) (names : List String) (e : CatalogError) : Prop :=
  ∃ before name after, names = before ++ name :: after ∧
    (∀ n ∈ before, ∃ m, readMessages t (dir.join n) = .ok m) ∧
    readMessages t (dir.join name) = .error e

theorem not_failsFirst_nil : ¬ FailsFirst t dir [] e := by
  rintro ⟨before, name, after, h, -⟩
  exact List.append_ne_nil_of_right_ne_nil before (List.cons_ne_nil name after) h.symm

theorem failsFirst_cons : FailsFirst t dir (name :: names) e ↔
    readMessages t (dir.join name) = .error e ∨
      (∃ m, readMessages t (dir.join name) = .ok m) ∧ FailsFirst t dir names e := by
  constructor
  · rintro ⟨before, n, after, h, hbefore, herror⟩
    cases before with
    | nil =>
      cases h
      exact .inl herror
    | cons first before =>
      cases h
      rw [List.forall_mem_cons] at hbefore
      exact .inr ⟨hbefore.1, before, n, after, rfl, hbefore.2, herror⟩
  · rintro (herror | ⟨hread, before, n, after, rfl, hbefore, herror⟩)
    · exact ⟨[], name, names, rfl, List.forall_mem_nil _, herror⟩
    · exact ⟨name :: before, n, after, rfl, List.forall_mem_cons.2 ⟨hread, hbefore⟩, herror⟩

/-- What comes of loading files of the given names: the first error, or what all of them hold. -/
structure Loads (t : FileTree) (dir : Path) (locale : String) (names domains : List String)
    (result : Except CatalogError Loaded) : Prop where
  error (e : CatalogError) : result = .error e ↔ FailsFirst t dir names e
  ok (loaded : Loaded) : result = .ok loaded → LoadedFrom t dir locale names domains loaded

theorem loadFiles_cons (hname : NamesDomain locale name domain) :
    loadFiles t dir locale loaded (name :: names) =
      (readMessages t (dir.join name)).bind fun m =>
        loadFiles t dir locale (loaded.add domain (dir.join name) m) names := by
  rw [loadFiles, domainOfFile?_eq_some_iff.2 hname]
  rfl

theorem loadFiles_from (hrest : List.Forall₂ (NamesDomain locale) rest more)
    (h : LoadedFrom t dir locale names domains loaded)
    (hordered : (names ++ rest).Pairwise BytesLt) :
    (∀ e, loadFiles t dir locale loaded rest = .error e ↔ FailsFirst t dir rest e) ∧
      ∀ loaded', loadFiles t dir locale loaded rest = .ok loaded' →
        LoadedFrom t dir locale (names ++ rest) (domains ++ more) loaded' := by
  -- Along the files that are left: those before them are loaded.
  induction hrest generalizing names domains loaded with
  | nil =>
    refine ⟨fun e => iff_of_false nofun not_failsFirst_nil, ?_⟩
    rintro _ ⟨⟩
    rw [List.append_nil, List.append_nil]
    exact h
  | @cons name domain rest more hname _ ih =>
    rw [loadFiles_cons hname]
    cases hread : readMessages t (dir.join name) with
    | error e =>
      refine ⟨fun e' => ?_, nofun⟩
      rw [failsFirst_cons, hread]
      simp [Except.bind]
    | ok m =>
      have hlast := fun n hn =>
        (List.pairwise_append.1 hordered).2.2 n hn name List.mem_cons_self
      rw [List.append_cons names, List.append_cons domains]
      rw [List.append_cons names] at hordered
      obtain ⟨herror, hok⟩ := ih (h.add hname hlast hread) hordered
      refine ⟨fun e => (herror e).trans ?_, hok⟩
      rw [failsFirst_cons, hread]
      simp

theorem loadFiles_filter (t : FileTree) (dir : Path) (locale : String) (loaded : Loaded)
    (names : List String) : loadFiles t dir locale loaded names =
      loadFiles t dir locale loaded (names.filter fun n => (domainOfFile? n locale).isSome) := by
  induction names generalizing loaded with
  | nil => rfl
  | cons name names ih =>
    cases hd : domainOfFile? name locale with
    | none =>
      rw [List.filter_cons_of_neg (by simp [hd]), loadFiles, hd]
      exact ih loaded
    | some domain =>
      rw [List.filter_cons_of_pos (by simp [hd]), loadFiles, loadFiles, hd]
      simp only [ih]

theorem loadFiles_congr (h : ∀ p, readMessages t' p = readMessages t p) (dir : Path)
    (locale : String) (loaded : Loaded) (names : List String) :
    loadFiles t' dir locale loaded names = loadFiles t dir locale loaded names := by
  induction names generalizing loaded with
  | nil => rfl
  | cons name names ih => simp only [loadFiles, h, ih]

/-- The regular files right inside a directory, in the order of the bytes of their names. -/
structure Listing (t : FileTree) (dir : Path) (names : List String) : Prop where
  mem (name : String) : name ∈ names ↔ ∃ l c, t.locate dir = .ok l ∧
    t.entry? l = some .directory ∧ t.entry? (l ++ [name]) = some (.file c)
  ordered : names.Pairwise BytesLt

theorem exists_listing (h : t.Sound) (dir : Path) (locale : String) :
    ∃ names, Listing t dir names ∧
      loadCatalog t dir locale = loadFiles t dir locale {} names := by
  by_cases hdir : ∃ l, t.locate dir = .ok l ∧ t.entry? l = some .directory
  case neg =>
    refine ⟨[], ⟨fun name => iff_of_false List.not_mem_nil ?_, .nil⟩, ?_⟩
    · rintro ⟨l, c, hl, hd, -⟩
      exact hdir ⟨l, hl, hd⟩
    · rw [loadCatalog]
      cases hl : t.locate dir with
      | error e => rfl
      | ok l => exact if_neg fun hd => hdir ⟨l, hl, hd⟩
  obtain ⟨l, hl, hd⟩ := hdir
  refine ⟨(t.fileNames l).mergeSort (· ≤ ·), ⟨fun name => ?_, ?_⟩, ?_⟩
  · rw [List.mem_mergeSort, h.mem_fileNames_iff]
    constructor
    · rintro ⟨c, hc⟩
      exact ⟨l, c, hl, hd, hc⟩
    · rintro ⟨l', c, hl', -, hc⟩
      cases hl.symm.trans hl'
      exact ⟨c, hc⟩
  · refine pairwise_mergeSort_of_nodup ?_ ?_ ?_ (h.fileNames_nodup l)
    · simpa using fun _ _ _ => String.le_trans
    · simpa using String.le_total
    · intro a b hab hne
      refine .of_lt (String.not_le.1 fun hba => hne ?_)
      exact String.le_antisymm (of_decide_eq_true hab) hba
  · rw [loadCatalog, hl]
    exact if_pos hd

/-- The catalog files of a locale in a directory, in the order of the bytes of their names, with the
domains that they stand for. -/
structure CatalogFiles (t : FileTree) (dir : Path) (locale : String)
    (names domains : List String) : Prop where
  mem (name : String) : name ∈ names ↔ ∃ l c domain, t.locate dir = .ok l ∧
    t.entry? l = some .directory ∧ t.entry? (l ++ [name]) = some (.file c) ∧
    NamesDomain locale name domain
  ordered : names.Pairwise BytesLt
  domains : List.Forall₂ (NamesDomain locale) names domains
  located (name : String) (l : Location) : name ∈ names → t.locate dir = .ok l →
    t.locate (dir.join name) = .ok (l ++ [name])

theorem forall₂_namesDomain (locale : String) (names : List String) :
    List.Forall₂ (NamesDomain locale) (names.filter fun n => (domainOfFile? n locale).isSome)
      (names.filterMap (domainOfFile? · locale)) := by
  induction names with
  | nil => exact .nil
  | cons name names ih =>
    cases hd : domainOfFile? name locale with
    | none =>
      rw [List.filter_cons_of_neg (by simp [hd]), List.filterMap_cons, hd]
      exact ih
    | some domain =>
      rw [List.filter_cons_of_pos (by simp [hd]), List.filterMap_cons, hd]
      exact .cons (domainOfFile?_eq_some_iff.1 hd) ih

theorem Listing.catalogFiles (h : Listing t dir names) (hs : t.Sound) (locale : String) :
    CatalogFiles t dir locale (names.filter fun n => (domainOfFile? n locale).isSome)
      (names.filterMap (domainOfFile? · locale)) := by
  have hmem (name : String) :
      name ∈ (names.filter fun n => (domainOfFile? n locale).isSome) ↔
        ∃ l c domain, t.locate dir = .ok l ∧ t.entry? l = some .directory ∧
          t.entry? (l ++ [name]) = some (.file c) ∧ NamesDomain locale name domain := by
    rw [List.mem_filter, h.mem, Option.isSome_iff_exists]
    simp only [domainOfFile?_eq_some_iff]
    constructor
    · rintro ⟨⟨l, c, hl, hd, hc⟩, domain, hdomain⟩
      exact ⟨l, c, domain, hl, hd, hc, hdomain⟩
    · rintro ⟨l, c, domain, hl, hd, hc, hdomain⟩
      exact ⟨⟨l, c, hl, hd, hc⟩, domain, hdomain⟩
  refine ⟨hmem, h.ordered.filter _, forall₂_namesDomain locale names, fun name l hname hl => ?_⟩
  obtain ⟨l', c, -, hl', hd, hc, -⟩ := (hmem name).1 hname
  cases hl.symm.trans hl'
  obtain ⟨hentry, hsize⟩ := hs.names_of_entry? (by simp) hc name (by simp)
  rw [FileTree.locate_join hl hd hentry, if_neg (Nat.not_lt.2 hsize)]

theorem Listing.unique {names' : List String} (h : Listing t dir names)
    (h' : Listing t' dir names') (hlocate : t'.locate dir = t.locate dir)
    (hentry : ∀ l, t'.entry? l = t.entry? l) : names' = names := by
  refine eq_of_pairwise_of_mem_iff (fun a b => BytesLt.asymm) h'.ordered h.ordered fun name => ?_
  rw [h'.mem, h.mem, hlocate]
  simp only [hentry]

theorem readMessages_of_reordered (h : t.Reordered t') (hs : t.Sound) (p : Path) :
    readMessages t' p = readMessages t p := by
  rw [readMessages, readMessages, h.readText hs]

/-- A load of a directory reads exactly the files of its locale, in the order of the bytes of their
names, and comes to what they hold or ends at the first that cannot be read. The order of the
entries does not matter, and no file belongs to a second domain or locale. -/
theorem loadCatalog_exact (dir : Path) (h : t.Sound) (hlocale : isLocale locale = true) :
    (∃ names domains, CatalogFiles t dir locale names domains ∧
      Loads t dir locale names domains (loadCatalog t dir locale)) ∧
    (∀ t', t.Reordered t' → loadCatalog t' dir locale = loadCatalog t dir locale) ∧
    ∀ name domain locale' domain', isLocale locale' = true → NamesDomain locale name domain →
      NamesDomain locale' name domain' → domain' = domain ∧ locale' = locale := by
  obtain ⟨names, hlisting, hload⟩ := exists_listing h dir locale
  refine ⟨⟨_, _, hlisting.catalogFiles h locale, ?_⟩, fun t' ht => ?_, ?_⟩
  · obtain ⟨herror, hok⟩ := loadFiles_from (forall₂_namesDomain locale names)
      (.empty t dir locale) (hlisting.ordered.filter _)
    rw [hload, loadFiles_filter]
    exact ⟨herror, hok⟩
  · obtain ⟨names', hlisting', hload'⟩ := exists_listing (ht.sound h) dir locale
    rw [hload', hload, hlisting.unique hlisting' (ht.locate h dir) (ht.entry? h)]
    exact loadFiles_congr (readMessages_of_reordered ht h) dir locale {} names
  · intro name domain locale' domain' hlocale' hname hname'
    exact hname.unique hlocale hlocale' hname'

/-- Two files of one domain are merged; a backup and a file of another locale are left alone. -/
theorem loadCatalog_exact_merging :
    let file (text : String) : FileEntry := .file (.text text)
    let t : FileTree :=
      { entries := [(["tr"], .directory), (["tr", "a.fr.yaml"], file "y: z\n"),
          (["tr", "a.fr.yml"], file "k: v\n"), (["tr", "b.de.yml"], file "- x\n"),
          (["tr", "~a.fr.yml"], file "- x\n")]
        home := [] }
    let t' : FileTree := { t with entries := t.entries.reverse }
    let loaded : Loaded :=
      { catalog := ⟨[("a", [("y", .scalar (.str "z")), ("k", .scalar (.str "v"))])]⟩
        files := [⟨"tr/a.fr.yaml"⟩, ⟨"tr/a.fr.yml"⟩] }
    t.Sound ∧ isLocale "fr" = true ∧ t.Reordered t' ∧
      (∃ names domains, CatalogFiles t ⟨"tr"⟩ "fr" names domains ∧
        LoadedFrom t ⟨"tr"⟩ "fr" names domains loaded) ∧
      loadCatalog t' ⟨"tr"⟩ "fr" = .ok loaded := by
  intro file t t' loaded
  have hsound : t.Sound := by decide
  have hlocale : isLocale "fr" = true := by decide
  have hreordered : t.Reordered t' := ⟨rfl, List.reverse_perm t.entries⟩
  obtain ⟨⟨names, domains, hfiles, hloads⟩, hsame, -⟩ := loadCatalog_exact ⟨"tr"⟩ hsound hlocale
  have hyaml : readMessages t ⟨"tr/a.fr.yaml"⟩ = .ok [("y", .scalar (.str "z"))] := by
    have htext : t.readText ⟨"tr/a.fr.yaml"⟩ = .ok "y: z\n" := by decide
    have hroot : Yaml.Data.read? "y: z\n" = some (.mapping [(.string "y", .string "z")]) := by
      decide +kernel
    exact readMessages_eq_root htext hroot fun h => absurd h (by decide)
  have hyml : readMessages t ⟨"tr/a.fr.yml"⟩ = .ok [("k", .scalar (.str "v"))] := by
    have htext : t.readText ⟨"tr/a.fr.yml"⟩ = .ok "k: v\n" := by decide
    have hroot : Yaml.Data.read? "k: v\n" = some (.mapping [(.string "k", .string "v")]) := by
      decide +kernel
    exact readMessages_eq_root htext hroot fun h => absurd h (by decide)
  have hload : loadCatalog t ⟨"tr"⟩ "fr" = .ok loaded := by
    have hlocate : t.locate ⟨"tr"⟩ = .ok ["tr"] := by decide
    have hnames : t.fileNames ["tr"] = ["a.fr.yaml", "a.fr.yml", "b.de.yml", "~a.fr.yml"] := by
      decide
    have hsorted : (t.fileNames ["tr"]).mergeSort (· ≤ ·) = t.fileNames ["tr"] := by
      rw [hnames]
      exact List.mergeSort_of_pairwise (by decide)
    have hjoin1 : (Path.mk "tr").join "a.fr.yaml" = ⟨"tr/a.fr.yaml"⟩ := by decide
    have hjoin2 : (Path.mk "tr").join "a.fr.yml" = ⟨"tr/a.fr.yml"⟩ := by decide
    have hname1 : NamesDomain "fr" "a.fr.yaml" "a" := ⟨by decide, by decide, by decide⟩
    have hname2 : NamesDomain "fr" "a.fr.yml" "a" := ⟨by decide, by decide, by decide⟩
    have hother : domainOfFile? "b.de.yml" "fr" = none := by decide
    have hbackup : domainOfFile? "~a.fr.yml" "fr" = none := by decide
    have hfirst : ({} : Loaded).add "a" ⟨"tr/a.fr.yaml"⟩ [("y", .scalar (.str "z"))] =
        ⟨⟨[("a", [("y", .scalar (.str "z"))])]⟩, [⟨"tr/a.fr.yaml"⟩]⟩ := rfl
    have hsecond : (Loaded.mk ⟨[("a", [("y", .scalar (.str "z"))])]⟩ [⟨"tr/a.fr.yaml"⟩]).add "a"
        ⟨"tr/a.fr.yml"⟩ [("k", .scalar (.str "v"))] = loaded := rfl
    rw [loadCatalog, hlocate]
    show loadFiles t ⟨"tr"⟩ "fr" {} ((t.fileNames ["tr"]).mergeSort (· ≤ ·)) = _
    rw [hsorted, hnames, loadFiles_cons hname1, hjoin1, hyaml]
    simp only [Except.bind]
    rw [hfirst, loadFiles_cons hname2, hjoin2, hyml]
    simp only [Except.bind]
    rw [hsecond]
    simp only [loadFiles, hother, hbackup]
  exact ⟨hsound, hlocale, hreordered, ⟨names, domains, hfiles, hloads.ok loaded hload⟩,
    (hsame t' hreordered).trans hload⟩

end Phrasebook
