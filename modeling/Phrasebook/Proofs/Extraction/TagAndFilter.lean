import Phrasebook.Proofs.Extraction.Mentions
import Phrasebook.Proofs.Template.StmtRoundTrip

namespace Phrasebook

def Word.spelled (k : TokenKind) : Word := ⟨[' '], k.spelling, k⟩

def Tag.spelled (kind : TagKind) (ks : List TokenKind) : Tag :=
  ⟨kind, false, ks.map Word.spelled, [' '], false⟩

theorem Word.kinds_spelled (ks : List TokenKind) : kinds (ks.map spelled) = ks := by
  rw [kinds, List.map_map]
  exact List.map_id ks

theorem Tag.sound_spelled {kind : TagKind} {ks : List TokenKind}
    (hk : ∀ k ∈ ks, k.isSpellable = true) (hn : nest [] ks = some []) :
    (Tag.spelled kind ks).Sound := by
  have hblank : ∀ c ∈ [' '], isPlainBlank c = true := List.all_eq_true.1 rfl
  refine ⟨?_, ?_, List.cons_ne_nil _ _, hblank⟩
  · intro w hw
    obtain ⟨k, hm, rfl⟩ := List.mem_map.1 hw
    exact ⟨TokenKind.spells_spelling (hk k hm), List.cons_ne_nil _ _, hblank⟩
  · rw [spelled, Word.kinds_spelled]
    exact hn

/-- A text that block tags beside it leave as it is. -/
structure Inert (t : List Char) : Prop where
  nonempty : t ≠ []
  unmarked : Unmarked t
  unbraced : t.getLast? ≠ some '{'
  unbroken : ∀ mark ∈ ["\n", "\r\n"], ¬ mark.toList <+: t

theorem Inert.lineBreak {t : List Char} (h : Inert t) : lineBreak t = [] := by
  apply lineBreak_eq_nil
  · rintro cs rfl
    exact h.unbroken "\r\n" (by decide) (List.prefix_append ['\r', '\n'] cs)
  · rintro cs rfl
    exact h.unbroken "\n" (by decide) (List.prefix_append ['\n'] cs)

theorem Inert.map_kind_textTokens {t : List Char} (h : Inert t) (source : List Char) {g g' : Tag}
    (ht : g.trims = false) (hd : g'.dashed = false) :
    (Layout.textTokens source (some g) (some g') t).map Token.kind =
      [.text (String.ofList t)] := by
  have hdrop : Layout.dropped (some g) t = [] := by
    rw [Layout.dropped, h.lineBreak, ite_self]
  have hkept : Layout.kept (some g) (some g') t = t := by
    simp [Layout.kept, hdrop, ht, hd]
  rw [Layout.textTokens, hkept, if_neg (by simpa using h.nonempty)]
  rfl

def Tag.trans (domain : String) : Tag := .spelled .block [.name "trans", .name "from", .str domain]

def Tag.endTrans : Tag := .spelled .block [.name "endtrans"]

def tagSource (message domain : String) : String :=
  "\x7b% trans from " ++ Mention.quoted domain ++ " %\x7d" ++ message ++ "\x7b% endtrans %\x7d"

def tagLayout (message domain : String) : Layout where
  first := []
  others := [(.trans domain, message.toList), (.endTrans, [])]

def tagStmt (message domain : String) : Stmt :=
  .trans none ⟨none, some (.constant (.str domain)), none⟩ (.text message)

theorem source_tagLayout (message domain : String) :
    (tagLayout message domain).source = (tagSource message domain).toList := by
  delta tagSource
  simp [tagLayout, Layout.source, Layout.sourceOf, Tag.trans, Tag.endTrans, Tag.spelled,
    Tag.source, Tag.opening, Tag.dash, Tag.inner, Word.source, Word.spelled, TokenKind.spelling,
    Spaced.closing, Mention.quoted, TagKind.opening, TagKind.closing]

theorem readable_trans (domain : String) : (Tag.trans domain).Readable := by
  apply Tag.Sound.readable _ rfl
  apply Tag.sound_spelled _ rfl
  intro k hk
  simp only [List.mem_cons, List.not_mem_nil, or_false] at hk
  rcases hk with rfl | rfl | rfl <;> rfl

theorem readable_endTrans : Tag.endTrans.Readable :=
  (Tag.sound_spelled (by decide) rfl).readable (by decide)

theorem tokenize_tagSource {message domain : String} (h : Inert message.toList) :
    tokenize (tagSource message domain) = .ok (tagLayout message domain).tokens := by
  have hu : ∀ u ∈ [[], message.toList, []], Unmarked u := by
    have hnil : Unmarked [] := by decide
    simp [hnil, h.unmarked]
  have hb : ∀ u ∈ [[], message.toList], u.getLast? ≠ some '{' := by
    simp [h.unbraced]
  have hg : ∀ g ∈ [Tag.trans domain, Tag.endTrans], g.Readable := by
    simp [readable_trans, readable_endTrans]
  rw [tokenize, ← source_tagLayout]
  exact Layout.sourceTokens_eq [] none [] (tagLayout message domain).others hu hb hg

theorem kinds_tagLayout {message domain : String} (h : Inert message.toList) :
    (tagLayout message domain).tokens.map Token.kind =
      (tagStmt message domain).tokens ++ [.eof] := by
  have htext : ∀ source, (Layout.textTokens source (some (.trans domain)) (some .endTrans)
      message.toList).map Token.kind = [.text message] := by
    intro source
    rw [h.map_kind_textTokens source rfl rfl, String.ofList_toList]
  simp only [tagLayout, Layout.tokens, Layout.tokensFrom, Layout.textTokens_nil, List.map_append,
    Tag.map_kind_tokens, htext]
  rfl

theorem parseTokens_statement {s : Stmt} {ts : List Token}
    (h : ts.map Token.kind = s.tokens ++ [.eof]) (hs : 1 + 3 * s.node.height ≤ maxNesting) :
    parseTokens ts = .ok (.module (.body [s.node])) := by
  have hopens : Opens ts (s.tokens ++ [.eof]) [] := ⟨ts, h, (List.append_nil ts).symm⟩
  obtain ⟨us, ht, hu⟩ := Opens.append_iff.1 hopens
  obtain ⟨line, vs, rfl, -⟩ := Opens.cons_iff.1 hu
  have hread : Yields maxNesting (statements (8 * ts.length + 7) 1 [] ts)
      (([s.node], none), ⟨.eof, line⟩ :: vs) :=
    s.readsBack ht (List.forall_mem_nil _) (by omega) hs yields_statements_eof
  exact (yields_parseTokens hread (by decide)).ok_of_le (Nat.le_refl _)

theorem parseTemplate_tagSource {message domain : String} (h : Inert message.toList) :
    parseTemplate (tagSource message domain) =
      .ok (.module (.body [(tagStmt message domain).node])) := by
  have hheight : (tagStmt message domain).node.height = 2 := rfl
  rw [parseTemplate, tokenize_tagSource h]
  apply parseTokens_statement (kinds_tagLayout h)
  rw [hheight]
  decide

def filterSource (message domain : String) : String :=
  "\x7b\x7b " ++ Mention.quoted message ++ "|trans(\x7b\x7d, " ++ Mention.quoted domain ++
    ") \x7d\x7d"

theorem parseTemplate_filterSource (message domain : String) :
    parseTemplate (filterSource message domain) = .ok (Mention.tree [⟨"", message, domain⟩]) := by
  have hsource : filterSource message domain = Mention.template [⟨"", message, domain⟩] := by
    simp [filterSource, Mention.template, Mention.source, String.join]
  rw [hsource]
  exact Mention.parseTemplate_template (by simp)

/-- The template is read, and all that is recorded is one message in one domain. -/
def RecordsOnly (options : ExtractOptions) (source message domain : String) : Prop :=
  ∃ tree, parseTemplate source = .ok tree ∧ Catalog.empty.extract options tree =
    ⟨⟨[(domain, [(message, .ofString (options.placeholder ++ message))])]⟩, false⟩

theorem recordsOnly_of_parseTemplate {options : ExtractOptions} {source message domain : String}
    {ns : List Node} (hp : parseTemplate source = .ok (.module (.body ns)))
    (hv : ∀ n ∈ ns, n.visits 2 = [(2, n)])
    (he : ns.filterMap (Node.entry? options) = [(domain, message)]) (hd : 2 ≤ options.maxDepth) :
    RecordsOnly options source message domain := by
  refine ⟨_, hp, ?_⟩
  rw [Catalog.extract_module Catalog.empty hv hd, he]
  rfl

theorem recordsOnly_tagSource {options : ExtractOptions} {message domain : String}
    (h : Inert message.toList) (hd : 2 ≤ options.maxDepth) :
    RecordsOnly options (tagSource message domain) message domain := by
  apply recordsOnly_of_parseTemplate (parseTemplate_tagSource h) _ rfl hd
  intro n hn
  rw [List.mem_singleton.1 hn, Node.visits_eq]
  rfl

theorem recordsOnly_filterSource {options : ExtractOptions} (message domain : String)
    (hd : 2 ≤ options.maxDepth) :
    RecordsOnly options (filterSource message domain) message domain := by
  apply recordsOnly_of_parseTemplate (parseTemplate_filterSource message domain)
    (fun _ => Mention.visits_of_mem_flatMap) _ hd
  rw [List.flatMap_singleton]
  exact Mention.entries_nodes options _

/-- A message that no tag beside it changes is recorded as it stands, whether it is the text of a
tag or a string in a filter, and nothing else is recorded. -/
theorem recordsOnly_tag_filter {message : String} (h : Inert message.toList) (domain : String)
    {options : ExtractOptions} (hd : 2 ≤ options.maxDepth) :
    RecordsOnly options (tagSource message domain) message domain ∧
      RecordsOnly options (filterSource message domain) message domain :=
  ⟨recordsOnly_tagSource h hd, recordsOnly_filterSource message domain hd⟩

/-- A carriage return, a dash, a brace, a quote and a backslash between two tags and in quotes. -/
theorem recordsOnly_tag_filter_quotes :
    let message := "\r-\x7b'\\"
    tagSource message "it's" =
        "\x7b% trans from 'it\\'s' %\x7d\r-\x7b'\\\x7b% endtrans %\x7d" ∧
      filterSource message "it's" =
        "\x7b\x7b '\r-\x7b\\'\\\\'|trans(\x7b\x7d, 'it\\'s') \x7d\x7d" ∧
      RecordsOnly {} (tagSource message "it's") message "it's" ∧
      RecordsOnly {} (filterSource message "it's") message "it's" := by
  intro message
  refine ⟨by decide, by decide, ?_⟩
  exact recordsOnly_tag_filter ⟨by decide, by decide, by decide, by decide⟩ "it's" (by decide)

end Phrasebook
