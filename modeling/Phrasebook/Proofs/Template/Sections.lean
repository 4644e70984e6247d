import Phrasebook.Proofs.Extraction.Search
import Phrasebook.Proofs.Template.Layout
import Phrasebook.Proofs.Template.StatementSteps

namespace Phrasebook

def plainText (source t : List Char) : List Token :=
  if t.isEmpty then [] else [.behind source (.text (String.ofList t))]

theorem textToken_eq_plainText (source t : List Char) :
    textToken false false (1 + lineFeeds source) t = plainText source t := rfl

theorem sourceTokens_skipLineBreak {source t : List Char} (h : Unmarked t)
    (hb : lineBreak t = []) :
    sourceTokens (Resume.skipLineBreak ⟨1 + lineFeeds source, false, t⟩) =
      .ok (plainText source t ++ [.behind (source ++ t) .eof]) := by
  rw [Resume.skipLineBreak_eq]
  simp only [hb, List.length_nil, List.drop_zero]
  rw [sourceTokens_of_none (splitMarker_of_unmarked h), Token.behind_append]
  rfl

def commentMark : List Char := "\x7b#".toList

def commentEnd : List Char := "#\x7d".toList

def comment (body : List Char) : List Char := commentMark ++ (body ++ commentEnd)

theorem splitComment?_append {body : List Char} (h : ¬ commentEnd <:+: body) (rest : List Char) :
    splitComment? (body ++ (commentEnd ++ rest)) = some (body, rest) := by
  induction body with
  | nil => rfl
  | cons c body ih =>
    have hb : ¬ commentEnd <:+: body := fun hi => h (hi.trans (List.suffix_cons c body).isInfix)
    rw [List.cons_append, splitComment?.eq_def]
    split
    · next he => cases he
    · next he =>
      -- The end mark would stand in the body, or begin with the last character of it.
      cases body with
      | nil => cases he
      | cons d body =>
        cases he
        exact absurd (List.prefix_append commentEnd body).isInfix h
    · next he =>
      cases he
      rw [ih hb, Option.map_some]

theorem commentTokens_closed {body : List Char} (h : ¬ commentEnd <:+: '#' :: body)
    (hl : body.getLast? ≠ some '-') (line : Nat) (rest : List Char) :
    commentTokens line (body ++ (commentEnd ++ rest)) =
      .ok ([], Resume.skipLineBreak ⟨line + lineFeeds body, false, rest⟩) := by
  have hlast : (('#' :: body).getLast? == some '-') = false := by
    rw [beq_eq_false_iff_ne]
    cases body with
    | nil => decide
    | cons c body => rwa [List.getLast?_cons_cons]
  have hfeeds : lineFeeds ('#' :: body) = lineFeeds body := List.count_cons_of_ne (by decide)
  rw [commentTokens, ← List.cons_append, splitComment?_append h]
  simp only [hlast, hfeeds]

/-- Behind a text with a comment the source goes on as if neither stood there, except for the lines
they take up. -/
theorem sourceTokens_comment {before rest : List Char} {after : Resume} (hb : '{' ∉ before)
    (hr : rest.head? ≠ some '-')
    (hc : commentTokens (1 + lineFeeds before) rest = .ok ([], after)) :
    sourceTokens ⟨1, false, before ++ (commentMark ++ rest)⟩ =
      (sourceTokens after).map (plainText [] before ++ ·) := by
  have hl : before.getLast? ≠ some '{' := fun he => hb (List.mem_of_getLast? he)
  have hs : splitMarker (before ++ (commentMark ++ rest)) = (before, some (.comment, rest)) :=
    splitMarker_append (.of_not_mem hb) hl rfl
  have hd : takeDash rest = (false, rest) := by
    apply takeDash_of_head
    rintro c hc rfl
    exact hr hc
  have hm : markupTokens (1 + lineFeeds before) .comment rest = .ok ([], after) := hc
  rw [sourceTokens_of_some hs hm, hd]
  simp only [List.append_nil]
  rfl

/-- A comment is dropped with all that stands in it, and the texts beside it are kept as they are.
But if its body begins with a brace, the hash of its opening mark makes an end mark with that
brace: the comment is over there, and the rest of the body is source like any other. -/
theorem tokenize_comment {before body after : List Char} (hb : '{' ∉ before) (ha : '{' ∉ after)
    (hn : lineBreak after = []) (hc : ¬ commentEnd <:+: body) (hs : body.head? ≠ some '-')
    (hl : body.getLast? ≠ some '-') :
    (body.head? ≠ some '}' →
      tokenize (String.ofList (before ++ comment body ++ after)) = .ok (plainText [] before ++
        (plainText (before ++ comment body) after ++
          [.behind (before ++ comment body ++ after) .eof]))) ∧
    ∀ rest, body = '}' :: rest →
      tokenize (String.ofList (before ++ comment body ++ after)) =
        tokenize (String.ofList (before ++ comment [] ++ (rest ++ (commentEnd ++ after)))) := by
  have hsource (c t : List Char) : before ++ comment c ++ t =
      before ++ (commentMark ++ (c ++ (commentEnd ++ t))) := by
    simp only [comment, List.append_assoc]
  constructor
  · intro hbrace
    have hclosed : ¬ commentEnd <:+: '#' :: body := by
      rw [List.infix_cons_iff, not_or]
      refine ⟨?_, hc⟩
      rintro ⟨t, ht⟩
      exact hbrace ((List.cons.inj ht).2 ▸ rfl)
    have hhead : (body ++ (commentEnd ++ after)).head? ≠ some '-' := by
      cases body with
      | nil => rintro ⟨⟩
      | cons c body => exact hs
    have hfeeds : 1 + lineFeeds before + lineFeeds body =
        1 + lineFeeds (before ++ comment body) := by
      have hmark : lineFeeds commentMark = 0 := rfl
      have hend : lineFeeds commentEnd = 0 := rfl
      simp only [comment, lineFeeds_append, hmark, hend]
      omega
    have htokens := commentTokens_closed hclosed hl (1 + lineFeeds before) after
    rw [hfeeds] at htokens
    rw [tokenize, String.toList_ofList, hsource, sourceTokens_comment hb hhead htokens,
      sourceTokens_skipLineBreak (.of_not_mem ha) hn]
    rw [← hsource]
    rfl
  · rintro rest rfl
    -- Both comments are over before the rest of the body, on the line where they begin.
    have hbrace : commentTokens (1 + lineFeeds before) ('}' :: (rest ++ (commentEnd ++ after))) =
        .ok ([], Resume.skipLineBreak
          ⟨1 + lineFeeds before, false, rest ++ (commentEnd ++ after)⟩) := rfl
    have hempty : commentTokens (1 + lineFeeds before)
          (commentEnd ++ (rest ++ (commentEnd ++ after))) =
        .ok ([], Resume.skipLineBreak
          ⟨1 + lineFeeds before, false, rest ++ (commentEnd ++ after)⟩) := rfl
    simp only [tokenize, String.toList_ofList, hsource, List.cons_append, List.nil_append]
    rw [sourceTokens_comment hb (by rintro ⟨⟩) hbrace,
      sourceTokens_comment hb (by rintro ⟨⟩) hempty]

/-- A comment with a print and hashes in it, and one that its own opening mark ends. -/
theorem tokenize_comment_braces :
    let body := " \x7b\x7b 'x'|trans\n#\x7b #".toList
    let source := "Dear\n".toList ++ comment body ++ " you".toList
    source = "Dear\n\x7b# \x7b\x7b 'x'|trans\n#\x7b ##\x7d you".toList ∧
      tokenize (String.ofList source) =
        .ok [⟨.text "Dear\n", 1⟩, ⟨.text " you", 3⟩, ⟨.eof, 3⟩] ∧
      tokenize (String.ofList ("a".toList ++ comment "\x7d b".toList ++ [])) =
        tokenize (String.ofList ("a".toList ++ comment [] ++ (" b".toList ++ commentEnd))) := by
  intro body source
  refine ⟨by decide, ?_, ?_⟩
  · exact (@tokenize_comment "Dear\n".toList body " you".toList (by decide) (by decide) rfl
      (by decide +kernel) (by decide) (by decide)).1 (by decide)
  · exact (tokenize_comment (by decide) (by decide) rfl (by decide) (by decide) (by decide)).2
      " b".toList rfl

def Tag.ofWord (word : String) (dashed trims : Bool) (before after : List Char) : Tag :=
  ⟨.block, dashed, [⟨before, word.toList, .name word⟩], after, trims⟩

/-- The end tags of verbatim sections, with or without dashes and with any blanks beside the
name. -/
def IsVerbatimEnd (t : List Char) : Prop :=
  ∃ word ∈ ["endverbatim", "endraw"], ∃ dashed trims before after,
    (∀ c ∈ before ++ after, isBlank c = true) ∧
      t = (Tag.ofWord word dashed trims before after).source

theorem Tag.source_ofWord (word : String) (dashed trims : Bool) (before after : List Char) :
    (Tag.ofWord word dashed trims before after).source = '{' :: '%' :: (Tag.dash dashed ++
      (before ++ (word.toList ++ (after ++ Spaced.closing .block trims)))) := by
  simp [ofWord, source, opening, inner, Word.source, TagKind.opening]

theorem IsVerbatimEnd.exists_cons {t : List Char} (h : IsVerbatimEnd t) :
    ∃ t', t = '{' :: t' ∧ '{' ∉ t' := by
  obtain ⟨word, hw, dashed, trims, before, after, hb, rfl⟩ := h
  refine ⟨_, Tag.source_ofWord .., ?_⟩
  have hblank : '{' ∉ before ++ after := fun hm => by cases hb _ hm
  have hword : '{' ∉ word.toList := by
    simp only [List.mem_cons, List.not_mem_nil, or_false] at hw
    rcases hw with rfl | rfl <;> decide
  have hdash : ∀ b, '{' ∉ Tag.dash b := by decide
  have hclosing : ∀ b, '{' ∉ Spaced.closing .block b := by decide
  rw [List.mem_append, not_or] at hblank
  simp only [List.mem_cons, List.mem_append, not_or]
  exact ⟨by decide, hdash _, hblank.1, hword, hblank.2, hclosing _⟩

theorem not_infix_of_words {content : List Char}
    (h : ∀ word ∈ ["endverbatim", "endraw"], ¬ word.toList <:+: content) :
    ∀ t, IsVerbatimEnd t → ¬ t <:+: content := by
  rintro t ⟨word, hw, dashed, trims, before, after, -, rfl⟩ ht
  refine h word hw (List.IsInfix.trans ?_ ht)
  refine ⟨'{' :: '%' :: (Tag.dash dashed ++ before), after ++ Spaced.closing .block trims, ?_⟩
  rw [Tag.source_ofWord]
  simp only [List.cons_append, List.append_assoc]

theorem dash_takeDash (cs : List Char) : Tag.dash (takeDash cs).1 ++ (takeDash cs).2 = cs := by
  rw [takeDash.eq_def]
  split <;> rfl

theorem eq_of_tagClose? {kind : TagKind} {cs rest : List Char} {trims : Bool}
    (h : tagClose? kind cs = some (trims, rest)) : cs = Spaced.closing kind trims ++ rest := by
  rw [tagClose?] at h
  split at h
  · next hs =>
    cases h
    rw [afterStart?_eq_some] at hs
    refine (dash_takeDash cs).symm.trans ?_
    rw [hs, Spaced.closing, List.append_assoc]
    rfl
  · cases h

theorem exists_of_wordTag? {words : List String} {cs rest : List Char} {trims : Bool}
    (h : wordTag? words cs = some (trims, rest)) :
    ∃ word ∈ words, ∃ before after, (∀ c ∈ before ++ after, isBlank c = true) ∧
      cs = before ++ (word.toList ++ (after ++ (Spaced.closing .block trims ++ rest))) := by
  rw [wordTag?] at h
  split at h
  · cases h
  · next inner hi =>
    obtain ⟨word, hm, hw⟩ := List.exists_of_findSome?_eq_some hi
    rw [afterStart?_eq_some] at hw
    refine ⟨word, hm, cs.takeWhile isBlank, inner.takeWhile isBlank, ?_, ?_⟩
    · intro c hc
      rcases List.mem_append.1 hc with hc | hc
      · exact List.mem_takeWhile_imp hc
      · exact List.mem_takeWhile_imp hc
    · rw [← eq_of_tagClose? h, trimStart, List.takeWhile_append_dropWhile, ← hw, trimStart,
        List.takeWhile_append_dropWhile]

theorem exists_of_verbatimEnd? {cs : List Char} {v : Verbatim} (h : verbatimEnd? cs = some v) :
    ∃ t, IsVerbatimEnd t ∧ cs = t ++ v.rest := by
  rw [verbatimEnd?] at h
  split at h
  · cases h
  · next inner hi =>
    obtain ⟨⟨trims, rest⟩, hw, rfl⟩ := Option.map_eq_some_iff.1 h
    obtain ⟨word, hm, before, after, hb, he⟩ := exists_of_wordTag? hw
    refine ⟨_, ⟨word, hm, (takeDash inner).1, trims, before, after, hb, rfl⟩, ?_⟩
    rw [afterStart?_eq_some] at hi
    have hinner := (dash_takeDash inner).symm
    rw [he] at hinner
    rw [hi, Tag.source_ofWord]
    refine (congrArg (TagKind.block.opening.toList ++ ·) hinner).trans ?_
    simp [TagKind.opening]

theorem verbatimEnd?_eq_none {s u : List Char} (hs : s ≠ [])
    (hf : ∀ t, IsVerbatimEnd t → ¬ t <+: s) (hu : u.head? = some '{') :
    verbatimEnd? (s ++ u) = none := by
  rw [Option.eq_none_iff_forall_ne_some]
  intro v hv
  obtain ⟨t, ht, he⟩ := exists_of_verbatimEnd? hv
  rcases List.append_eq_append_iff.1 he with ⟨x, rfl, hx⟩ | ⟨x, rfl, -⟩
  · -- The end tag would hold the brace that the tag behind the text begins with.
    obtain ⟨t', ht', hbrace⟩ := ht.exists_cons
    obtain ⟨c, s, rfl⟩ := List.exists_cons_of_ne_nil hs
    cases x with
    | nil => exact hf _ ht (by simp)
    | cons d x =>
      obtain rfl : d = '{' := by
        rw [hx] at hu
        exact Option.some.inj hu
      obtain ⟨-, rfl⟩ := List.cons.inj ht'
      exact hbrace (List.mem_append_right s List.mem_cons_self)
  · exact hf t ht (List.prefix_append t x)

def wordBlock (word : String) : List Char := (Tag.ofWord word false false [' '] [' ']).source

/-- A section ends at the first end tag, whichever name it bears. -/
theorem splitVerbatim?_append {content : List Char}
    (h : ∀ t, IsVerbatimEnd t → ¬ t <:+: content) {word : String}
    (hw : word ∈ ["endverbatim", "endraw"]) (rest : List Char) :
    splitVerbatim? (content ++ (wordBlock word ++ rest)) =
      some { content, trimBefore := false, trimAfter := false, rest } := by
  have hhead : (wordBlock word ++ rest).head? = some '{' := by
    rw [wordBlock, Tag.source_ofWord]
    rfl
  induction content with
  | nil =>
    simp only [List.mem_cons, List.not_mem_nil, or_false] at hw
    rcases hw with rfl | rfl <;> rfl
  | cons c content ih =>
    have hnone := verbatimEnd?_eq_none (List.cons_ne_nil c content)
      (fun t ht hp => h t ht hp.isInfix) hhead
    rw [List.cons_append] at hnone ⊢
    rw [splitVerbatim?, hnone,
      ih fun t ht hi => h t ht (hi.trans (List.suffix_cons c content).isInfix)]
    rfl

def verbatimSection (name : String) (content : List Char) (word : String) : List Char :=
  wordBlock name ++ (content ++ wordBlock word)

def verbatimKept (content : List Char) : List Char := content.drop (lineBreak content).length

def verbatimText (name : String) (content : List Char) : List Token :=
  plainText (wordBlock name ++ lineBreak content) (verbatimKept content)

theorem verbatimTokens_closed {content : List Char} (h : ∀ t, IsVerbatimEnd t → ¬ t <:+: content)
    {word : String} (hw : word ∈ ["endverbatim", "endraw"]) (line : Nat) (rest : List Char) :
    verbatimTokens ⟨line, false, content ++ (wordBlock word ++ rest)⟩ =
      .ok (textToken false false (line + lineFeeds (lineBreak content)) (verbatimKept content),
        Resume.skipLineBreak ⟨line + lineFeeds content, false, rest⟩) := by
  have hbreak : lineBreak (content ++ (wordBlock word ++ rest)) = lineBreak content := by
    apply lineBreak_append
    intro c hc
    rw [wordBlock, Tag.source_ofWord] at hc
    exact (Option.some.inj hc).symm
  have hprefix := lineBreak_isPrefix content
  have hfree : ∀ t, IsVerbatimEnd t → ¬ t <:+: verbatimKept content :=
    fun t ht hi => h t ht (hi.trans (List.drop_suffix _ _).isInfix)
  have hword : lineFeeds (wordBlock word) = 0 := by
    simp only [List.mem_cons, List.not_mem_nil, or_false] at hw
    rcases hw with rfl | rfl <;> rfl
  have hfeeds : lineFeeds content =
      lineFeeds (lineBreak content) + lineFeeds (verbatimKept content) := by
    rw [verbatimKept, ← lineFeeds_append, List.prefix_iff_eq_append.1 hprefix]
  rw [verbatimTokens]
  simp only [Bool.false_eq_true, if_false, Resume.skipLineBreak_eq ⟨line, false, _⟩, hbreak,
    List.drop_append_of_le_length hprefix.length_le]
  rw [← verbatimKept, splitVerbatim?_append hfree hw]
  simp only [lineFeeds_append, hword, Nat.zero_add, Nat.add_sub_cancel, Nat.add_assoc, ← hfeeds]

theorem sourceTokens_verbatim {name word : String} (hn : name ∈ ["verbatim", "raw"])
    {content : List Char} (hc : ∀ t, IsVerbatimEnd t → ¬ t <:+: content)
    (hw : word ∈ ["endverbatim", "endraw"]) (rest : List Char) :
    sourceTokens ⟨1, false, wordBlock name ++ (content ++ (wordBlock word ++ rest))⟩ =
      (sourceTokens (Resume.skipLineBreak ⟨1 + lineFeeds content, false, rest⟩)).map
        (verbatimText name content ++ ·) := by
  have htokens := verbatimTokens_closed hc hw 1 rest
  revert htokens
  -- The opening tag of either name can be evaluated, as long as nothing behind it is.
  generalize content ++ (wordBlock word ++ rest) = inner
  intro htokens
  obtain ⟨behind, hname, hfeeds, hstart, hdash, hplain⟩ : ∃ behind,
      splitMarker (wordBlock name ++ inner) = ([], some (.tag .block, behind ++ inner)) ∧
        lineFeeds behind = 0 ∧ verbatimStart? (behind ++ inner) = some (false, inner) ∧
        takeDash (behind ++ inner) = (false, behind ++ inner) ∧
        lineFeeds (wordBlock name) = 0 := by
    simp only [List.mem_cons, List.not_mem_nil, or_false] at hn
    rcases hn with rfl | rfl
    · exact ⟨" verbatim %\x7d".toList, rfl, rfl, rfl, rfl, rfl⟩
    · exact ⟨" raw %\x7d".toList, rfl, rfl, rfl, rfl, rfl⟩
  have hmarkup : markupTokens (1 + lineFeeds []) (.tag .block) (behind ++ inner) =
      verbatimTokens ⟨1, false, inner⟩ := by
    change markupTokens 1 (.tag .block) (behind ++ inner) = _
    simp only [markupTokens, if_true, hstart, lineFeeds_append, hfeeds, Nat.zero_add,
      Nat.sub_self, Nat.add_zero]
  rw [sourceTokens_of_some hname (hmarkup.trans htokens), hdash, verbatimText,
    ← textToken_eq_plainText, lineFeeds_append, hplain, Nat.zero_add]
  rfl

def plainNodes (t : List Char) : List Node :=
  if t.isEmpty then [] else [.text (String.ofList t)]

def plainTree (t : List Char) : Node := .module (.body (plainNodes t))

theorem parseTokens_plainText (source t : List Char) (line : Nat) :
    parseTokens (plainText source t ++ [⟨.eof, line⟩]) = .ok (plainTree t) := by
  rw [plainText, plainTree, plainNodes]
  split
  · exact (yields_parseTokens yields_statements_eof (by decide)).ok_of_le (Nat.le_refl _)
  · exact (yields_parseTokens (yields_statements_text _ yields_statements_eof)
      (by decide)).ok_of_le (Nat.le_refl _)

theorem catalog_extract_plainTree (c : Catalog) (options : ExtractOptions) (t : List Char) :
    (c.extract options (plainTree t)).catalog = c := by
  have hnodes : ∀ n ∈ plainNodes t, n = .text (String.ofList t) := by
    intro n hn
    rw [plainNodes] at hn
    split at hn
    · cases hn
    · exact List.mem_singleton.1 hn
  have hvisits : ∀ n ∈ plainNodes t, n.visits 2 = [(2, n)] := by
    intro n hn
    rw [hnodes n hn, Node.visits_eq]
    rfl
  have hentries : (plainNodes t).filterMap (Node.entry? options) = [] := by
    rw [List.filterMap_eq_nil_iff]
    intro n hn
    rw [hnodes n hn]
    rfl
  have hcarried := Search.carried_visits_module options hvisits
  rw [hentries, Search.carried, List.filterMap_eq_nil_iff] at hcarried
  have hreached : Search.carried options
      (Search.reached options ((plainTree t).visits 0)) = [] := by
    rw [Search.carried, List.filterMap_eq_nil_iff]
    intro v hv
    exact hcarried v ((List.takeWhile_sublist _).subset hv)
  rw [Catalog.extract_eq, hreached]
  rfl

/-- The content of a verbatim section is one text without its first line break, and nothing in it is
read or recorded. The first end tag closes the section, also when it bears the other of the two
names: behind it the source is read on. -/
theorem tokenize_verbatim {name : String} (hn : name ∈ ["verbatim", "raw"]) {content : List Char}
    (hc : ∀ t, IsVerbatimEnd t → ¬ t <:+: content) :
    tokenize (String.ofList (verbatimSection name content ("end" ++ name))) =
        .ok (verbatimText name content ++
          [.behind (verbatimSection name content ("end" ++ name)) .eof]) ∧
      parseTemplate (String.ofList (verbatimSection name content ("end" ++ name))) =
        .ok (plainTree (verbatimKept content)) ∧
      (∀ (c : Catalog) (options : ExtractOptions),
        (c.extract options (plainTree (verbatimKept content))).catalog = c) ∧
      ∀ word ∈ ["endverbatim", "endraw"], ∀ rest,
        tokenize (String.ofList (verbatimSection name content word ++ rest)) =
          (sourceTokens (Resume.skipLineBreak ⟨1 + lineFeeds content, false, rest⟩)).map
            (verbatimText name content ++ ·) := by
  have hrest : ∀ word ∈ ["endverbatim", "endraw"], ∀ rest,
      tokenize (String.ofList (verbatimSection name content word ++ rest)) =
        (sourceTokens (Resume.skipLineBreak ⟨1 + lineFeeds content, false, rest⟩)).map
          (verbatimText name content ++ ·) := by
    intro word hw rest
    rw [tokenize, String.toList_ofList, verbatimSection, List.append_assoc, List.append_assoc,
      sourceTokens_verbatim hn hc hw]
  obtain ⟨hword, hopening, hclosing⟩ : "end" ++ name ∈ ["endverbatim", "endraw"] ∧
      lineFeeds (wordBlock name) = 0 ∧ lineFeeds (wordBlock ("end" ++ name)) = 0 := by
    simp only [List.mem_cons, List.not_mem_nil, or_false] at hn
    rcases hn with rfl | rfl <;> decide
  have htokens : tokenize (String.ofList (verbatimSection name content ("end" ++ name))) =
      .ok (verbatimText name content ++
        [.behind (verbatimSection name content ("end" ++ name)) .eof]) := by
    have h := hrest _ hword []
    rw [List.append_nil] at h
    rw [h, sourceTokens_of_none (t := []) rfl, Token.behind, verbatimSection, lineFeeds_append,
      lineFeeds_append, hopening, hclosing, Nat.zero_add]
    rfl
  refine ⟨htokens, ?_, ?_, hrest⟩
  · rw [parseTemplate, htokens]
    exact parseTokens_plainText _ _ _
  · intro c options
    exact catalog_extract_plainTree c options _

/-- A section with a print and half of an end tag in it, closed by the end tag of either name. -/
theorem tokenize_verbatim_print :
    let content := "\r\n\x7b\x7b 'x'|trans \x7d\x7d\x7b%- end".toList
    let kept := "\x7b\x7b 'x'|trans \x7d\x7d\x7b%- end"
    let source := verbatimSection "raw" content "endraw"
    let other := verbatimSection "raw" content "endverbatim" ++ "\n.".toList
    source = "\x7b% raw %\x7d\r\n\x7b\x7b 'x'|trans \x7d\x7d\x7b%- end\x7b% endraw %\x7d".toList ∧
      tokenize (String.ofList source) = .ok [⟨.text kept, 2⟩, ⟨.eof, 2⟩] ∧
      parseTemplate (String.ofList source) = .ok (.module (.body [.text kept])) ∧
      (Catalog.empty.extract {} (.module (.body [.text kept]))).catalog = .empty ∧
      tokenize (String.ofList other) = .ok [⟨.text kept, 2⟩, ⟨.text ".", 3⟩, ⟨.eof, 3⟩] := by
  intro content kept source other
  obtain ⟨ht, hp, hx, ho⟩ := @tokenize_verbatim "raw" (by decide) content
    (not_infix_of_words (by decide +kernel))
  refine ⟨by decide +kernel, ht, hp, hx _ _, ?_⟩
  have hresume : Resume.skipLineBreak ⟨1 + lineFeeds content, false, "\n.".toList⟩ =
      ⟨3, false, ".".toList⟩ := rfl
  have hrest := sourceTokens_of_none (r := ⟨3, false, ".".toList⟩) (t := ".".toList) rfl
  exact (ho "endverbatim" (by decide) _).trans (by rw [hresume, hrest]; rfl)

end Phrasebook
