import Phrasebook.Proofs.Extraction.Search
import Phrasebook.Proofs.Template.ExprProductions
import Phrasebook.Proofs.Template.Prints
import Phrasebook.Proofs.Template.StatementSteps

namespace Phrasebook

/-- A run of text, and behind it a print that translates a message in a domain. -/
structure Mention where
  filler : String
  message : String
  domain : String

namespace Mention

def quoted (s : String) : String := "'" ++ String.ofList (escaped s.toList) ++ "'"

def source (m : Mention) : String :=
  m.filler ++ "\x7b\x7b " ++ quoted m.message ++ "|trans(\x7b\x7d, " ++ quoted m.domain ++
    ") \x7d\x7d"

def content (m : Mention) : Spaced :=
  [([' '], .str m.message), ([], .punctuation '|'), ([], .name transFilter),
   ([], .punctuation '('), ([], .punctuation '{'), ([], .punctuation '}'),
   ([], .punctuation ','), ([' '], .str m.domain), ([], .punctuation ')')]

def passage (m : Mention) : Passage := ⟨m.filler.toList, m.content⟩

theorem text_passage (m : Mention) : m.passage.text = m.source.toList := by
  simp [passage, Passage.text, content, Spaced.text, TokenKind.spelling, source, quoted,
    transFilter, TagKind.opening, TagKind.closing]

theorem sound_passage {m : Mention} (h : '{' ∉ m.filler.toList) : m.passage.Sound := by
  refine ⟨h, ?_, ?_, rfl⟩
  · rintro c hc
    cases hc
    decide
  · intro rest
    simp only [passage, content, Spaced.Apart]
    have hnone : ∀ c ∈ [], isBlank c = true := List.forall_mem_nil _
    exact ⟨isBlank_of_mem_space, rfl, rfl, hnone, rfl, rfl, hnone, rfl, rfl, hnone, rfl, rfl,
      hnone, rfl, rfl, hnone, rfl, rfl, hnone, rfl, rfl, isBlank_of_mem_space, rfl, rfl, hnone, rfl,
      rfl, trivial⟩

def expr (m : Mention) : Node :=
  .filter (.ofString m.message) transFilter [.hash [], .ofString m.domain]

def nodes (m : Mention) : List Node :=
  (if m.filler.toList.isEmpty then [] else [.text m.filler]) ++ [.print m.expr]

theorem yields_arguments (domain : String) {fuel level depth : Nat} {ts rest : List Token}
    (h : Opens ts ((Expr.hash []).tokens ++ .punctuation ',' ::
      ((Expr.constant (.str domain)).tokens ++ [.punctuation ')'])) rest)
    (hf : 8 * ts.length + 5 ≤ fuel) (hd : level + 3 ≤ depth) :
    Yields depth (argumentList fuel level ts) ([.hash [], .ofString domain], rest) := by
  obtain ⟨us, hu, h₁⟩ := Opens.append_iff.1 h
  obtain ⟨line, vs, rfl, h₂⟩ := Opens.cons_iff.1 h₁
  obtain ⟨ws, hv, h₃⟩ := Opens.append_iff.1 h₂
  obtain ⟨line', xs, rfl, h₄⟩ := Opens.cons_iff.1 h₃
  obtain rfl := Opens.nil_iff.1 h₄
  have hlen := hu.length
  rw [List.length_cons] at hlen
  obtain ⟨fuel, rfl⟩ : ∃ f, fuel = f + 3 := ⟨fuel - 3, by omega⟩
  have hhash : Yields depth (expression (fuel + 1) 0 level ts) (.hash [], _) :=
    (Expr.hash []).readsBack hu (exprEnds_mark (by decide) line vs) (by omega) hd
  have hstring : Yields depth (expression fuel 0 level vs) (.ofString domain, _) :=
    (Expr.constant (.str domain)).readsBack hv (exprEnds_mark (by decide) line' xs) (by omega) hd
  obtain ⟨line₁, ys, rfl, -⟩ := Opens.cons_iff.1 hu
  obtain ⟨line₂, zs, rfl, -⟩ := Opens.cons_iff.1 hv
  rw [argumentList, if_neg (by exact Bool.false_ne_true), Expr.argument_of_ne_name (by rintro _ ⟨⟩)]
  refine hhash.bind ?_
  have hothers : Yields depth (argumentList (fuel + 2) level (⟨.str domain, line₂⟩ :: zs))
      ([.ofString domain], xs) := by
    rw [argumentList, if_neg (by exact Bool.false_ne_true),
      Expr.argument_of_ne_name (by rintro _ ⟨⟩)]
    exact hstring.bind (.pure _)
  exact hothers.bind (.pure _)

theorem yields_expr (m : Mention) {level depth : Nat} {ts rest : List Token}
    (h : Opens ts (Spaced.kinds m.content) rest) (hr : ExprEnds rest) (hd : level + 5 ≤ depth) :
    Yields depth (wholeExpression level ts) (m.expr, rest) := by
  obtain ⟨line₁, ts₁, rfl, h₁⟩ := Opens.cons_iff.1 h
  obtain ⟨line₂, ts₂, rfl, h₂⟩ := Opens.cons_iff.1 h₁
  obtain ⟨line₃, ts₃, rfl, h₃⟩ := Opens.cons_iff.1 h₂
  obtain ⟨line₄, ts₄, rfl, h₄⟩ := Opens.cons_iff.1 h₃
  rw [wholeExpression, expressionFuel]
  generalize hfuel : 8 * _ + 8 = fuel
  simp only [List.length_cons] at hfuel
  obtain ⟨fuel, rfl⟩ : ∃ f, fuel = f + 5 := ⟨fuel - 5, by omega⟩
  have harguments : Yields depth (optionalArguments (fuel + 2) (level + 2)
      (⟨.punctuation '(', line₄⟩ :: ts₄)) (some [.hash [], .ofString m.domain], rest) := by
    rw [optionalArguments, if_pos (by rfl)]
    exact (yields_arguments m.domain h₄ (by omega) (by omega)).bind (.pure _)
  have hlinks : Yields depth (links (fuel + 3) (.ofString m.message, level + 1)
      (⟨.punctuation '|', line₂⟩ :: ⟨.name transFilter, line₃⟩ :: ⟨.punctuation '(', line₄⟩ :: ts₄))
      ((m.expr, level + 2), rest) :=
    Expr.yields_links_filter (c := (.ofString m.message, level + 1)) harguments hr.1 (by omega)
      (by simp only; omega)
  have hprimary := Expr.primary_constant (.str m.message) (fuel + 2) (level + 1) line₁
  refine Expr.yields_expression (Expr.yields_operand ?_ (.of_eq (hprimary _)) hlinks) hr.1
    (by omega) (by omega)
  intro sign
  cases sign <;> rintro ⟨⟩

theorem yields_statements {ms : List Mention} {fuel level depth : Nat} {ts : List Token}
    (h : Opens ts ((ms.map passage).flatMap Passage.kinds ++ [.eof]) []) (hf : ts.length ≤ fuel)
    (hd : level + 5 ≤ depth) :
    ∃ rest, Yields depth (statements fuel level [] ts) ((ms.flatMap nodes, none), rest) := by
  induction ms generalizing fuel ts with
  | nil =>
    obtain ⟨line, us, rfl, -⟩ := Opens.cons_iff.1 h
    obtain _ | fuel := fuel
    · cases hf
    exact ⟨_, yields_statements_eof⟩
  | cons m ms ih =>
    rw [List.map_cons, List.flatMap_cons, List.append_assoc, passage, Passage.kinds,
      List.append_assoc, List.cons_append, List.append_assoc] at h
    obtain ⟨us, ht, h₁⟩ := Opens.append_iff.1 h
    obtain ⟨line, vs, rfl, h₂⟩ := Opens.cons_iff.1 h₁
    obtain ⟨ws, hv, h₃⟩ := Opens.append_iff.1 h₂
    obtain ⟨line', xs, rfl, h₄⟩ := Opens.cons_iff.1 h₃
    have hlen := ht.length
    have hlen' := hv.length
    simp only [List.length_cons] at hlen hlen'
    have hexpr := m.yields_expr hv (exprEnds_tagEnd _ _ _) hd
    -- The print is read with the fuel that the text in front of it leaves, if there is any.
    have hprint : ∀ fuel, xs.length < fuel → ∃ rest, Yields depth
        (statements fuel level [] (⟨.tagStart .print, line⟩ :: vs))
          ((.print m.expr :: ms.flatMap nodes, none), rest) := by
      intro fuel hf
      obtain _ | fuel := fuel
      · cases hf
      obtain ⟨rest, hr⟩ := ih h₄ (Nat.le_of_lt_succ hf)
      exact ⟨rest, yields_statements_print hexpr hr⟩
    rw [List.flatMap_cons, nodes]
    split at ht
    · next he =>
      obtain rfl := Opens.nil_iff.1 ht
      rw [if_pos he]
      exact hprint fuel (by rw [List.length_cons] at hf; omega)
    · next he =>
      obtain ⟨line'', ys, rfl, hy⟩ := Opens.cons_iff.1 ht
      obtain rfl := Opens.nil_iff.1 hy
      rw [if_neg he]
      obtain _ | fuel := fuel
      · cases hf
      obtain ⟨rest, hr⟩ := hprint fuel (by simp only [List.length_cons] at hf; omega)
      exact ⟨rest, String.ofList_toList ▸ yields_statements_text _ hr⟩

def tree (ms : List Mention) : Node := .module (.body (ms.flatMap nodes))

def template (ms : List Mention) : String := String.join (ms.map source)

theorem parseTemplate_template {ms : List Mention} (h : ∀ m ∈ ms, '{' ∉ m.filler.toList) :
    parseTemplate (template ms) = .ok (tree ms) := by
  have hsound : ∀ p ∈ ms.map passage, p.Sound := by
    intro p hp
    obtain ⟨m, hm, rfl⟩ := List.mem_map.1 hp
    exact sound_passage (h m hm)
  have htext : template ms = String.ofList ((ms.map passage).flatMap Passage.text) := by
    rw [← String.toList_inj, template, String.toList_ofList, List.flatMap_map]
    simp [String.toList_join, List.flatMap_map, text_passage]
  obtain ⟨ts, hk, ht⟩ := Passage.exists_tokenize hsound
  obtain ⟨rest, hr⟩ : ∃ rest, Yields maxNesting (statements (8 * ts.length + 7) 1 [] ts)
      ((ms.flatMap nodes, none), rest) :=
    yields_statements ⟨ts, hk, (List.append_nil ts).symm⟩ (by omega) (by decide)
  rw [parseTemplate, htext, ht]
  exact (yields_parseTokens hr (by decide)).ok_of_le (Nat.le_refl _)

theorem visits_of_mem_nodes {m : Mention} {n : Node} (h : n ∈ m.nodes) (depth : Nat) :
    n.visits depth = [(depth, n)] := by
  rw [nodes] at h
  rcases List.mem_append.1 h with h | h
  · split at h
    · cases h
    · rw [List.mem_singleton.1 h, Node.visits_eq]
      rfl
  · rw [List.mem_singleton.1 h, Node.visits_eq]
    rfl

theorem visits_of_mem_flatMap {ms : List Mention} {n : Node} (h : n ∈ ms.flatMap nodes) :
    n.visits 2 = [(2, n)] := by
  obtain ⟨m, -, hm⟩ := List.mem_flatMap.1 h
  exact visits_of_mem_nodes hm 2

theorem visits_tree (ms : List Mention) :
    (tree ms).visits 0 =
      (0, tree ms) :: (1, .body (ms.flatMap nodes)) :: (ms.flatMap nodes).map (2, ·) :=
  Node.visits_module_body fun _ => visits_of_mem_flatMap

theorem entries_nodes (options : ExtractOptions) (m : Mention) :
    m.nodes.filterMap (Node.entry? options) = [(m.domain, m.message)] := by
  have hprint : Node.entry? options (.print m.expr) = some (m.domain, m.message) := by
    simp [Node.entry?, expr, Node.domain?, Node.message?, Node.ofString, Node.literalText?,
      Scalar.text?, Scalar.display]
  have htext : (if m.filler.toList.isEmpty then [] else [Node.text m.filler]).filterMap
      (Node.entry? options) = [] := by
    split <;> rfl
  rw [nodes, List.filterMap_append, htext, List.nil_append, List.filterMap_cons_some hprint]
  rfl

theorem carried_visits_tree (options : ExtractOptions) (ms : List Mention) :
    Search.carried options ((tree ms).visits 0) = ms.map fun m => (m.domain, m.message) := by
  rw [tree, Search.carried_visits_module options fun _ => visits_of_mem_flatMap,
    List.filterMap_flatMap, ← List.flatMap_pure_eq_map]
  exact List.flatMap_congr fun m _ => entries_nodes options m

/-- From source to catalog: a template made of mentions parses, and the search of its tree records
each message under its domain, in the order of the source. -/
theorem extract_template (options : ExtractOptions) {ms : List Mention}
    (h : ∀ m ∈ ms, '{' ∉ m.filler.toList) (hd : 2 ≤ options.maxDepth) :
    ∃ tree, parseTemplate (template ms) = .ok tree ∧ Catalog.empty.extract options tree =
      ⟨Catalog.empty.addAll options (ms.map fun m => (m.domain, m.message)), false⟩ := by
  refine ⟨tree ms, parseTemplate_template h, ?_⟩
  have hdepth : ∀ v ∈ (tree ms).visits 0, v.1 ≤ options.maxDepth := by
    rw [visits_tree]
    simp only [List.forall_mem_cons, List.forall_mem_map]
    exact ⟨Nat.zero_le _, by omega, fun _ _ => hd⟩
  have hany : ((tree ms).visits 0).any (fun v => options.maxDepth < v.1) = false := by
    simpa using hdepth
  rw [Catalog.extract_eq, Search.reached_eq_self hdepth, hany, carried_visits_tree]

theorem extract_template_quotes :
    let ms : List Mention := [⟨"Dear ", "it's", "menu"⟩, ⟨"\n", "\x7d\x7d", "menu"⟩]
    template ms = "Dear \x7b\x7b 'it\\'s'|trans(\x7b\x7d, 'menu') \x7d\x7d\n" ++
        "\x7b\x7b '\x7d\x7d'|trans(\x7b\x7d, 'menu') \x7d\x7d" ∧
      ∃ tree, parseTemplate (template ms) = .ok tree ∧
        Catalog.empty.extract {} tree = ⟨⟨[("menu", [("it's", .ofString "__it's"),
          ("\x7d\x7d", .ofString "__\x7d\x7d")])]⟩, false⟩ :=
  ⟨by decide, extract_template _ (by decide) (by decide)⟩

end Mention
end Phrasebook
