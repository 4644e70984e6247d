import Phrasebook.Proofs.Extraction.Mentions
import Phrasebook.Proofs.Template.ExprSpans

namespace Phrasebook

/-- The tokens of an argument: an expression, or a named one. No comma stands outside of its
brackets. -/
structure FilterArgument where
  kinds : List TokenKind
  nonempty : kinds ≠ []
  nested : itemNest [] kinds = some []

/-- A filter behind an expression. Without arguments the parentheses may be left out, and behind the
last argument a comma may stand. -/
structure FilterUse where
  name : String
  arguments : Option (List FilterArgument)
  lastComma : Bool := false

namespace FilterArgument

def listKinds (lastComma : Bool) : List FilterArgument → List TokenKind
  | [] => [.punctuation ')']
  | [a] => a.kinds ++ (if lastComma then [.punctuation ','] else []) ++ [.punctuation ')']
  | a :: as => a.kinds ++ .punctuation ',' :: listKinds lastComma as

def Gives (a : FilterArgument) (e : Node) : Prop := e.literalText? = constantText? a.kinds

theorem opens_listKinds_cons {lastComma : Bool} {a : FilterArgument} {as : List FilterArgument}
    {ts rest : List Token} (h : Opens ts (listKinds lastComma (a :: as)) rest) :
    ∃ ws s xs, ts = ws ++ s :: xs ∧ ws.map Token.kind = a.kinds ∧
      ((as = [] ∧ s.kind = .punctuation ')' ∧ xs = rest) ∨
        (s.kind = .punctuation ',' ∧ Opens xs (listKinds lastComma as) rest)) := by
  obtain ⟨k, ks, hk, hnext⟩ : ∃ k ks, listKinds lastComma (a :: as) = a.kinds ++ k :: ks ∧
      ((as = [] ∧ k = .punctuation ')' ∧ ks = []) ∨
        (k = .punctuation ',' ∧ ks = listKinds lastComma as)) := by
    cases as with
    | nil =>
      cases lastComma with
      | false => exact ⟨_, _, List.append_assoc .., .inl ⟨rfl, rfl, rfl⟩⟩
      | true => exact ⟨_, _, List.append_assoc .., .inr ⟨rfl, rfl⟩⟩
    | cons b bs => exact ⟨_, _, rfl, .inr ⟨rfl, rfl⟩⟩
  rw [hk] at h
  obtain ⟨us, ⟨ws, hw, rfl⟩, hu⟩ := Opens.append_iff.1 h
  obtain ⟨line, xs, rfl, hx⟩ := Opens.cons_iff.1 hu
  refine ⟨ws, _, xs, rfl, hw, ?_⟩
  rcases hnext with ⟨has, rfl, rfl⟩ | ⟨rfl, rfl⟩
  · exact .inl ⟨has, rfl, Opens.nil_iff.1 hx⟩
  · exact .inr ⟨rfl, hx⟩

end FilterArgument

namespace FilterUse

def argumentKinds (f : FilterUse) : List TokenKind :=
  match f.arguments with
  | none => []
  | some as => .punctuation '(' :: FilterArgument.listKinds f.lastComma as

def kinds (f : FilterUse) : List TokenKind :=
  .punctuation '|' :: .name f.name :: f.argumentKinds

def domain? (default : String) (f : FilterUse) : Option String :=
  match (f.arguments.getD [])[1]? with
  | none => some default
  | some second => constantText? second.kinds

end FilterUse

/-- The filters applied to an expression in turn, the first one innermost. -/
inductive Applied : Node → List FilterUse → Node → Prop
  | nil {n : Node} : Applied n [] n
  | cons {n e : Node} {f : FilterUse} {fs : List FilterUse} {es : List Node}
      (ha : List.Forall₂ FilterArgument.Gives (f.arguments.getD []) es)
      (hf : Applied (.filter n f.name es) fs e) : Applied n (f :: fs) e

namespace ExprPart

open FilterArgument (Gives listKinds)

variable {level : Nat} {ts us rest : List Token}

theorem Reads.gives_arguments {lastComma : Bool} {as : List FilterArgument} {es : List Node}
    (ho : Opens ts (listKinds lastComma as) rest) (h : Reads (.argumentList level es) ts us) :
    us = rest ∧ List.Forall₂ Gives as es := by
  -- Both the argument as it was written and the one that was read are nested up to the next comma
  -- or parenthesis outside of brackets, so they are the same tokens.
  induction as generalizing ts es with
  | nil =>
    obtain ⟨line, xs, rfl, hx⟩ := Opens.cons_iff.1 ho
    obtain rfl := Opens.nil_iff.1 hx
    cases h with
    | argumentsEnd => exact ⟨rfl, .nil⟩
    | arguments ha =>
      obtain ⟨ws, hw, hn⟩ := ha.spanned
      obtain ⟨-, hs, -⟩ := eq_of_itemNest (a := []) rfl rfl hn rfl hw
      cases hs
    | lastArgument ha =>
      obtain ⟨ws, hw, hn⟩ := ha.spanned
      obtain ⟨rfl, -, rfl⟩ := eq_of_itemNest (a := []) rfl rfl hn rfl hw
      -- No argument is without tokens.
      exact absurd ha.length_argument (Nat.lt_irrefl _)
  | cons a as ih =>
    obtain ⟨ws, s, xs, rfl, hw, hnext⟩ := FilterArgument.opens_listKinds_cons ho
    have hnest : itemNest [] (ws.map Token.kind) = some [] := hw ▸ a.nested
    have hstep : itemStep [] s.kind = none := by
      rcases hnext with ⟨-, hs, -⟩ | ⟨hs, -⟩ <;> rw [hs] <;> rfl
    generalize hts : ws ++ s :: xs = ts at h
    cases h with
    | argumentsEnd =>
      obtain ⟨rfl, -, -⟩ := eq_of_itemNest (b := []) hnest hstep rfl rfl hts
      exact absurd hw.symm a.nonempty
    | arguments ha hr =>
      obtain ⟨ys, rfl, hn⟩ := ha.spanned
      obtain ⟨rfl, rfl, rfl⟩ := eq_of_itemNest hnest hstep hn rfl hts
      have hgives : a.Gives _ := (ha.literal ws rfl).trans (congrArg constantText? hw)
      rcases hnext with ⟨-, ⟨⟩, -⟩ | ⟨-, hx⟩
      obtain ⟨hu, hall⟩ := ih hx hr
      exact ⟨hu, .cons hgives hall⟩
    | lastArgument ha =>
      obtain ⟨ys, rfl, hn⟩ := ha.spanned
      obtain ⟨rfl, rfl, rfl⟩ := eq_of_itemNest hnest hstep hn rfl hts
      have hgives : a.Gives _ := (ha.literal ws rfl).trans (congrArg constantText? hw)
      rcases hnext with ⟨rfl, -, hx⟩ | ⟨⟨⟩, -⟩
      exact ⟨hx, .cons hgives .nil⟩

theorem Reads.gives_optionalArguments {f : FilterUse} {es : Option (List Node)}
    (ho : Opens ts f.argumentKinds rest) (hr : atMark '(' rest = false)
    (h : Reads (.optionalArguments level es) ts us) :
    us = rest ∧ List.Forall₂ Gives (f.arguments.getD []) (es.getD []) := by
  rw [FilterUse.argumentKinds] at ho
  cases hf : f.arguments with
  | none =>
    rw [hf] at ho
    obtain rfl := Opens.nil_iff.1 ho
    cases h with
    | noArguments => exact ⟨rfl, .nil⟩
    | someArguments => cases hr
  | some as =>
    rw [hf] at ho
    obtain ⟨line, xs, rfl, hx⟩ := Opens.cons_iff.1 ho
    cases h with
    | noArguments hn => cases hn
    | someArguments ha => exact ha.gives_arguments hx

theorem not_atMark_of_chain {fs : List FilterUse} (ho : Opens ts (fs.flatMap FilterUse.kinds) rest)
    (hr : GroupEnds rest) : atMark '(' ts = false := by
  cases fs with
  | nil =>
    obtain rfl := Opens.nil_iff.1 ho
    exact hr.not_atMark (by decide)
  | cons f fs =>
    obtain ⟨line, xs, rfl, -⟩ := Opens.cons_iff.1 ho
    rfl

/-- Behind an expression filters are applied to it one by one, and what ends the expression ends
them. -/
theorem Reads.applied_links {fs : List FilterUse} {subject c : Chain}
    (ho : Opens ts (fs.flatMap FilterUse.kinds) rest) (hr : GroupEnds rest)
    (h : Reads (.links subject c) ts us) : us = rest ∧ Applied subject.1 fs c.1 := by
  induction fs generalizing ts subject with
  | nil =>
    obtain rfl := Opens.nil_iff.1 ho
    cases h with
    | linksEnd => exact ⟨rfl, .nil⟩
    | member | item | filter => cases hr
  | cons f fs ih =>
    rw [List.flatMap_cons] at ho
    obtain ⟨vs, hf, hfs⟩ := Opens.append_iff.1 ho
    obtain ⟨line, ws, rfl, hw⟩ := Opens.cons_iff.1 hf
    obtain ⟨line', xs, rfl, hx⟩ := Opens.cons_iff.1 hw
    cases h with
    | linksEnd hn => cases hn '|' (by decide)
    | filter _ ha hc =>
      obtain ⟨rfl, hgives⟩ := ha.gives_optionalArguments hx (not_atMark_of_chain hfs hr)
      obtain ⟨hu, happlied⟩ := ih hfs hc
      exact ⟨hu, .cons hgives happlied⟩

theorem Reads.applied {m : String} {line : Nat} {fs : List FilterUse} {e : Node}
    (ho : Opens ts (fs.flatMap FilterUse.kinds) rest) (hr : GroupEnds rest)
    (h : Reads (.expression 0 level e) (⟨.str m, line⟩ :: ts) us) :
    us = rest ∧ Applied (.ofString m) fs e := by
  cases h with
  | bounded hm => exact absurd rfl hm
  | whole _ hf hops hcond =>
    generalize hts : ⟨.str m, line⟩ :: ts = ts' at hf
    cases hf with
    | sign s => cases s <;> cases hts
    | chain _ hp hl =>
      subst hts
      cases hp with
      | str =>
        obtain ⟨rfl, happlied⟩ := hl.applied_links ho hr
        cases hops with
        | operationsEnd =>
          cases hcond with
          | conditionalsEnd => exact ⟨rfl, happlied⟩
          | fallback | choice | guarded => cases hr
        | test hn | negatedTest hn | binary hn =>
          rw [hr.next?] at hn
          cases hn

end ExprPart

section Domain

variable {n e : Node} {f : FilterUse} {fs before after : List FilterUse} {es : List Node}

theorem FilterUse.domain?_filter (default : String) (n : Node) (hf : f.name = transFilter)
    (h : List.Forall₂ FilterArgument.Gives (f.arguments.getD []) es) :
    (Node.filter n f.name es).domain? default = f.domain? default := by
  rw [Node.domain?, if_pos hf, domain?]
  generalize f.arguments.getD [] = as at h
  cases h with
  | nil => rfl
  | cons _ h =>
    cases h with
    | nil => rfl
    | cons hgives _ => exact hgives

theorem Applied.message?_eq (h : Applied n fs e) : e.message? = n.message? := by
  induction h with
  | nil => rfl
  | cons _ _ ih =>
    rw [ih]
    rfl

theorem Applied.domain?_of_forall (default : String) (h : Applied n fs e)
    (hfs : ∀ f ∈ fs, f.name ≠ transFilter) : e.domain? default = n.domain? default := by
  induction h with
  | nil => rfl
  | cons _ _ ih =>
    obtain ⟨hf, hfs⟩ := List.forall_mem_cons.1 hfs
    rw [ih hfs, Node.domain?, if_neg hf]

theorem Applied.domain?_of_last (default : String) (h : Applied n (before ++ f :: after) e)
    (hf : f.name = transFilter) (ha : ∀ g ∈ after, g.name ≠ transFilter) :
    e.domain? default = f.domain? default := by
  induction before generalizing n with
  | nil =>
    cases h with
    | cons hes h => rw [h.domain?_of_forall default ha, f.domain?_filter default n hf hes]
  | cons g before ih =>
    cases h with
    | cons _ h => exact ih h

end Domain

namespace FilterUse

def template (message chain : String) : String :=
  "\x7b\x7b " ++ Mention.quoted message ++ chain ++ " \x7d\x7d"

def Written (message chain : String) (fs : List FilterUse) : Prop :=
  (tokenize (template message chain)).toOption.map (fun ts => (ts.map Token.kind).drop 2) =
    some (fs.flatMap kinds ++ [.tagEnd .print, .eof])

instance (message chain : String) (fs : List FilterUse) : Decidable (Written message chain fs) :=
  inferInstanceAs (Decidable (_ = _))

def recorded (options : ExtractOptions) (message : String) : Option String → Catalog
  | none => .empty
  | some domain => ⟨[(domain, [(message, .ofString (options.placeholder ++ message))])]⟩

variable {message chain : String} {fs : List FilterUse} {ts : List Token}

theorem exists_of_sourceTokens_print {inner : List Char} (hd : takeDash inner = (false, inner))
    (h : sourceTokens ⟨1, false, '{' :: '{' :: inner⟩ = .ok ts) :
    ∃ r others, tagTokens .print 1 1 [] inner = .ok r ∧
      ts = ⟨.tagStart .print, 1⟩ :: (r.1 ++ others) := by
  have hsplit : splitMarker ('{' :: '{' :: inner) = ([], some (.tag .print, inner)) := rfl
  have hmarkup : markupTokens (1 + lineFeeds []) (.tag .print) inner =
      (tagTokens .print 1 1 [] inner).map fun r => (⟨.tagStart .print, 1⟩ :: r.1, r.2) := by
    rw [markupTokens, hd]
    rfl
  cases ht : tagTokens .print 1 1 [] inner with
  | error e =>
    rw [ht] at hmarkup
    rw [sourceTokens_of_error hsplit hmarkup] at h
    cases h
  | ok r =>
    rw [ht] at hmarkup
    rw [sourceTokens_of_some hsplit hmarkup] at h
    cases ho : sourceTokens r.2 with
    | error e =>
      rw [ho] at h
      cases h
    | ok others =>
      rw [ho] at h
      cases h
      refine ⟨r, others, rfl, ?_⟩
      simp only [hd]
      rfl

theorem exists_of_tokenize (h : tokenize (template message chain) = .ok ts) :
    ∃ others, ts = ⟨.tagStart .print, 1⟩ :: ⟨.str message, 1⟩ :: others := by
  have hsource : (template message chain).toList = '{' :: '{' :: ([' '] ++ '\'' ::
      (escaped message.toList ++ '\'' :: (chain ++ " \x7d\x7d").toList)) := by
    simp [template, Mention.quoted]
  rw [tokenize, hsource] at h
  obtain ⟨r, others, hr, rfl⟩ := exists_of_sourceTokens_print rfl h
  have hlexeme := lexeme_str (escapes_escaped message.toList) (chain ++ " \x7d\x7d").toList
  rw [tagTokens_lexeme isBlank_of_mem_space rfl (fun _ => rfl) hlexeme rfl] at hr
  cases ht : tagTokens .print 1 _ [] (chain ++ " \x7d\x7d").toList with
  | error e =>
    rw [ht] at hr
    cases hr
  | ok q =>
    rw [ht] at hr
    cases hr
    rw [String.ofList_toList]
    exact ⟨q.1 ++ others, rfl⟩

theorem exists_of_parseTemplate {tree : Node} (hw : Written message chain fs)
    (hp : parseTemplate (template message chain) = .ok tree) :
    ∃ e, tree = .module (.body [.print e]) ∧ Applied (.ofString message) fs e := by
  obtain ⟨ts, ht, hparse⟩ := exists_tokens_of_parseTemplate hp
  rw [Written, ht] at hw
  have hk := Option.some.inj hw
  obtain ⟨others, rfl⟩ := exists_of_tokenize ht
  have hopens : Opens others (fs.flatMap kinds ++ [.tagEnd .print, .eof]) [] :=
    ⟨others, hk, (List.append_nil others).symm⟩
  obtain ⟨rest, hfs, hrest⟩ := Opens.append_iff.1 hopens
  obtain ⟨line, end_, rfl, hend⟩ := Opens.cons_iff.1 hrest
  obtain ⟨line', us, rfl, -⟩ := Opens.cons_iff.1 hend
  obtain ⟨nodes, vs, hr, rfl⟩ := parseTokens_reads hparse
  cases hr with
  | eof he => cases he
  | print he hs =>
    obtain ⟨hu, happlied⟩ := he.applied hfs rfl
    cases hu
    cases hs with
    | eof => exact ⟨_, rfl, happlied⟩

/-- A string that is printed through filters is recorded if there is a translation filter among
them, and in the domain that the last one names: the default one if it has fewer than two arguments,
and otherwise the constant that the second argument comes to. Of any other second argument nothing
is recorded, whatever the filters before it name. -/
theorem extract_chain {tree : Node} (hw : Written message chain fs)
    (hp : parseTemplate (template message chain) = .ok tree) (options : ExtractOptions)
    (hd : 2 ≤ options.maxDepth) :
    ((∀ f ∈ fs, f.name ≠ transFilter) →
      Catalog.empty.extract options tree = ⟨.empty, false⟩) ∧
    ∀ before f after, fs = before ++ f :: after → f.name = transFilter →
      (∀ g ∈ after, g.name ≠ transFilter) →
        Catalog.empty.extract options tree =
          ⟨recorded options message (f.domain? options.defaultDomain), false⟩ := by
  obtain ⟨e, rfl, happlied⟩ := exists_of_parseTemplate hw hp
  have hvisits : ∀ n ∈ [Node.print e], n.visits 2 = [(2, n)] := by
    intro n hn
    rw [List.mem_singleton.1 hn, Node.visits_eq]
    rfl
  have hmessage : e.message? = some message := happlied.message?_eq
  have hextract : Catalog.empty.extract options (.module (.body [.print e])) =
      ⟨recorded options message (e.domain? options.defaultDomain), false⟩ := by
    rw [Catalog.extract_module _ hvisits hd, List.filterMap_cons, Node.entry?, hmessage]
    cases e.domain? options.defaultDomain <;> rfl
  rw [hextract]
  constructor
  · intro hfs
    rw [happlied.domain?_of_forall _ hfs]
    rfl
  · rintro before f after rfl hf ha
    rw [happlied.domain?_of_last _ hf ha]

/-- Two translation filters in both orders: what stands in parentheses is a constant, a variable is
none. -/
theorem extract_chain_twice :
    let none_ : FilterArgument := ⟨[.punctuation '\x7b', .punctuation '\x7d'], by decide, rfl⟩
    let shop : FilterArgument :=
      ⟨[.punctuation '(', .str "shop", .punctuation ')'], by decide, rfl⟩
    let inner : FilterArgument := ⟨[.name "a", .punctuation '|', .name "trans", .punctuation '(',
      .number (.int 1), .punctuation ',', .str "b", .punctuation ')'], by decide, rfl⟩
    let variable_ : FilterArgument := ⟨[.name "c"], by decide, rfl⟩
    let constant : FilterUse := ⟨"trans", some [none_, shop], false⟩
    let dynamic : FilterUse := ⟨"trans", some [inner, variable_], true⟩
    let upper : FilterUse := ⟨"upper", none, false⟩
    let shopLast := "|trans(a|trans(1, 'b'), c,)|trans(\x7b\x7d, ('shop'))|upper"
    let variableLast := "|trans(\x7b\x7d, ('shop'))|upper|trans(a|trans(1, 'b'), c,)"
    template "it's" shopLast = "\x7b\x7b 'it\\'s'|trans(a|trans(1, 'b'), c,)" ++
        "|trans(\x7b\x7d, ('shop'))|upper \x7d\x7d" ∧
      Written "it's" shopLast [dynamic, constant, upper] ∧
      Written "it's" variableLast [constant, upper, dynamic] ∧
      (∃ tree, parseTemplate (template "it's" shopLast) = .ok tree ∧
        Catalog.empty.extract {} tree =
          ⟨⟨[("shop", [("it's", .ofString "__it's")])]⟩, false⟩) ∧
      ∃ tree, parseTemplate (template "it's" variableLast) = .ok tree ∧
        Catalog.empty.extract {} tree = ⟨.empty, false⟩ := by
  intro none_ shop inner variable_ constant dynamic upper shopLast variableLast
  have hshop : Written "it's" shopLast [dynamic, constant, upper] := by decide +kernel
  have hvariable : Written "it's" variableLast [constant, upper, dynamic] := by decide +kernel
  have hparsed : ∀ chain ∈ [shopLast, variableLast],
      ∃ tree, parseTemplate (template "it's" chain) = .ok tree := by
    intro chain hc
    have h : ∀ chain ∈ [shopLast, variableLast],
        (parseTemplate (template "it's" chain)).toBool = true := by decide +kernel
    have hok := h chain hc
    cases hp : parseTemplate (template "it's" chain) with
    | error e =>
      rw [hp] at hok
      cases hok
    | ok tree => exact ⟨tree, rfl⟩
  obtain ⟨tree, hp⟩ := hparsed shopLast (by simp)
  obtain ⟨tree', hp'⟩ := hparsed variableLast (by simp)
  have hconstant : constant.domain? "messages" = some "shop" := by
    simp [domain?, constant, shop, constantText?]
  have hdynamic : dynamic.domain? "messages" = none := by
    simp [domain?, dynamic, variable_, constantText?, Node.ofWord, Node.ofName, Node.new,
      Node.setAttribute, Node.literalText?]
  refine ⟨by decide, hshop, hvariable, ⟨tree, hp, ?_⟩, ⟨tree', hp', ?_⟩⟩
  · rw [(extract_chain hshop hp {} (by decide)).2 [dynamic] constant [upper] rfl rfl
      (by decide), hconstant]
    rfl
  · rw [(extract_chain hvariable hp' {} (by decide)).2 [constant, upper] dynamic [] rfl rfl
      (by decide), hdynamic]
    rfl

end FilterUse
end Phrasebook
