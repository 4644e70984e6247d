import Phrasebook.Proofs.Template.Stmt
import Phrasebook.Proofs.Template.StmtGrammar

/-!
Invariants of the trees that the parser builds. One that the links of chains and all other nodes
keep holds of every expression, and with prints and translated blocks of every statement.
-/
namespace Phrasebook

namespace Node

/-- The links of chains that the nesting limit counts: binary operators, filters and lookups. -/
def isLink : Node → Bool
  | filter .. | generic .binary .. | generic .access .. => true
  | _ => false

def isMarked : Node → Bool
  | print _ | trans .. => true
  | _ => false

def isJoint (n : Node) : Bool := !n.isLink && !n.isMarked

section Children

variable (name : String) (arguments : Option (List Node)) (ns : List Node)

theorem body_eq : body ns = generic .body [] (Children.pushAll [] ns) := pushAll_generic ..

theorem array_eq : array ns = generic .array [] (Children.pushAll [] ns) := pushAll_generic ..

theorem hash_eq : hash ns = generic .hash [] (Children.pushAll [] ns) := pushAll_generic ..

theorem children_array : (array ns).children = ns := children_pushAll ..

theorem children_hash : (hash ns).children = ns := children_pushAll ..

theorem children_conditional (condition : Node) (yes no : Option Node) :
    (conditional condition yes no).children = condition :: (yes.toList ++ no.toList) := by
  cases yes <;> cases no <;> rfl

theorem children_test (subject : Node) :
    (test name subject arguments).children = subject :: (arguments.map body).toList := by
  cases arguments <;> rfl

theorem children_lookup (object key : Node) :
    (lookup name object key arguments).children =
      object :: key :: (arguments.map body).toList := by
  cases arguments <;> rfl

theorem ofWord_cases : (∃ value, ofWord name = constant value) ∨ ofWord name = ofName name := by
  rw [ofWord]
  split
  · exact .inl ⟨_, rfl⟩
  · split
    · exact .inl ⟨_, rfl⟩
    · split
      · exact .inl ⟨_, rfl⟩
      · exact .inr rfl

end Children
end Node

/-- An invariant of expressions, by the level of an expression and the level that its chain of
links has reached. -/
structure ExprClosed (Q : Nat → Nat → Node → Prop) : Prop where
  joint {base level : Nat} {n : Node} (hn : n.isJoint = true)
    (h : ∀ c ∈ n.children, Q base level c) : Q base level n
  link {base level : Nat} {n : Node} (hn : n.isLink = true) (hb : base ≤ level)
    (h : ∀ c ∈ n.children, Q base level c) : Q base (level + 1) n
  grow {base level : Nat} {n : Node} (h : Q base level n) : Q base (level + 1) n
  lift {base level inner : Nat} {n : Node} (hb : base ≤ level) (hi : base ≤ inner)
    (h : Q inner inner n) : Q base level n
  whole {base level : Nat} {n : Node} (hb : base < level) (hl : level ≤ maxNesting)
    (h : Q (base + 1) level n) : Q base base n

structure ChainHolds (Q : Nat → Nat → Node → Prop) (base : Nat) (c : Chain) : Prop where
  base_le : base ≤ c.2
  le_max : c.2 ≤ maxNesting
  holds : Q base c.2 c.1

theorem forall_mem_some {P : Node → Prop} {n : Node} (h : P n) : ∀ m ∈ some n, P m := by
  rintro _ ⟨⟩
  exact h

structure TransOptions.All (P : Node → Prop) (options : TransOptions) : Prop where
  vars : ∀ n ∈ options.vars, P n
  domain : ∀ n ∈ options.domain, P n
  locale : ∀ n ∈ options.locale, P n

def ExprPart.Holds (Q : Nat → Nat → Node → Prop) : ExprPart → Prop
  | expression _ level e | primary level e | argument level e | entryKey level e => Q level level e
  | operand level c => level ≤ maxNesting → ChainHolds Q level c
  | operations _ left c | conditionals left c | links left c =>
    ∀ base, ChainHolds Q base left → ChainHolds Q base c
  | optionalArguments level arguments => ∀ n ∈ arguments.getD [], Q level level n
  | argumentList level ns | itemList level ns | entryList level ns | tagArguments level ns
  | expressionList level ns => ∀ n ∈ ns, Q level level n
  | transOptions level given options =>
    given.All (Q level level) → options.All (Q level level)
  | loopCondition level condition => ∀ n ∈ condition, Q level level n

namespace ExprClosed

variable {Q : Nat → Nat → Node → Prop} (hQ : ExprClosed Q) {base level inner : Nat}

include hQ

theorem body {ns : List Node} (h : ∀ n ∈ ns, Q base level n) : Q base level (.body ns) := by
  apply hQ.joint
  · rw [Node.body_eq]
    rfl
  · rwa [Node.children_body]

theorem leaf {n : Node} (hn : n.isJoint = true) (hc : n.children = []) : Q base level n :=
  hQ.joint hn (by simp [hc])

theorem ofWord (name : String) : Q base level (.ofWord name) := by
  rcases Node.ofWord_cases name with ⟨value, h⟩ | h <;> rw [h] <;> exact hQ.leaf rfl rfl

theorem unary (op : String) {e : Node} (h : Q base level e) : Q base level (.unary op e) :=
  hQ.joint rfl (List.forall_mem_singleton.2 h)

theorem namedArgument (name : String) {value : Node} (h : Q base level value) :
    Q base level (.namedArgument name value) :=
  hQ.joint rfl (List.forall_mem_singleton.2 h)

theorem call (name : String) {ns : List Node} (h : ∀ n ∈ ns, Q base level n) :
    Q base level (.call name ns) :=
  hQ.joint rfl (List.forall_mem_singleton.2 (hQ.body h))

theorem array {ns : List Node} (h : ∀ n ∈ ns, Q base level n) : Q base level (.array ns) := by
  apply hQ.joint
  · rw [Node.array_eq]
    rfl
  · rwa [Node.children_array]

theorem hash {ns : List Node} (h : ∀ n ∈ ns, Q base level n) : Q base level (.hash ns) := by
  apply hQ.joint
  · rw [Node.hash_eq]
    rfl
  · rwa [Node.children_hash]

variable {c : Chain}

theorem lift_inner (hc : ChainHolds Q base c) {n : Node} (h : Q (c.2 + 1) (c.2 + 1) n) :
    Q base c.2 n :=
  hQ.lift hc.base_le (Nat.le_succ_of_le hc.base_le) h

theorem lift_arguments (hc : ChainHolds Q base c) {arguments : Option (List Node)}
    (h : ∀ n ∈ arguments.getD [], Q (c.2 + 1) (c.2 + 1) n) :
    ∀ n ∈ (arguments.map Node.body).toList, Q base c.2 n := by
  cases arguments with
  | none => exact List.forall_mem_nil _
  | some ns => exact List.forall_mem_singleton.2 (hQ.body fun n hn => hQ.lift_inner hc (h n hn))

theorem test {name : String} {arguments : Option (List Node)} (hc : ChainHolds Q base c)
    (hl : c.2 < maxNesting) (ha : ∀ n ∈ arguments.getD [], Q (c.2 + 1) (c.2 + 1) n) :
    ChainHolds Q base (.test name c.1 arguments, c.2 + 1) := by
  refine ⟨Nat.le_succ_of_le hc.base_le, hl, hQ.grow (hQ.joint ?_ ?_)⟩
  · cases arguments <;> rfl
  · rw [Node.children_test]
    exact List.forall_mem_cons.2 ⟨hc.holds, hQ.lift_arguments hc ha⟩

theorem negated (op : String) (h : ChainHolds Q base c) : ChainHolds Q base (.unary op c.1, c.2) :=
  ⟨h.base_le, h.le_max, hQ.unary op h.holds⟩

theorem binary (op : String) {right : Node} (hc : ChainHolds Q base c) (hl : c.2 < maxNesting)
    (hr : Q (c.2 + 1) (c.2 + 1) right) :
    ChainHolds Q base (.binary op c.1 right, c.2 + 1) := by
  refine ⟨Nat.le_succ_of_le hc.base_le, hl, hQ.link rfl hc.base_le ?_⟩
  exact List.forall_mem_cons.2 ⟨hc.holds, List.forall_mem_singleton.2 (hQ.lift_inner hc hr)⟩

theorem conditional {yes no : Option Node} (hc : ChainHolds Q base c) (hl : c.2 < maxNesting)
    (hy : ∀ n ∈ yes, Q c.2 c.2 n) (hn : ∀ n ∈ no, Q c.2 c.2 n) :
    ChainHolds Q base (.conditional c.1 yes no, c.2 + 1) := by
  refine ⟨Nat.le_succ_of_le hc.base_le, hl, hQ.grow (hQ.joint ?_ ?_)⟩
  · cases yes <;> cases no <;> rfl
  · rw [Node.children_conditional]
    refine List.forall_mem_cons.2 ⟨hc.holds, ?_⟩
    intro n hm
    apply hQ.lift hc.base_le hc.base_le
    rw [List.mem_append, Option.mem_toList, Option.mem_toList] at hm
    exact hm.elim (hy n) (hn n)

theorem lookup (type : String) {key : Node} {arguments : Option (List Node)}
    (hc : ChainHolds Q base c) (hl : c.2 < maxNesting) (hk : Q (c.2 + 1) (c.2 + 1) key)
    (ha : ∀ n ∈ arguments.getD [], Q (c.2 + 1) (c.2 + 1) n) :
    ChainHolds Q base (.lookup type c.1 key arguments, c.2 + 1) := by
  refine ⟨Nat.le_succ_of_le hc.base_le, hl, hQ.link ?_ hc.base_le ?_⟩
  · cases arguments <;> rfl
  · rw [Node.children_lookup]
    exact List.forall_mem_cons.2
      ⟨hc.holds, List.forall_mem_cons.2 ⟨hQ.lift_inner hc hk, hQ.lift_arguments hc ha⟩⟩

theorem filter (name : String) {arguments : List Node} (hc : ChainHolds Q base c)
    (hl : c.2 < maxNesting) (ha : ∀ n ∈ arguments, Q (c.2 + 1) (c.2 + 1) n) :
    ChainHolds Q base (.filter c.1 name arguments, c.2 + 1) := by
  refine ⟨Nat.le_succ_of_le hc.base_le, hl, hQ.link rfl hc.base_le ?_⟩
  exact List.forall_mem_cons.2 ⟨hc.holds, fun n hn => hQ.lift_inner hc (ha n hn)⟩

theorem attributeKey {ts us : List Token} {key : Node}
    (h : Phrasebook.attributeKey ts = .ok (key, us)) : Q base level key := by
  rw [Phrasebook.attributeKey.eq_def] at h
  split at h
  · cases h
    exact hQ.leaf rfl rfl
  · cases h
    exact hQ.leaf rfl rfl
  · cases h

/-- The invariant holds of every part of an expression that the parser reads. -/
theorem holds_of_reads {p : ExprPart} {ts us : List Token} (h : p.Reads ts us) : p.Holds Q := by
  -- The level where a chain began stays the same along the chain, while its own level grows.
  induction h with
  | bounded _ hl _ _ ihf iho =>
    have hc := iho _ (ihf hl)
    exact hQ.whole hc.base_le hc.le_max hc.holds
  | whole hl _ _ _ ihf iho ihc =>
    have hc := ihc _ (iho _ (ihf hl))
    exact hQ.whole hc.base_le hc.le_max hc.holds
  | sign s _ ih => exact fun hl => ⟨Nat.le_refl _, hl, hQ.unary _ ih⟩
  | chain _ _ _ ihp ihl => exact fun hl => ihl _ ⟨Nat.le_refl _, hl, ihp⟩
  | operationsEnd | conditionalsEnd | linksEnd => exact fun _ hc => hc
  | test _ _ hl _ _ _ _ iha iho => exact fun base hc => iho base (hQ.test hc hl iha)
  | negatedTest _ _ hl _ _ _ _ iha iho =>
    exact fun base hc => iho base (hQ.negated "not" (hQ.test hc hl iha))
  | binary _ _ hl _ _ _ ihr iho => exact fun base hc => iho base (hQ.binary _ hc hl ihr)
  | fallback _ hl _ ihn ihc =>
    exact fun base hc => ihc base (hQ.conditional hc hl nofun (forall_mem_some ihn))
  | choice _ _ _ hl _ ihy ihn ihc =>
    exact fun base hc =>
      ihc base (hQ.conditional hc hl (forall_mem_some ihy) (forall_mem_some ihn))
  | guarded _ _ _ hl _ ihy ihc =>
    exact fun base hc => ihc base (hQ.conditional hc hl (forall_mem_some ihy) nofun)
  | word => exact hQ.ofWord _
  | number | str | strKey | nameKey | numberKey => exact hQ.leaf rfl rfl
  | call _ _ ih => exact hQ.call _ ih
  | array _ ih => exact hQ.array ih
  | hash _ ih => exact hQ.hash ih
  | group _ ih | groupKey _ ih | unnamed _ ih | someArguments _ ih => exact ih
  | member hl hk _ _ iha ihc =>
    exact fun base hc => ihc base (hQ.lookup _ hc hl (hQ.attributeKey hk) iha)
  | item hl _ _ ihk ihc =>
    exact fun base hc => ihc base (hQ.lookup _ hc hl ihk (List.forall_mem_nil _))
  | filter hl _ _ iha ihc => exact fun base hc => ihc base (hQ.filter _ hc hl iha)
  | noArguments | argumentsEnd | itemsEnd | entriesEnd | tagArgumentsEnd =>
    exact List.forall_mem_nil _
  | arguments _ _ iha iho | items _ _ iha iho | tagArgument _ _ iha iho | values _ _ iha iho =>
    exact List.forall_mem_cons.2 ⟨iha, iho⟩
  | lastArgument _ ih | lastItem _ ih | lastValue _ _ ih | lastComma _ _ ih =>
    exact List.forall_mem_singleton.2 ih
  | named _ ih => exact hQ.namedArgument _ ih
  | entries _ _ _ ihk ihv iho =>
    exact List.forall_mem_cons.2 ⟨ihk, List.forall_mem_cons.2 ⟨ihv, iho⟩⟩
  | lastEntry _ _ ihk ihv =>
    exact List.forall_mem_cons.2 ⟨ihk, List.forall_mem_singleton.2 ihv⟩
  | tagSeparator _ _ ih => exact ih
  | optionsEnd => exact id
  | vars _ _ ihe iho => exact fun hg => iho { hg with vars := forall_mem_some ihe }
  | domain _ _ ihe iho => exact fun hg => iho { hg with domain := forall_mem_some ihe }
  | locale _ _ ihe iho => exact fun hg => iho { hg with locale := forall_mem_some ihe }
  | noCondition => exact nofun
  | condition _ ih => exact forall_mem_some ih

end ExprClosed

/-- An invariant of statements, by their level, beside one of expressions. -/
structure StmtClosed (E S : Nat → Node → Prop) : Prop where
  ofExpr {level : Nat} {n : Node} (h : E level n) : S level n
  text (level : Nat) (data : String) : E level (.text data)
  print {level : Nat} {e : Node} (h : E level e) : S level (.print e)
  ofPrint {level : Nat} {e : Node} (h : S level (.print e)) : E level e
  trans {level : Nat} {content : Node} {domain vars count locale : Option Node}
    (h : ∀ c ∈ (Node.trans content domain vars count locale).children, E level c) :
    S level (.trans content domain vars count locale)
  joint {level : Nat} {n : Node} (hn : n.isJoint = true) (h : ∀ c ∈ n.children, S level c) :
    S level n
  rise {level : Nat} {n : Node} (h : S (level + 1) n) : S level n

def StmtPart.Holds (E S : Nat → Node → Prop) : StmtPart → Prop
  | statements level _ nodes _ => ∀ n ∈ nodes, S level n
  | block level _ nodes _ => ∀ n ∈ nodes, S level n
  | tag level _ node => S level node
  | transTag level _ count node => (∀ n ∈ count, E level n) → S level node
  | branches level condition tests otherwise =>
    E level condition → (∀ n ∈ tests, S level n) ∧ ∀ n ∈ otherwise, S level n
  | alternative level _ _ otherwise => ∀ n ∈ otherwise, S level n

theorem content_of_transBody {line : Nat} {nodes : List Node} {content : Node}
    (h : transBody line nodes = .ok content) :
    (∃ data, content = .text data) ∨ .print content ∈ nodes := by
  rw [transBody] at h
  split at h
  · cases h
    exact .inl ⟨_, rfl⟩
  · split at h
    · next e he =>
      cases h
      exact .inr (List.mem_of_mem_filter (he ▸ List.mem_singleton_self _))
    · cases h

namespace StmtClosed

variable {E S : Nat → Node → Prop} (hS : StmtClosed E S) {level : Nat}

include hS

theorem body {ns : List Node} (h : ∀ n ∈ ns, S level n) : S level (.body ns) := by
  apply hS.joint
  · rw [Node.body_eq]
    rfl
  · rwa [Node.children_body]

theorem ifTag {tests : List Node} {otherwise : Option Node} (ht : ∀ n ∈ tests, S level n)
    (ho : ∀ n ∈ otherwise, S level n) : S level (.ifTag tests otherwise) := by
  apply hS.joint
  · cases otherwise <;> rfl
  · rw [Stmt.children_ifTag]
    exact List.forall_mem_cons.2 ⟨hS.body ht, by simpa using ho⟩

theorem forTag {targets : LoopTargets} {sequence content : Node} {condition otherwise : Option Node}
    (hs : E level sequence) (hc : ∀ n ∈ condition, E level n) (hb : S level content)
    (ho : ∀ n ∈ otherwise, S level n) :
    S level (.forTag targets sequence condition content otherwise) := by
  apply hS.joint
  · obtain ⟨value, key⟩ := targets
    cases key <;> cases condition <;> cases otherwise <;> rfl
  · rw [Stmt.children_forTag]
    refine List.forall_mem_cons.2 ⟨hS.ofExpr hs, ?_⟩
    intro n hn
    rcases List.mem_append.1 hn with hn | hn
    · exact hS.ofExpr (hc n (Option.mem_toList.1 hn))
    · rcases List.mem_cons.1 hn with rfl | hn
      · exact hb
      · exact ho n (Option.mem_toList.1 hn)

theorem blockTag (name : String) {content : Node} (h : S level content) :
    S level (.blockTag name content) :=
  hS.joint rfl (List.forall_mem_singleton.2 h)

theorem setTag (names : List String) {ns : List Node} (h : ∀ n ∈ ns, S level n) :
    S level (.setTag names (.body ns)) := by
  have hnames : ∀ n ∈ names.map Node.ofName, S level n := by
    intro n hn
    obtain ⟨name, -, rfl⟩ := List.mem_map.1 hn
    exact hS.joint rfl nofun
  exact hS.joint rfl
    (List.forall_mem_cons.2 ⟨hS.body hnames, List.forall_mem_singleton.2 (hS.body h)⟩)

theorem tag (name : String) {arguments : List Node} {content : Option Node}
    (ha : ∀ n ∈ arguments, E level n) (hc : ∀ n ∈ content, S level n) :
    S level (.tag name arguments content) := by
  apply hS.joint
  · cases content <;> rfl
  · rw [Stmt.children_tag]
    refine List.forall_mem_cons.2 ⟨hS.body fun n hn => hS.ofExpr (ha n hn), ?_⟩
    simpa using hc

theorem transTag {line : Nat} {nodes : List Node} {content : Node} {count : Option Node}
    {options : TransOptions} (hm : transBody line nodes = .ok content)
    (hb : ∀ n ∈ nodes, S level n) (ho : options.All (E level)) (hn : ∀ n ∈ count, E level n) :
    S level (.trans content options.domain options.vars count options.locale) := by
  have hc : E level content := by
    rcases content_of_transBody hm with ⟨data, rfl⟩ | hp
    · exact hS.text level data
    · exact hS.ofPrint (hb _ hp)
  refine hS.trans (List.forall_mem_cons.2 ⟨hc, ?_⟩)
  intro n hm
  obtain ⟨o, hm, rfl⟩ := List.mem_filterMap.1 hm
  simp only [List.mem_cons, List.not_mem_nil, or_false] at hm
  rcases hm with hm | hm | hm | hm
  · exact ho.domain n hm.symm
  · exact ho.vars n hm.symm
  · exact hn n hm.symm
  · exact ho.locale n hm.symm

end StmtClosed

theorem StmtClosed.holds_of_reads {Q : Nat → Nat → Node → Prop} {S : Nat → Node → Prop}
    (hQ : ExprClosed Q) (hS : StmtClosed (fun level => Q level level) S) {p : StmtPart}
    {ts us : List Token} (h : p.Reads ts us) : p.Holds (fun level => Q level level) S := by
  induction h with
  | eof | close => exact List.forall_mem_nil _
  | text _ ih => exact List.forall_mem_cons.2 ⟨hS.ofExpr (hS.text _ _), ih⟩
  | print he _ ih => exact List.forall_mem_cons.2 ⟨hS.print (hQ.holds_of_reads he), ih⟩
  | tag _ _ _ iht ihs => exact List.forall_mem_cons.2 ⟨iht, ihs⟩
  | block _ _ ih => exact fun n hn => hS.rise (ih n hn)
  | trans _ ih => exact ih nofun
  | transChoice hc _ ih => exact ih (forall_mem_some (hQ.holds_of_reads hc))
  | ifTag hc _ ih =>
    obtain ⟨ht, ho⟩ := ih (hQ.holds_of_reads hc)
    exact hS.ifTag ht ho
  | forTag _ hs hc _ _ _ ihb iho =>
    exact hS.forTag (hQ.holds_of_reads hs) (hQ.holds_of_reads hc) (hS.body ihb) iho
  | blockBody _ _ ih => exact hS.blockTag _ (hS.body ih)
  | blockValue _ he =>
    exact hS.blockTag _ (hS.body (List.forall_mem_singleton.2 (hS.print (hQ.holds_of_reads he))))
  | setValues _ hv => exact hS.setTag _ fun n hn => hS.ofExpr (hQ.holds_of_reads hv n hn)
  | setBody _ _ _ ih => exact hS.setTag _ ih
  | paired _ ha _ _ ih =>
    exact hS.tag _ (hQ.holds_of_reads ha) (forall_mem_some (hS.body ih))
  | loose _ _ ha => exact hS.tag _ (hQ.holds_of_reads ha) nofun
  | transTag ho _ _ hm ih =>
    exact fun hn => hS.transTag hm ih (hQ.holds_of_reads ho ⟨nofun, nofun, nofun⟩) hn
  | elseif _ hn _ ihb ihr =>
    intro hc
    obtain ⟨ht, ho⟩ := ihr (hQ.holds_of_reads hn)
    exact ⟨List.forall_mem_cons.2 ⟨hS.ofExpr hc, List.forall_mem_cons.2 ⟨hS.body ihb, ht⟩⟩, ho⟩
  | lastBranch _ _ _ _ ihb iho =>
    intro hc
    exact ⟨List.forall_mem_cons.2 ⟨hS.ofExpr hc, List.forall_mem_singleton.2 (hS.body ihb)⟩, iho⟩
  | noElse => exact nofun
  | someElse _ ih => exact forall_mem_some (hS.body ih)

/-- The invariant holds of the tree of a template. -/
theorem StmtClosed.holds_of_parseTokens {Q : Nat → Nat → Node → Prop} {S : Nat → Node → Prop}
    (hQ : ExprClosed Q) (hS : StmtClosed (fun level => Q level level) S) {ts : List Token}
    {tree : Node} (h : parseTokens ts = .ok tree) : S 1 tree := by
  obtain ⟨nodes, us, hr, rfl⟩ := parseTokens_reads h
  exact hS.joint rfl (List.forall_mem_singleton.2 (hS.body (holds_of_reads hQ hS hr)))

end Phrasebook
