import Mathlib.Data.List.Forall2
import Phrasebook.Proofs.Template.TagGroups

/-!
Nesting of block tags. The tags of a template are followed with a stack of the open ones, and what
stands directly inside each of them is noted.
-/
namespace Phrasebook

/-- What a template is made of outside of its tags' words: texts, prints and block tags. -/
inductive Mark
  | text (data : String)
  | print
  | tag (words : List TokenKind)
  deriving DecidableEq, Repr

def tagWords (ts : List Token) : List TokenKind :=
  (ts.map Token.kind).takeWhile (· != .tagEnd .block)

def marks : List Token → List Mark
  | [] => []
  | t :: ts =>
    match t.kind with
    | .text data => .text data :: marks ts
    | .tagStart .print => .print :: marks ts
    | .tagStart .block => .tag (tagWords ts) :: marks ts
    | _ => marks ts

namespace Mark

def name? : Mark → Option String
  | tag (.name name :: _) => some name
  | _ => none

def isText : Mark → Bool
  | text _ => true
  | _ => false

def isBlank : Mark → Bool
  | text data => data.toList.all Phrasebook.isBlank
  | _ => false

/-- Whether marks make up a message: some texts and nothing else, or one print with nothing but
blanks around it. -/
def isMessage (ms : List Mark) : Bool :=
  (!ms.isEmpty && ms.all isText) || ms.filter (!·.isBlank) == [print]

end Mark

/-- Whether a tag stays open until its closing tag, by its name and its other words. -/
def staysOpen (name : String) (words : List TokenKind) : Bool :=
  if name = "block" then words.length == 1
  else if name = "set" then .punctuation '=' ∉ words
  else name ∈ ["trans", "transchoice", "if", "for"] ++ pairedTags

/-- A tag that is still open, and what has come directly inside it. -/
structure OpenTag where
  name : String
  inside : List Mark
  deriving DecidableEq, Repr

namespace OpenTag

/-- A tag is closed by its own closing tag, a translation only when a message is in it. -/
def closedBy (top : OpenTag) (name : String) : Bool :=
  name == "end" ++ top.name &&
    (!(top.name == "trans" || top.name == "transchoice") || Mark.isMessage top.inside)

/-- Branches go on in a conditional, and the last one in a loop, unless there was a last one. -/
def continuedBy (top : OpenTag) (name : String) : Bool :=
  (top.name == "if" || top.name == "for" && name == "else") &&
    top.inside.all (·.name? != some "else")

def note (ms : List Mark) : List OpenTag → List OpenTag
  | [] => []
  | top :: outer => { top with inside := top.inside ++ ms } :: outer

/-- Follows the open tags, the innermost first. There are none when a tag is out of place. -/
def step (open_ : List OpenTag) : Mark → Option (List OpenTag)
  | .tag (.name name :: words) =>
    let noted := note [.tag (.name name :: words)] open_
    if startsWith "end" name.toList then
      match open_ with
      | [] => none
      | top :: outer => if top.closedBy name then some outer else none
    else if name = "else" ∨ name = "elseif" then
      match open_ with
      | [] => none
      | top :: _ => if top.continuedBy name then some noted else none
    else some (if staysOpen name words then ⟨name, []⟩ :: noted else noted)
  | .tag _ => none
  | m => some (note [m] open_)

def run (open_ : List OpenTag) (ms : List Mark) : Option (List OpenTag) := ms.foldlM step open_

end OpenTag

/-- Every closing tag closes the last open tag and none is left open. -/
def WellNested (ms : List Mark) : Prop := OpenTag.run [] ms = some []

instance : DecidablePred WellNested := fun ms =>
  inferInstanceAs (Decidable (OpenTag.run [] ms = some []))

example : ¬WellNested [.tag [.name "if"], .tag [.name "for"], .tag [.name "endif"],
    .tag [.name "endfor"]] := by decide

theorem marks_of_wordsTo {ts us : List Token} (h : WordsTo ts us) : marks ts = marks us := by
  obtain ⟨ws, hw, rfl⟩ := h
  induction ws with
  | nil => rfl
  | cons w ws ih =>
    obtain ⟨hw, hws⟩ := List.forall_mem_cons.1 hw
    rw [List.cons_append, marks]
    obtain ⟨k, line⟩ := w
    cases k with
    | name | number | str | operator | punctuation => exact ih hws
    | text | tagStart | tagEnd | eof => cases hw

theorem bne_of_isWord {k : TokenKind} (h : k.isWord = true) : (k != .tagEnd .block) = true := by
  cases k with
  | name | number | str | operator | punctuation => rfl
  | text | tagStart | tagEnd | eof => cases h

theorem tagWords_append {ws us : List Token} {line : Nat} (hw : ∀ w ∈ ws, w.kind.isWord = true) :
    tagWords (ws ++ ⟨.tagEnd .block, line⟩ :: us) = ws.map Token.kind := by
  rw [tagWords, List.map_append, List.takeWhile_append_of_pos, List.map_cons,
    List.takeWhile_cons_of_neg, List.append_nil]
  · simp
  · intro k hk
    obtain ⟨w, hm, rfl⟩ := List.mem_map.1 hk
    exact bne_of_isWord (hw w hm)

namespace OpenTag

theorem run_cons (open_ : List OpenTag) (m : Mark) (ms : List Mark) :
    run open_ (m :: ms) = (step open_ m).bind (run · ms) := rfl

@[simp] theorem note_nil (open_ : List OpenTag) : note [] open_ = open_ := by
  cases open_ with
  | nil => rfl
  | cons top outer => rw [note, List.append_nil]

theorem note_note (ms ms' : List Mark) (open_ : List OpenTag) :
    note ms' (note ms open_) = note (ms ++ ms') open_ := by
  cases open_ with
  | nil => rfl
  | cons top outer => rw [note, note, note, List.append_assoc]

theorem startsWith_end (name : String) : startsWith "end" ("end" ++ name).toList = true := by
  rw [startsWith, String.toList_append]
  exact List.isPrefixOf_iff_prefix.2 (List.prefix_append _ _)

theorem step_closing {name : String} {inside : List Mark} {words : List TokenKind}
    (h : name = "trans" ∨ name = "transchoice" → Mark.isMessage inside = true)
    (outer : List OpenTag) :
    step (⟨name, inside⟩ :: outer) (.tag (.name ("end" ++ name) :: words)) = some outer := by
  have hc : closedBy ⟨name, inside⟩ ("end" ++ name) = true := by
    rw [closedBy, beq_self_eq_true, Bool.true_and, Bool.or_eq_true_iff, Bool.not_eq_true',
      ← Bool.not_eq_true, Bool.or_eq_true_iff, beq_iff_eq, beq_iff_eq]
    exact Decidable.not_or_of_imp h
  rw [step, if_pos (startsWith_end name)]
  exact if_pos hc

theorem step_continuation {top : OpenTag} {name : String} {words : List TokenKind}
    (hn : name = "else" ∨ name = "elseif") (h : top.continuedBy name = true)
    (outer : List OpenTag) :
    step (top :: outer) (.tag (.name name :: words)) =
      some (note [.tag (.name name :: words)] (top :: outer)) := by
  have he : ¬startsWith "end" name.toList = true := by
    rcases hn with rfl | rfl <;> decide
  rw [step, if_neg he, if_pos hn]
  exact if_pos h

theorem step_other {name : String} (h : isContinuation name = false) (words : List TokenKind)
    (open_ : List OpenTag) :
    step open_ (.tag (.name name :: words)) =
      some (if staysOpen name words then ⟨name, []⟩ :: note [.tag (.name name :: words)] open_
        else note [.tag (.name name :: words)] open_) := by
  rw [isContinuation, Bool.or_eq_false_iff, Bool.or_eq_false_iff, beq_eq_false_iff_ne,
    beq_eq_false_iff_ne] at h
  rw [step.eq_def]
  dsimp only
  rw [if_neg (Bool.eq_false_iff.1 h.2), if_neg (not_or.2 h.1)]

end OpenTag

def Node.isTag : Node → Bool
  | trans .. | generic .. => true
  | print _ | filter .. | constant _ | text _ => false

inductive Shows : Node → Mark → Prop
  | text (data : String) : Shows (.text data) (.text data)
  | print (e : Node) : Shows (.print e) .print
  | tag {n : Node} {name : String} {words : List TokenKind} (hn : n.isTag = true)
      (hc : isContinuation name = false) : Shows n (.tag (.name name :: words))

theorem Shows.isText_eq {n : Node} {m : Mark} (h : Shows n m) : isText n = m.isText := by
  cases h with
  | text | print => rfl
  | tag hn =>
    cases n with
    | trans | generic => rfl
    | _ => cases hn

theorem Shows.isBlank_eq {n : Node} {m : Mark} (h : Shows n m) : isBlankText n = m.isBlank := by
  cases h with
  | text | print => rfl
  | tag hn =>
    cases n with
    | trans | generic => rfl
    | _ => cases hn

theorem all_isText_of_shows {ns : List Node} {ms : List Mark} (h : List.Forall₂ Shows ns ms) :
    ns.all isText = ms.all Mark.isText := by
  induction h with
  | nil => rfl
  | cons hn _ ih => rw [List.all_cons, List.all_cons, hn.isText_eq, ih]

theorem isMessage_of_transBody {line : Nat} {ns : List Node} {ms : List Mark} {content : Node}
    (h : transBody line ns = .ok content) (hs : List.Forall₂ Shows ns ms) :
    Mark.isMessage ms = true := by
  rw [transBody] at h
  rw [Mark.isMessage, Bool.or_eq_true_iff]
  split at h
  · next ht =>
    left
    rw [← all_isText_of_shows hs]
    cases hs with
    | nil => exact ht
    | cons => exact ht
  · split at h
    · next e he =>
      right
      have hf := List.rel_filter (p := fun n => !isBlankText n) (q := fun m => !m.isBlank)
        (fun n m hn => by simp only [hn.isBlank_eq]) hs
      rw [he] at hf
      generalize ms.filter (fun m => !m.isBlank) = kept at hf
      cases hf with
      | cons hp ht =>
        cases ht
        cases hp with
        | print => rfl
        | tag hn => cases hn
    · cases h

def NoElse (ms : List Mark) : Prop := ∀ m ∈ ms, m.name? ≠ some "else"

theorem NoElse.nil : NoElse [] := by simp [NoElse]

theorem NoElse.append {ms ms' : List Mark} (h : NoElse ms) (h' : NoElse ms') :
    NoElse (ms ++ ms') := by
  intro m hm
  exact (List.mem_append.1 hm).elim (h m) (h' m)

theorem NoElse.of_shows {ns : List Node} {ms : List Mark} (h : List.Forall₂ Shows ns ms) :
    NoElse ms := by
  induction h with
  | nil => exact .nil
  | cons hn _ ih =>
    refine List.forall_mem_cons.2 ⟨?_, ih⟩
    cases hn with
    | text | print => nofun
    | tag _ hc =>
      rintro ⟨⟩
      revert hc
      decide

/-- What is left when statements have been read up to a closing tag: that tag and all behind it. -/
def behind : Option String → List Token → List Mark
  | none, _ => []
  | some name, ts => .tag (.name name :: tagWords ts) :: marks ts

/-- The marks between the tokens `ts` and `us` are those of a part in its place. -/
def StmtPart.Nests (ts us : List Token) : StmtPart → Prop
  | statements _ _ nodes close | block _ _ nodes close =>
    Grouped none ts → Grouped (close.map fun _ => .block) us ∧
      ∃ ms, List.Forall₂ Shows nodes ms ∧
        ∀ open_, OpenTag.run open_ (marks ts) =
          OpenTag.run (OpenTag.note ms open_) (behind close us)
  | tag _ name node =>
    Grouped (some .block) ts → Grouped none us ∧ Shows node (.tag (.name name :: tagWords ts)) ∧
      ∀ open_, OpenTag.run open_ (behind (some name) ts) =
        OpenTag.run (OpenTag.note [.tag (.name name :: tagWords ts)] open_) (marks us)
  | transTag _ closing _ node =>
    Grouped (some .block) ts → Grouped none us ∧ node.isTag = true ∧
      ∀ name, closing = "end" ++ name → ∀ open_,
        OpenTag.run (⟨name, []⟩ :: open_) (marks ts) = OpenTag.run open_ (marks us)
  | branches .. =>
    Grouped none ts → Grouped none us ∧ ∀ inside, NoElse inside → ∀ open_,
      OpenTag.run (⟨"if", inside⟩ :: open_) (marks ts) = OpenTag.run open_ (marks us)
  | alternative _ close closing _ =>
    ∀ name, name = "if" ∨ name = "for" → closing = "end" ++ name →
      close = some "else" ∨ close = some closing → Grouped (some .block) ts →
      Grouped (some .block) us ∧ ∀ inside, NoElse inside → ∀ open_, ∃ inside',
        OpenTag.run (⟨name, inside⟩ :: open_) (behind close ts) =
          OpenTag.run (⟨name, inside'⟩ :: open_) (behind (some closing) us)

theorem tagWords_name (name : String) (line : Nat) (ts : List Token) :
    tagWords (⟨.name name, line⟩ :: ts) = .name name :: tagWords ts := by
  simp [tagWords]

theorem marks_blockStart (name : String) (line line' : Nat) (ts : List Token) :
    marks (⟨.tagStart .block, line⟩ :: ⟨.name name, line'⟩ :: ts) = behind (some name) ts := by
  rw [behind, ← tagWords_name name line']
  rfl

theorem Grouped.of_blockStart {name : String} {line line' : Nat} {ts : List Token}
    (h : Grouped none (⟨.tagStart .block, line⟩ :: ⟨.name name, line'⟩ :: ts)) :
    Grouped (some .block) ts := by
  cases h with
  | opening h =>
    cases h with
    | word _ h => exact h

theorem marks_of_tagEnd {kind : TagKind} {line : Nat} {ts us : List Token}
    (h : WordsTo ts (⟨.tagEnd kind, line⟩ :: us)) (hg : Grouped (some kind) ts) :
    Grouped none us ∧ marks ts = marks us := by
  cases h.grouped hg with
  | word ht => cases ht
  | closing hu => exact ⟨hu, (marks_of_wordsTo h).trans rfl⟩

theorem marks_of_closeTag {ts us : List Token} (h : closeTag ts = .ok us)
    (hg : Grouped (some .block) ts) : Grouped none us ∧ marks ts = marks us := by
  obtain ⟨line, hw⟩ := WordsTo.closeTag h hg
  exact marks_of_tagEnd hw hg

theorem exists_words_of_setNames {names : List String} {ts us : List Token}
    (h : setNames ts = .ok (names, us)) :
    ∃ ws, (∀ w ∈ ws, w.kind.isWord = true ∧ w.kind ≠ .punctuation '=') ∧ ts = ws ++ us := by
  fun_induction setNames ts generalizing names with
  | case1 name line line' ts ih =>
    obtain ⟨⟨others, vs⟩, ho, h⟩ := ok_of_bind h
    cases h
    obtain ⟨ws, hw, rfl⟩ := ih ho
    exact ⟨⟨.name name, line⟩ :: ⟨.punctuation ',', line'⟩ :: ws,
      by simp_all [TokenKind.isWord], rfl⟩
  | case2 name line =>
    cases h
    exact ⟨[⟨.name name, line⟩], by simp [TokenKind.isWord], rfl⟩
  | case3 => cases h

theorem staysOpen_of_mem {name : String}
    (h : name ∈ ["trans", "transchoice", "if", "for"] ++ pairedTags) (words : List TokenKind) :
    staysOpen name words = true := by
  have hb : name ≠ "block" := by
    rintro rfl
    revert h
    decide
  have hs : name ≠ "set" := by
    rintro rfl
    revert h
    decide
  rw [staysOpen, if_neg hb, if_neg hs]
  exact decide_eq_true h

theorem isContinuation_of_mem {name : String} (h : name ∈ pairedTags) :
    isContinuation name = false := by
  revert name
  decide

namespace StmtPart

open OpenTag

variable {level line : Nat} {name : String} {nodes : List Node} {close : Option String}
  {ts us vs : List Token}

theorem run_behind_closing {closing : String} {inside : List Mark} (hn : closing = "end" ++ name)
    (h : closeTag ts = .ok us) (hg : Grouped (some .block) ts)
    (hm : name = "trans" ∨ name = "transchoice" → Mark.isMessage inside = true)
    (outer : List OpenTag) :
    run (⟨name, inside⟩ :: outer) (behind (some closing) ts) = run outer (marks us) := by
  subst hn
  rw [behind, run_cons, step_closing hm, (marks_of_closeTag h hg).2]
  rfl

theorem run_behind_continuation {top : OpenTag} (hn : name = "else" ∨ name = "elseif")
    (h : top.continuedBy name = true) (outer : List OpenTag) :
    run (top :: outer) (behind (some name) ts) =
      run (note [.tag (.name name :: tagWords ts)] (top :: outer)) (marks ts) := by
  rw [behind, run_cons, step_continuation hn h]
  rfl

theorem run_behind_opening (hc : isContinuation name = false)
    (ho : staysOpen name (tagWords ts) = true) (open_ : List OpenTag) :
    run open_ (behind (some name) ts) =
      run (⟨name, []⟩ :: note [.tag (.name name :: tagWords ts)] open_) (marks ts) := by
  rw [behind, run_cons, step_other hc, if_pos ho]
  rfl

theorem run_behind_loose (hc : isContinuation name = false)
    (ho : staysOpen name (tagWords ts) = false) (open_ : List OpenTag) :
    run open_ (behind (some name) ts) =
      run (note [.tag (.name name :: tagWords ts)] open_) (marks ts) := by
  rw [behind, run_cons, step_other hc, if_neg (Bool.eq_false_iff.1 ho)]
  rfl

theorem nests_body {closing : String} (hr : Reads (.block level [closing] nodes close) ts us)
    (hb : Nests ts us (.block level [closing] nodes close)) (hc : closeTag us = .ok vs)
    (hg : Grouped none ts) :
    Grouped none vs ∧ ∃ ms, List.Forall₂ Shows nodes ms ∧ ∀ name, closing = "end" ++ name →
      (name = "trans" ∨ name = "transchoice" → Mark.isMessage ms = true) → ∀ open_,
        run (⟨name, []⟩ :: open_) (marks ts) = run open_ (marks vs) := by
  obtain ⟨other, ho, rfl⟩ := hr.close_mem_of_block (List.mem_singleton_self _)
  cases List.mem_singleton.1 ho
  obtain ⟨hu, ms, hs, hm⟩ := hb hg
  refine ⟨(marks_of_closeTag hc hu).1, ms, hs, ?_⟩
  intro name hn ht open_
  rw [hm, note, List.nil_append, run_behind_closing hn hc hu ht]

theorem nests_eof (h : (current ts).kind = .eof) : Nests ts ts (.statements level [] [] none) := by
  intro hg
  refine ⟨hg, [], .nil, ?_⟩
  intro open_
  rw [note_nil]
  cases hg with
  | eof => rfl
  | text | opening => cases h

theorem nests_text {data : String} {closing : List String}
    (ih : Nests ts us (.statements level closing nodes close)) :
    Nests (⟨.text data, line⟩ :: ts) us
      (.statements level closing (.text data :: nodes) close) := by
  intro hg
  cases hg with
  | text _ hg =>
    obtain ⟨hu, ms, hs, hm⟩ := ih hg
    refine ⟨hu, .text data :: ms, .cons (.text data) hs, ?_⟩
    intro open_
    exact (hm (note [.text data] open_)).trans (by rw [note_note]; rfl)

theorem nests_print {line' : Nat} {e : Node} {closing : List String}
    (he : ExprPart.Reads (.expression 0 level e) ts (⟨.tagEnd .print, line'⟩ :: us))
    (ih : Nests us vs (.statements level closing nodes close)) :
    Nests (⟨.tagStart .print, line⟩ :: ts) vs
      (.statements level closing (.print e :: nodes) close) := by
  intro hg
  cases hg with
  | opening hg =>
    obtain ⟨hu, he⟩ := marks_of_tagEnd he.wordsTo hg
    obtain ⟨hv, ms, hs, hm⟩ := ih hu
    refine ⟨hv, .print :: ms, .cons (.print e) hs, ?_⟩
    intro open_
    rw [← he] at hm
    exact (hm (note [.print] open_)).trans (by rw [note_note]; rfl)

theorem nests_tag {line' : Nat} {node : Node} {closing : List String}
    (iht : Nests ts us (.tag level name node))
    (ihs : Nests us vs (.statements level closing nodes close)) :
    Nests (⟨.tagStart .block, line⟩ :: ⟨.name name, line'⟩ :: ts) vs
      (.statements level closing (node :: nodes) close) := by
  intro hg
  obtain ⟨hu, hn, hm⟩ := iht hg.of_blockStart
  obtain ⟨hv, ms, hs, hm'⟩ := ihs hu
  refine ⟨hv, _ :: ms, .cons hn hs, ?_⟩
  intro open_
  rw [marks_blockStart, hm, hm', note_note]
  rfl

theorem nests_transTag {closing : String} {start : Nat} {count : Option Node}
    {options : TransOptions} {content : Node} {ws : List Token}
    (ho : ExprPart.Reads (.transOptions level {} options) ts (⟨.tagEnd .block, line⟩ :: us))
    (hb : Reads (.block level [closing] nodes close) us vs)
    (ih : Nests us vs (.block level [closing] nodes close)) (hc : closeTag vs = .ok ws)
    (hm : transBody start nodes = .ok content) :
    Nests ts ws (.transTag level closing count
      (.trans content options.domain options.vars count options.locale)) := by
  intro hg
  obtain ⟨hu, he⟩ := marks_of_tagEnd ho.wordsTo hg
  obtain ⟨hw, ms, hs, hr⟩ := nests_body hb ih hc hu
  refine ⟨hw, rfl, ?_⟩
  intro name hn open_
  rw [he, hr name hn (fun _ => isMessage_of_transBody hm hs)]

theorem nests_transChoice {count node : Node}
    (hc : ExprPart.Reads (.expression 0 level count) ts us)
    (ih : Nests us vs (.transTag level "endtranschoice" (some count) node)) :
    Nests ts vs (.tag level "transchoice" node) := by
  intro hg
  obtain ⟨hv, hn, hm⟩ := ih (hc.wordsTo.grouped hg)
  refine ⟨hv, .tag hn (by decide), ?_⟩
  intro open_
  rw [run_behind_opening (by decide) (staysOpen_of_mem (by decide) _),
    marks_of_wordsTo hc.wordsTo, hm "transchoice" rfl]

theorem nests_ifTag {condition : Node} {tests : List Node} {otherwise : Option Node}
    (hc : ExprPart.Reads (.expression 0 level condition) ts (⟨.tagEnd .block, line⟩ :: us))
    (ih : Nests us vs (.branches level condition tests otherwise)) :
    Nests ts vs (.tag level "if" (.ifTag tests otherwise)) := by
  intro hg
  obtain ⟨hu, he⟩ := marks_of_tagEnd hc.wordsTo hg
  obtain ⟨hv, hm⟩ := ih hu
  refine ⟨hv, .tag rfl (by decide), ?_⟩
  intro open_
  rw [run_behind_opening (by decide) (staysOpen_of_mem (by decide) _), he, hm [] .nil]

theorem isTag_forTag (targets : LoopTargets) (sequence : Node) (condition : Option Node)
    (content : Node) (otherwise : Option Node) :
    (Node.forTag targets sequence condition content otherwise).isTag = true := by
  obtain ⟨value, key⟩ := targets
  cases key <;> rfl

theorem nests_forTag {targets : LoopTargets} {sequence : Node}
    {condition otherwise : Option Node} {ws xs ys zs : List Token}
    (ht : loopTargets ts = .ok (targets, us))
    (hs : ExprPart.Reads (.expression 0 level sequence) us vs)
    (hc : ExprPart.Reads (.loopCondition level condition) vs (⟨.tagEnd .block, line⟩ :: ws))
    (hb : Reads (.block level ["else", "endfor"] nodes close) ws xs)
    (ihb : Nests ws xs (.block level ["else", "endfor"] nodes close))
    (iho : Nests xs ys (.alternative level close "endfor" otherwise))
    (hz : closeTag ys = .ok zs) :
    Nests ts zs
      (.tag level "for" (.forTag targets sequence condition (.body nodes) otherwise)) := by
  intro hg
  have hw : WordsTo ts (⟨.tagEnd .block, line⟩ :: ws) :=
    (WordsTo.loopTargets ht).trans (hs.wordsTo.trans hc.wordsTo)
  obtain ⟨hw, he⟩ := marks_of_tagEnd hw hg
  obtain ⟨hx, ms, hs, hm⟩ := ihb hw
  obtain ⟨other, ho, rfl⟩ := hb.close_mem_of_block (List.mem_cons_self ..)
  obtain ⟨hy, hm'⟩ := iho "for" (.inr rfl) rfl (by simpa using ho) hx
  refine ⟨(marks_of_closeTag hz hy).1, .tag (isTag_forTag ..) (by decide), ?_⟩
  intro open_
  obtain ⟨inside, hi⟩ := hm' ms (.of_shows hs) (note [.tag (.name "for" :: tagWords ts)] open_)
  rw [run_behind_opening (by decide) (staysOpen_of_mem (by decide) _), he, hm, note,
    List.nil_append, hi]
  exact run_behind_closing rfl hz hy (by simp) _

theorem nests_blockBody {line' : Nat}
    (hb : Reads (.block level ["endblock"] nodes close) ts us)
    (ih : Nests ts us (.block level ["endblock"] nodes close)) (hc : closeTag us = .ok vs) :
    Nests (⟨.name name, line⟩ :: ⟨.tagEnd .block, line'⟩ :: ts) vs
      (.tag level "block" (.blockTag name (.body nodes))) := by
  intro hg
  obtain ⟨hg, he⟩ := marks_of_tagEnd (.single rfl) hg
  obtain ⟨hv, ms, -, hm⟩ := nests_body hb ih hc hg
  refine ⟨hv, .tag rfl (by decide), ?_⟩
  intro open_
  have ho : staysOpen "block" (tagWords (⟨.name name, line⟩ :: ⟨.tagEnd .block, line'⟩ :: ts)) =
      true := by
    simp [tagWords, staysOpen]
  rw [run_behind_opening (by decide) ho, he, hm "block" rfl (by simp)]

theorem nests_blockValue {line' : Nat} {e : Node} (h : (current ts).kind ≠ .tagEnd .block)
    (he : ExprPart.Reads (.expression 0 level e) ts (⟨.tagEnd .block, line'⟩ :: us)) :
    Nests (⟨.name name, line⟩ :: ts) us
      (.tag level "block" (.blockTag name (.body [.print e]))) := by
  intro hg
  obtain ⟨hu, hm⟩ := marks_of_tagEnd (.cons rfl he.wordsTo) hg
  refine ⟨hu, .tag rfl (by decide), ?_⟩
  intro open_
  have ho : staysOpen "block" (tagWords (⟨.name name, line⟩ :: ts)) = false := by
    obtain ⟨ws, hw, rfl⟩ := he.wordsTo
    cases ws with
    | nil => exact absurd rfl h
    | cons w ws =>
      rw [tagWords_name, tagWords_append hw]
      rfl
  rw [run_behind_loose (by decide) ho, hm]

theorem nests_setValues {names : List String} {values : List Node} {line' : Nat}
    (hn : setNames ts = .ok (names, ⟨.punctuation '=', line⟩ :: us))
    (hv : ExprPart.Reads (.expressionList level values) us (⟨.tagEnd .block, line'⟩ :: vs)) :
    Nests ts vs (.tag level "set" (.setTag names (.body values))) := by
  intro hg
  obtain ⟨ws, hw, rfl⟩ := exists_words_of_setNames hn
  obtain ⟨xs, hx, rfl⟩ := hv.wordsTo
  have hws : ∀ w ∈ ws ++ ⟨.punctuation '=', line⟩ :: xs, w.kind.isWord = true := by
    intro w hm
    rcases List.mem_append.1 hm with hm | hm
    · exact (hw w hm).1
    · rcases List.mem_cons.1 hm with rfl | hm
      · rfl
      · exact hx w hm
  rw [← List.cons_append, ← List.append_assoc] at hg ⊢
  obtain ⟨hu, hm⟩ := marks_of_tagEnd ⟨_, hws, rfl⟩ hg
  refine ⟨hu, .tag rfl (by decide), ?_⟩
  intro open_
  have ho : staysOpen "set"
      (tagWords (ws ++ ⟨.punctuation '=', line⟩ :: xs ++ ⟨.tagEnd .block, line'⟩ :: vs)) =
        false := by
    rw [tagWords_append hws]
    simp [staysOpen]
  rw [run_behind_loose (by decide) ho, hm]

theorem nests_setBody {names : List String} {ws : List Token}
    (hn : setNames ts = .ok (names, ⟨.tagEnd .block, line⟩ :: us))
    (hb : Reads (.block level ["endset"] nodes close) us vs)
    (ih : Nests us vs (.block level ["endset"] nodes close)) (hc : closeTag vs = .ok ws) :
    Nests ts ws (.tag level "set" (.setTag names (.body nodes))) := by
  intro hg
  obtain ⟨xs, hx, rfl⟩ := exists_words_of_setNames hn
  have hxs : ∀ w ∈ xs, w.kind.isWord = true := fun w hm => (hx w hm).1
  obtain ⟨hu, he⟩ := marks_of_tagEnd ⟨xs, hxs, rfl⟩ hg
  obtain ⟨hv, ms, -, hm⟩ := nests_body hb ih hc hu
  refine ⟨hv, .tag rfl (by decide), ?_⟩
  intro open_
  have ho : staysOpen "set" (tagWords (xs ++ ⟨.tagEnd .block, line⟩ :: us)) = true := by
    rw [tagWords_append hxs]
    simpa [staysOpen] using fun w hm => (hx w hm).2
  rw [run_behind_opening (by decide) ho, he, hm "set" rfl (by simp)]

theorem nests_paired {arguments : List Node} {ws : List Token} (h : name ∈ pairedTags)
    (ha : ExprPart.Reads (.tagArguments level arguments) ts (⟨.tagEnd .block, line⟩ :: us))
    (hb : Reads (.block level ["end" ++ name] nodes close) us vs)
    (ih : Nests us vs (.block level ["end" ++ name] nodes close)) (hc : closeTag vs = .ok ws) :
    Nests ts ws (.tag level name (.tag name arguments (some (.body nodes)))) := by
  intro hg
  obtain ⟨hu, he⟩ := marks_of_tagEnd ha.wordsTo hg
  obtain ⟨hv, ms, -, hm⟩ := nests_body hb ih hc hu
  refine ⟨hv, .tag rfl (isContinuation_of_mem h), ?_⟩
  intro open_
  have ht : ¬(name = "trans" ∨ name = "transchoice") := by
    rintro (rfl | rfl) <;> exact absurd h (by decide)
  rw [run_behind_opening (isContinuation_of_mem h)
    (staysOpen_of_mem (List.mem_append_right _ h) _), he, hm name rfl (absurd · ht)]

theorem nests_loose {arguments : List Node}
    (h : name ∉ ["trans", "transchoice", "if", "for", "block", "set"] ++ pairedTags)
    (hc : isContinuation name = false)
    (ha : ExprPart.Reads (.tagArguments level arguments) ts (⟨.tagEnd .block, line⟩ :: us)) :
    Nests ts us (.tag level name (.tag name arguments none)) := by
  intro hg
  obtain ⟨hu, he⟩ := marks_of_tagEnd ha.wordsTo hg
  refine ⟨hu, .tag rfl hc, ?_⟩
  intro open_
  have ho : staysOpen name (tagWords ts) = false := by
    simp only [List.mem_append, List.mem_cons, List.not_mem_nil, or_false, not_or] at h
    simp [staysOpen, h]
  rw [run_behind_loose hc ho, he]

theorem continuedBy_if {inside : List Mark} (h : NoElse inside) (name : String) :
    continuedBy ⟨"if", inside⟩ name = true := by
  simpa [continuedBy, NoElse] using h

theorem continuedBy_else {inside : List Mark} (hn : name = "if" ∨ name = "for")
    (h : NoElse inside) : continuedBy ⟨name, inside⟩ "else" = true := by
  rcases hn with rfl | rfl <;> simpa [continuedBy, NoElse] using h

theorem nests_elseif {condition next : Node} {tests : List Node} {otherwise : Option Node}
    {ws : List Token}
    (ihb : Nests ts us (.block level ["elseif", "else", "endif"] nodes (some "elseif")))
    (hn : ExprPart.Reads (.expression 0 level next) us (⟨.tagEnd .block, line⟩ :: vs))
    (ihr : Nests vs ws (.branches level next tests otherwise)) :
    Nests ts ws (.branches level condition (condition :: .body nodes :: tests) otherwise) := by
  intro hg
  obtain ⟨hu, ms, hs, hm⟩ := ihb hg
  obtain ⟨hv, he⟩ := marks_of_tagEnd hn.wordsTo hu
  obtain ⟨hw, hr⟩ := ihr hv
  refine ⟨hw, ?_⟩
  intro inside hi open_
  have hi := hi.append (.of_shows hs)
  have hi' : NoElse [.tag (.name "elseif" :: tagWords us)] := by simp [NoElse, Mark.name?]
  rw [hm, note, run_behind_continuation (.inr rfl) (continuedBy_if hi _), he, note,
    hr _ (hi.append hi')]

theorem nests_lastBranch {condition : Node} {otherwise : Option Node} {ws : List Token}
    (hb : Reads (.block level ["elseif", "else", "endif"] nodes close) ts us)
    (ihb : Nests ts us (.block level ["elseif", "else", "endif"] nodes close))
    (h : close ≠ some "elseif")
    (iho : Nests us vs (.alternative level close "endif" otherwise)) (hc : closeTag vs = .ok ws) :
    Nests ts ws (.branches level condition [condition, .body nodes] otherwise) := by
  intro hg
  obtain ⟨hu, ms, hs, hm⟩ := ihb hg
  obtain ⟨other, ho, rfl⟩ := hb.close_mem_of_block (List.mem_cons_self ..)
  have ho : other = "elseif" ∨ other = "else" ∨ other = "endif" := by simpa using ho
  have ho := ho.resolve_left fun he => h (congrArg some he)
  obtain ⟨hv, hm'⟩ := iho "if" (.inl rfl) rfl (by simpa using ho) hu
  refine ⟨(marks_of_closeTag hc hv).1, ?_⟩
  intro inside hi open_
  obtain ⟨inside', hi'⟩ := hm' _ (hi.append (.of_shows hs)) open_
  rw [hm, note, hi']
  exact run_behind_closing rfl hc hv (by simp) _

theorem nests_noElse {closing : String} (h : close ≠ some "else") :
    Nests ts ts (.alternative level close closing none) := by
  intro name _ _ hc hg
  cases hc.resolve_left h
  exact ⟨hg, fun inside _ _ => ⟨inside, rfl⟩⟩

theorem nests_someElse {closing : String} {others : List Node}
    (hb : Reads (.block level [closing] others close) ts us)
    (ih : Nests ts us (.block level [closing] others close)) :
    Nests (⟨.tagEnd .block, line⟩ :: ts) us
      (.alternative level (some "else") closing (some (.body others))) := by
  intro name hn _ _ hg
  obtain ⟨hg, he⟩ := marks_of_tagEnd (.refl _) hg
  obtain ⟨other, ho, rfl⟩ := hb.close_mem_of_block (List.mem_singleton_self _)
  cases List.mem_singleton.1 ho
  obtain ⟨hu, ms, -, hm⟩ := ih hg
  refine ⟨hu, ?_⟩
  intro inside hi open_
  refine ⟨inside ++ [.tag (.name "else" :: tagWords (⟨.tagEnd .block, line⟩ :: ts))] ++ ms, ?_⟩
  rw [run_behind_continuation (.inl rfl) (continuedBy_else hn hi), he, hm, note, note]

theorem Reads.nests {p : StmtPart} (h : p.Reads ts us) : p.Nests ts us := by
  -- A part says nothing of the tags outside of it, so that its run goes through under any stack.
  induction h with
  | eof h => exact nests_eof h
  | text _ ih => exact nests_text ih
  | print he _ ih => exact nests_print he ih
  | close hc =>
    intro hg
    refine ⟨hg.of_blockStart, [], .nil, ?_⟩
    intro open_
    rw [marks_blockStart, note_nil]
  | tag _ _ _ iht ihs => exact nests_tag iht ihs
  | block _ _ ih => exact ih
  | trans _ ih =>
    intro hg
    obtain ⟨hu, hn, hm⟩ := ih hg
    refine ⟨hu, .tag hn (by decide), ?_⟩
    intro open_
    rw [run_behind_opening (by decide) (staysOpen_of_mem (by decide) _), hm "trans" rfl]
  | transChoice hc _ ih => exact nests_transChoice hc ih
  | ifTag hc _ ih => exact nests_ifTag hc ih
  | forTag ht hs hc hb _ hz ihb iho => exact nests_forTag ht hs hc hb ihb iho hz
  | blockBody hb hc ih => exact nests_blockBody hb ih hc
  | blockValue h he => exact nests_blockValue h he
  | setValues hn hv => exact nests_setValues hn hv
  | setBody hn hb hc ih => exact nests_setBody hn hb ih hc
  | paired h ha hb hc ih => exact nests_paired h ha hb ih hc
  | loose h hc ha => exact nests_loose h hc ha
  | transTag ho hb hc hm ih => exact nests_transTag ho hb ih hc hm
  | elseif _ hn _ ihb ihr => exact nests_elseif ihb hn ihr
  | lastBranch hb h _ hc ihb iho => exact nests_lastBranch hb ihb h iho hc
  | noElse h => exact nests_noElse h
  | someElse hb ih => exact nests_someElse hb ih

end StmtPart

/-- The tags of an accepted template are well nested. -/
theorem parseTemplate_wellNested {source : String} {tree : Node}
    (h : parseTemplate source = .ok tree) :
    ∃ ts, tokenize source = .ok ts ∧ WellNested (marks ts) := by
  obtain ⟨ts, ht, hp⟩ := exists_tokens_of_parseTemplate h
  obtain ⟨nodes, us, hr, -⟩ := parseTokens_reads hp
  obtain ⟨-, ms, -, hm⟩ := hr.nests (.of_tokenize ht)
  exact ⟨ts, ht, hm []⟩

theorem parseTemplate_wellNested_branches :
    let source := "\x7b% if a %\x7d\x7b% trans %\x7dSoup\x7b% endtrans %\x7d\x7b% elseif b %\x7d" ++
      "\x7b% set c = 1 %\x7d\x7b% else %\x7d\x7b% block d %\x7d\x7b% endblock d %\x7d" ++
      "\x7b% endif %\x7d"
    (parseTemplate source).toBool = true ∧
      ∃ ts, tokenize source = .ok ts ∧ WellNested (marks ts) := by
  intro source
  have h : (parseTemplate source).toBool = true := by decide +kernel
  refine ⟨h, ?_⟩
  cases hp : parseTemplate source with
  | error e =>
    rw [hp] at h
    cases h
  | ok tree => exact parseTemplate_wellNested hp

end Phrasebook
