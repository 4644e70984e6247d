import Phrasebook.Template.Lexeme

/-!
The tokens of a template. Text runs between tags; whitespace control trims it, a line break right
behind a block tag or a comment is dropped, comments vanish and verbatim sections are text.
-/
namespace Phrasebook

inductive TokenError
  | unclosedComment (line : Nat)
  | unclosedVerbatim (line : Nat)
  | unclosedTag (kind : TagKind) (line : Nat)
  | unclosedString (line : Nat)
  | invalidNumber (text : List Char) (line : Nat)
  | unclosedBracket (opening : Char) (openLine : Nat) (found : Char) (line : Nat)
  | unexpectedBracket (found : Char) (line : Nat)
  | unexpectedCharacter (c : Char) (line : Nat)
  deriving DecidableEq, Repr

namespace TokenError

def quoted (s : String) : String := "\"" ++ s ++ "\""

def atLine (line : Nat) : String := " at line " ++ toString line

def message : TokenError → String
  | unclosedComment line => "Unclosed comment" ++ atLine line
  | unclosedVerbatim line => "Unclosed verbatim section" ++ atLine line
  | unclosedTag kind line => "Unclosed " ++ kind.title ++ " starting" ++ atLine line
  | unclosedString line => "Unclosed string" ++ atLine line
  | invalidNumber text line =>
    "Invalid number " ++ quoted (String.ofList text) ++ atLine line
  | unclosedBracket opening openLine found line =>
    "Unclosed " ++ quoted (String.ofList [opening]) ++ " from line " ++ toString openLine ++
      " (found " ++ quoted (String.ofList [found]) ++ atLine line ++ ")"
  | unexpectedBracket found line =>
    "Unexpected " ++ quoted (String.ofList [found]) ++ atLine line
  | unexpectedCharacter c line =>
    "Unexpected character " ++ quoted (String.ofList [c]) ++ atLine line

def ofLexeme (line : Nat) : LexemeError → TokenError
  | .invalidNumber text => invalidNumber text line
  | .unclosedString => unclosedString line
  | .unexpected c => unexpectedCharacter c line

end TokenError

/-- Where the text after a tag, comment or section begins, and whether its start is trimmed. -/
structure Resume where
  line : Nat
  trim : Bool
  rest : List Char
  deriving DecidableEq, Repr

def Resume.skipLineBreak (r : Resume) : Resume :=
  match r.rest with
  | '\r' :: '\n' :: cs => { r with line := r.line + 1, rest := cs }
  | '\n' :: cs => { r with line := r.line + 1, rest := cs }
  | _ => r

def takeDash : List Char → Bool × List Char
  | '-' :: cs => (true, cs)
  | cs => (false, cs)

/-- Open brackets with their lines, the innermost first. -/
abbrev Brackets := List (Char × Nat)

def openingBracket? : Char → Option Char
  | ')' => some '('
  | ']' => some '['
  | '}' => some '{'
  | _ => none

def Brackets.step (open_ : Brackets) (line : Nat) : TokenKind → Except TokenError Brackets
  | .punctuation c =>
    if c = '(' ∨ c = '[' ∨ c = '{' then .ok ((c, line) :: open_)
    else match openingBracket? c, open_ with
      | none, _ => .ok open_
      | some _, [] => .error (.unexpectedBracket c line)
      | some o, (b, bLine) :: outer =>
        if b = o then .ok outer else .error (.unclosedBracket b bLine c line)
  | _ => .ok open_

def tagClose? (kind : TagKind) (cs : List Char) : Option (Bool × List Char) :=
  match afterStart? kind.closing (takeDash cs).2 with
  | some rest => some ((takeDash cs).1, rest)
  | none => none

/-- Behind a block tag that trims nothing a line break is dropped. -/
def Resume.afterTag (kind : TagKind) (r : Resume) : Resume :=
  if kind = .block ∧ r.trim = false then r.skipLineBreak else r

theorem trimStart_length_le (cs : List Char) : (trimStart cs).length ≤ cs.length :=
  (List.dropWhile_suffix isBlank).length_le

/-- The tokens of a tag from some place inside it to its end, and where the text goes on. The tag
ends at its closing mark outside of all brackets. -/
def tagTokens (kind : TagKind) (start line : Nat) (open_ : Brackets) (cs : List Char) :
    Except TokenError (List Token × Resume) :=
  let line := line + lineFeeds (cs.takeWhile isBlank)
  match _ht : trimStart cs with
  | [] => .error (.unclosedTag kind start)
  | c :: cs' =>
    match if open_.isEmpty then tagClose? kind (c :: cs') else none with
    | some (trim, rest) =>
      .ok ([⟨.tagEnd kind, line⟩], Resume.afterTag kind { line, trim, rest })
    | none =>
      match _hl : lexeme c cs' with
      | .error e => .error (.ofLexeme line e)
      | .ok l =>
        match open_.step line l.kind with
        | .error e => .error e
        | .ok open_ =>
          match tagTokens kind start (line + lineFeeds l.text) open_ l.rest with
          | .error e => .error e
          | .ok (tokens, after) => .ok (⟨l.kind, line⟩ :: tokens, after)
termination_by cs.length
decreasing_by
  have h := lexeme_rest_lt _hl
  rw [← _ht] at h
  exact Nat.lt_of_lt_of_le h (trimStart_length_le cs)

inductive Marker
  | tag (kind : TagKind)
  | comment
  deriving DecidableEq, Repr

/-- The text before the first opening mark, the mark, and what follows it. -/
def splitMarker : List Char → List Char × Option (Marker × List Char)
  | [] => ([], none)
  | '{' :: '{' :: cs => ([], some (.tag .print, cs))
  | '{' :: '%' :: cs => ([], some (.tag .block, cs))
  | '{' :: '#' :: cs => ([], some (.comment, cs))
  | c :: cs =>
    let r := splitMarker cs
    (c :: r.1, r.2)

def textToken (trimmedStart trimmedEnd : Bool) (line : Nat) (cs : List Char) : List Token :=
  let cs := if trimmedStart then trimStart cs else cs
  let cs := if trimmedEnd then trimEnd cs else cs
  if cs.isEmpty then [] else [⟨.text (String.ofList cs), line⟩]

def splitComment? : List Char → Option (List Char × List Char)
  | [] => none
  | '#' :: '}' :: cs => some ([], cs)
  | c :: cs => (splitComment? cs).map fun r => (c :: r.1, r.2)

/-- Reads the rest of a tag that holds just one of the given words: blanks, the word, blanks, an
optional dash and the closing mark. -/
def wordTag? (words : List String) (cs : List Char) : Option (Bool × List Char) :=
  match words.findSome? fun w => afterStart? w (trimStart cs) with
  | none => none
  | some rest => tagClose? .block (trimStart rest)

def verbatimStart? (cs : List Char) : Option (Bool × List Char) :=
  wordTag? ["verbatim", "raw"] (takeDash cs).2

structure Verbatim where
  content : List Char
  trimBefore : Bool
  trimAfter : Bool
  rest : List Char
  deriving DecidableEq, Repr

/-- Reads an end tag of a verbatim section, which may bear either name. -/
def verbatimEnd? (cs : List Char) : Option Verbatim :=
  match afterStart? TagKind.block.opening cs with
  | none => none
  | some inner =>
    (wordTag? ["endverbatim", "endraw"] (takeDash inner).2).map fun r =>
      { content := [], trimBefore := (takeDash inner).1, trimAfter := r.1, rest := r.2 }

def splitVerbatim? : List Char → Option Verbatim
  | [] => none
  | c :: cs =>
    match verbatimEnd? (c :: cs) with
    | some v => some v
    | none => (splitVerbatim? cs).map fun v => { v with content := c :: v.content }

theorem Resume.skipLineBreak_rest_le (r : Resume) :
    r.skipLineBreak.rest.length ≤ r.rest.length := by
  unfold Resume.skipLineBreak
  split
  · rename_i cs h
    rw [h]
    exact Nat.le_add_right cs.length 2
  · rename_i cs h
    rw [h]
    exact Nat.le_add_right cs.length 1
  · exact Nat.le_refl _

theorem Resume.afterTag_rest_le (kind : TagKind) (r : Resume) :
    (Resume.afterTag kind r).rest.length ≤ r.rest.length := by
  unfold Resume.afterTag
  split
  · exact r.skipLineBreak_rest_le
  · exact Nat.le_refl _

theorem afterStart?_length {start : String} {cs rest : List Char}
    (h : afterStart? start cs = some rest) : rest.length ≤ cs.length := by
  unfold afterStart? at h
  split at h
  · cases h
    simp
  · cases h

theorem takeDash_length (cs : List Char) : (takeDash cs).2.length ≤ cs.length := by
  unfold takeDash
  split <;> simp

theorem tagClose?_length {kind : TagKind} {cs : List Char} {r : Bool × List Char}
    (h : tagClose? kind cs = some r) : r.2.length ≤ cs.length := by
  unfold tagClose? at h
  split at h
  next rest hr =>
    cases h
    exact Nat.le_trans (afterStart?_length hr) (takeDash_length cs)
  · cases h

theorem tagTokens_rest_le {kind : TagKind} {start line : Nat} {open_ : Brackets} {cs : List Char}
    {r : List Token × Resume} (h : tagTokens kind start line open_ cs = .ok r) :
    r.2.rest.length ≤ cs.length := by
  fun_induction tagTokens kind start line open_ cs generalizing r with
  | case1 => cases h
  | case2 _ _ cs _ c cs' ht =>
    rename_i hc
    cases h
    refine Nat.le_trans (Resume.afterTag_rest_le _ _) ?_
    have hle := trimStart_length_le cs
    rw [ht] at hle
    split at hc
    · exact Nat.le_trans (tagClose?_length hc) hle
    · cases hc
  | case3 => cases h
  | case4 => cases h
  | case5 => cases h
  | case6 _ _ cs _ c cs' ht _ l hl _ _ _ _ hr =>
    rename_i ih
    cases h
    have hlt := lexeme_rest_lt hl
    rw [← ht] at hlt
    have := ih hr
    have := trimStart_length_le cs
    simp only at *
    omega

theorem splitMarker_rest_lt {cs rest : List Char} {m : Marker}
    (h : (splitMarker cs).2 = some (m, rest)) : rest.length < cs.length := by
  fun_induction splitMarker cs with
  | case1 => cases h
  | case2 => cases h; simp only [List.length_cons]; omega
  | case3 => cases h; simp only [List.length_cons]; omega
  | case4 => cases h; simp only [List.length_cons]; omega
  | case5 c cs _ _ _ _ ih =>
    have := ih h
    simp only [List.length_cons]
    omega

theorem splitComment?_rest_lt {cs : List Char} {r : List Char × List Char}
    (h : splitComment? cs = some r) : r.2.length < cs.length := by
  fun_induction splitComment? cs generalizing r with
  | case1 => cases h
  | case2 => cases h; simp only [List.length_cons]; omega
  | case3 c cs _ ih =>
    obtain ⟨r', hr, rfl⟩ := Option.map_eq_some_iff.1 h
    have := ih hr
    simp only [List.length_cons]
    omega

theorem wordTag?_length {words : List String} {cs : List Char} {r : Bool × List Char}
    (h : wordTag? words cs = some r) : r.2.length ≤ cs.length := by
  unfold wordTag? at h
  split at h
  · cases h
  next rest hr =>
    obtain ⟨w, _, hw⟩ := List.exists_of_findSome?_eq_some hr
    have h1 := afterStart?_length hw
    have h2 := tagClose?_length h
    have h3 := trimStart_length_le cs
    have h4 := trimStart_length_le rest
    omega

theorem verbatimStart?_length {cs : List Char} {r : Bool × List Char}
    (h : verbatimStart? cs = some r) : r.2.length ≤ cs.length :=
  Nat.le_trans (wordTag?_length h) (takeDash_length cs)

theorem verbatimEnd?_length {cs : List Char} {v : Verbatim} (h : verbatimEnd? cs = some v) :
    v.rest.length ≤ cs.length := by
  unfold verbatimEnd? at h
  split at h
  · cases h
  next inner hi =>
    obtain ⟨r, hr, rfl⟩ := Option.map_eq_some_iff.1 h
    have h1 := afterStart?_length hi
    have h2 := wordTag?_length hr
    have h3 := takeDash_length inner
    simp only
    omega

theorem splitVerbatim?_length {cs : List Char} {v : Verbatim} (h : splitVerbatim? cs = some v) :
    v.rest.length ≤ cs.length := by
  induction cs generalizing v with
  | nil => cases h
  | cons c cs ih =>
    unfold splitVerbatim? at h
    split at h
    next w hw =>
      cases h
      exact verbatimEnd?_length hw
    · obtain ⟨w, hw, rfl⟩ := Option.map_eq_some_iff.1 h
      have := ih hw
      simp only [List.length_cons]
      omega

def commentTokens (line : Nat) (rest : List Char) : Except TokenError (List Token × Resume) :=
  match splitComment? ('#' :: rest) with
  | none => .error (.unclosedComment line)
  | some (body, rest) =>
    let r : Resume := { line := line + lineFeeds body, trim := body.getLast? == some '-', rest }
    .ok ([], r.skipLineBreak)

def verbatimTokens (r : Resume) : Except TokenError (List Token × Resume) :=
  let r := if r.trim then r else r.skipLineBreak
  match splitVerbatim? r.rest with
  | none => .error (.unclosedVerbatim r.line)
  | some v =>
    let after : Resume :=
      { line := r.line + (lineFeeds r.rest - lineFeeds v.rest), trim := v.trimAfter,
        rest := v.rest }
    .ok (textToken r.trim v.trimBefore r.line v.content, after.skipLineBreak)

/-- The tokens of what an opening mark starts, and where the text goes on behind it. -/
def markupTokens (line : Nat) (marker : Marker) (rest : List Char) :
    Except TokenError (List Token × Resume) :=
  match marker with
  | .comment => commentTokens line rest
  | .tag kind =>
    match if kind = .block then verbatimStart? rest else none with
    | some (trim, inner) =>
      verbatimTokens { line := line + (lineFeeds rest - lineFeeds inner), trim, rest := inner }
    | none =>
      (tagTokens kind line line [] (takeDash rest).2).map fun r =>
        (⟨.tagStart kind, line⟩ :: r.1, r.2)

theorem commentTokens_rest_le {line : Nat} {rest : List Char} {r : List Token × Resume}
    (h : commentTokens line rest = .ok r) : r.2.rest.length ≤ rest.length := by
  unfold commentTokens at h
  split at h
  · cases h
  next body rest' hc =>
    cases h
    refine Nat.le_trans (Resume.skipLineBreak_rest_le _) ?_
    have := splitComment?_rest_lt hc
    simp only [List.length_cons] at *
    omega

theorem verbatimTokens_rest_le {r : Resume} {out : List Token × Resume}
    (h : verbatimTokens r = .ok out) : out.2.rest.length ≤ r.rest.length := by
  have hle : (if r.trim then r else r.skipLineBreak).rest.length ≤ r.rest.length := by
    split
    · exact Nat.le_refl _
    · exact r.skipLineBreak_rest_le
  unfold verbatimTokens at h
  dsimp only at h
  split at h
  · cases h
  next v hv =>
    cases h
    refine Nat.le_trans (Resume.skipLineBreak_rest_le _) ?_
    exact Nat.le_trans (splitVerbatim?_length hv) hle

theorem markupTokens_rest_le {line : Nat} {marker : Marker} {rest : List Char}
    {r : List Token × Resume} (h : markupTokens line marker rest = .ok r) :
    r.2.rest.length ≤ rest.length := by
  unfold markupTokens at h
  split at h
  · exact commentTokens_rest_le h
  next kind =>
    split at h
    next trim inner hv =>
      split at hv
      · exact Nat.le_trans (verbatimTokens_rest_le h) (verbatimStart?_length hv)
      · cases hv
    · cases ht : tagTokens kind line line [] (takeDash rest).2 with
      | error e => simp [ht, Except.map] at h
      | ok r' =>
        simp only [ht, Except.map, Except.ok.injEq] at h
        subst h
        change r'.2.rest.length ≤ rest.length
        exact Nat.le_trans (tagTokens_rest_le ht) (takeDash_length rest)

def sourceTokens (r : Resume) : Except TokenError (List Token) :=
  let text := (splitMarker r.rest).1
  let line := r.line + lineFeeds text
  match _hm : (splitMarker r.rest).2 with
  | none => .ok (textToken r.trim false r.line text ++ [⟨.eof, line⟩])
  | some (marker, rest) =>
    match _ht : markupTokens line marker rest with
    | .error e => .error e
    | .ok (tokens, after) =>
      match sourceTokens after with
      | .error e => .error e
      | .ok others => .ok (textToken r.trim (takeDash rest).1 r.line text ++ tokens ++ others)
termination_by r.rest.length
decreasing_by exact Nat.lt_of_le_of_lt (markupTokens_rest_le _ht) (splitMarker_rest_lt _hm)

/-- The tokens of a template, which end in one end token. -/
def tokenize (source : String) : Except TokenError (List Token) :=
  sourceTokens { line := 1, trim := false, rest := source.toList }

end Phrasebook
