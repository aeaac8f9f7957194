import Workflow.Json.Reader
import Workflow.Yaml.Cursor

/-!
# Scalars in a YAML text

Plain and quoted scalars may go on over several lines. The blanks around a line break are dropped;
one line break becomes a blank, and of several the first one is dropped.
-/

namespace Workflow

/-- What has been passed over since the last character of a scalar. -/
inductive ScalarGap where
  | none
  /-- Blanks, the last one first. -/
  | blanks (cs : List Char)
  /-- Line breaks, the first one apart and the others from the last one on. An escaped line break is
  no line break at all. -/
  | lines (first : Option Char) (more : List Char)

namespace ScalarGap

/-- Whether the gap goes to another line. -/
def isLines : ScalarGap → Bool
  | .lines _ _ => true
  | _ => false

def isNone : ScalarGap → Bool
  | .none => true
  | _ => false

/-- The characters that the gap stands for, the last one first. -/
def folded : ScalarGap → List Char
  | .none => []
  | .blanks cs => cs
  | .lines (some '\n') [] => [' ']
  | .lines (some '\n') more => more
  | .lines (some c) more => more ++ [c]
  | .lines Option.none more => more

/-- One more blank. -/
def blank (c : Char) : ScalarGap → ScalarGap
  | .none => .blanks [c]
  | .blanks cs => .blanks (c :: cs)
  | .lines first more => .lines first more

/-- One more line break. -/
def lineBreak (c : Char) : ScalarGap → ScalarGap
  | .lines first more => .lines first (c :: more)
  | _ => .lines (some c) []

end ScalarGap

/-! ## Plain scalars -/

/-- The characters that cannot begin a plain scalar. -/
def yamlIndicators : List Char := "-?:,[]\x7b\x7d#&*!|>'\"%@`".toList

/-- The characters that end a plain scalar inside a flow collection. -/
def flowIndicators : List Char := ",[]\x7b\x7d".toList

/-- Whether a plain scalar can begin here. -/
def startsPlain (inFlow : Bool) : List Char → Bool
  | [] => false
  | c :: cs =>
    if isYamlBlank c || isYamlBreak c then false
    else if c ∉ yamlIndicators then true
    else if c = '-' then !(atBlank cs)
    else !inFlow && (c = '?' || c = ':') && !(atBlank cs)

/-- A plain scalar from somewhere inside it. `text` holds the characters so far, the last one first,
and lines that belong to the scalar have their first character at column `floor` or behind it. -/
def plainTail (inFlow : Bool) (floor : Nat) :
    List Char → YamlCursor → List Char → ScalarGap → Option (String × YamlCursor)
  | [], p, text, _ => some (String.ofList text.reverse, { p with rest := [] })
  | c :: cs, p, text, gap =>
    let stop := some (String.ofList text.reverse, { p with rest := c :: cs, fresh := gap.isLines })
    if isYamlBlank c then
      if gap.isLines && c = '\t' && p.column < floor then none
      else plainTail inFlow floor cs (p.step cs) text (gap.blank c)
    else if isYamlBreak c then
      plainTail inFlow floor cs (p.nextLine cs) text (gap.lineBreak c)
    else if !gap.isNone && (c = '#' || (gap.isLines && !inFlow && p.column < floor)
        || { p with rest := c :: cs }.atDocumentMarker) then stop
    else if inFlow && c = ':' && (match cs with
        | d :: _ => d = '?' || d ∈ flowIndicators
        | [] => false) then none
    else if (c = ':' && atBlank cs) || (inFlow && c ∈ flowIndicators) then stop
    else plainTail inFlow floor cs (p.step cs) (c :: (gap.folded ++ text)) .none

/-- A plain scalar. -/
def scanPlain (inFlow : Bool) (floor : Nat) (p : YamlCursor) : Option (String × YamlCursor) :=
  plainTail inFlow floor p.rest { p with fresh := false } [] .none

/-! ## Quoted scalars -/

/-- The character of an escape of one letter. -/
def yamlEscape? : Char → Option Char
  | '0' => some '\x00'
  | 'a' => some '\x07'
  | 'b' => some '\x08'
  | 't' => some '\t'
  | '\t' => some '\t'
  | 'n' => some '\n'
  | 'v' => some '\x0b'
  | 'f' => some '\x0c'
  | 'r' => some '\r'
  | 'e' => some '\x1b'
  | ' ' => some ' '
  | '"' => some '"'
  | '/' => some '/'
  | '\\' => some '\\'
  | 'N' => some '\u0085'
  | '_' => some '\u00a0'
  | 'L' => some '\u2028'
  | 'P' => some '\u2029'
  | _ => none

/-- How many digits follow the letter of an escape by number. -/
def escapeWidth? : Char → Option Nat
  | 'x' => some 2
  | 'u' => some 4
  | 'U' => some 8
  | _ => none

/-- A character by its number. -/
def numberedChar? (n : Nat) : Option Char :=
  if h : n.isValidChar then some ⟨n.toUInt32, by
    have hlt : n < UInt32.size := by
      rcases h with h | ⟨_, h⟩ <;> simp only [UInt32.size] <;> omega
    simpa [UInt32.isValidChar, Nat.toUInt32, UInt32.toNat_ofNat_of_lt' hlt] using h⟩ else none

/-- What the reader of a scalar in double quotes is in the middle of. -/
inductive QuotedState where
  | text
  /-- Behind a backslash. -/
  | escape
  /-- In the digits of an escape: how many are still to come, and the value of those before. -/
  | digits (left value : Nat)

/-- A scalar in single quotes from somewhere inside it. -/
def singleTail :
    Bool → List Char → YamlCursor → List Char → ScalarGap → Option (String × YamlCursor)
  | false, [], _, _, _ => none
  | true, [], p, text, _ => some (String.ofList text.reverse, { p with rest := [] })
  | true, c :: cs, p, text, gap =>
    if c = '\'' then singleTail false cs (p.step cs) ('\'' :: text) gap
    else some (String.ofList text.reverse, { p with rest := c :: cs, fresh := false })
  | false, c :: cs, p, text, gap =>
    if isYamlBlank c then singleTail false cs (p.step cs) text (gap.blank c)
    else if isYamlBreak c then singleTail false cs (p.nextLine cs) text (gap.lineBreak c)
    else if { p with rest := c :: cs }.atDocumentMarker then none
    else
      let text := gap.folded ++ text
      if c = '\'' then singleTail true cs (p.step cs) text .none
      else singleTail false cs (p.step cs) (c :: text) .none

/-- A scalar in double quotes from somewhere inside it. -/
def doubleTail :
    QuotedState → List Char → YamlCursor → List Char → ScalarGap → Option (String × YamlCursor)
  | _, [], _, _, _ => none
  | .digits left value, c :: cs, p, text, gap =>
    match Json.hexDigit? c with
    | none => none
    | some d =>
      let value := 16 * value + d
      if left ≤ 1 then
        match numberedChar? value with
        | none => none
        | some x => doubleTail .text cs (p.step cs) (x :: text) gap
      else doubleTail (.digits (left - 1) value) cs (p.step cs) text gap
  | .escape, c :: cs, p, text, gap =>
    if isYamlBreak c then doubleTail .text cs (p.nextLine cs) text (.lines none [])
    else
      match escapeWidth? c with
      | some width => doubleTail (.digits width 0) cs (p.step cs) text gap
      | none =>
        match yamlEscape? c with
        | none => none
        | some x => doubleTail .text cs (p.step cs) (x :: text) gap
  | .text, c :: cs, p, text, gap =>
    if isYamlBlank c then doubleTail .text cs (p.step cs) text (gap.blank c)
    else if isYamlBreak c then doubleTail .text cs (p.nextLine cs) text (gap.lineBreak c)
    else if { p with rest := c :: cs }.atDocumentMarker then none
    else
      let text := gap.folded ++ text
      if c = '"' then
        some (String.ofList text.reverse, { p.step cs with fresh := false })
      else if c = '\\' then doubleTail .escape cs (p.step cs) text .none
      else doubleTail .text cs (p.step cs) (c :: text) .none

/-- A scalar behind its opening quote. -/
def scanQuoted (double : Bool) (p : YamlCursor) : Option (String × YamlCursor) :=
  if double then doubleTail .text p.rest p [] .none else singleTail false p.rest p [] .none

end Workflow
