/-!
# Moving through a YAML text

The reader looks at one character after the other and knows the line and the column it is at. A
cursor is fresh where a block collection may begin: at the beginning of a line and behind a dash. A
tab is a blank like any other except in a fresh place, where it could be taken for indentation.
-/

namespace Workflow

/-- A place in a text, and what is left of it. -/
structure YamlCursor where
  rest : List Char
  column : Nat := 0
  line : Nat := 0
  offset : Nat := 0
  /-- A block collection may begin here. -/
  fresh : Bool := true

/-- Whether a character ends a line. -/
def isYamlBreak (c : Char) : Bool := c = '\n' || c = '\u2028' || c = '\u2029'

/-- Whether a character separates words. -/
def isYamlBlank (c : Char) : Bool := c = ' ' || c = '\t'

/-- Whether the next character is a blank, a line break or the end. -/
def atBlank : List Char → Bool
  | [] => true
  | c :: _ => isYamlBlank c || isYamlBreak c

/-- The same text with one kind of line break less to care about. -/
def plainBreaks : List Char → List Char
  | [] => []
  | '\r' :: '\n' :: cs => '\n' :: plainBreaks cs
  | '\r' :: cs => '\n' :: plainBreaks cs
  | '\u0085' :: cs => '\n' :: plainBreaks cs
  | c :: cs => c :: plainBreaks cs

/-- Whether a character may stand in a YAML text. -/
def isYamlChar (c : Char) : Bool :=
  let n := c.toNat
  n = 0x09 || n = 0x0A || n = 0x0D || (0x20 ≤ n && n ≤ 0x7E) || n = 0x85
    || (0xA0 ≤ n && n ≤ 0xFFFD) || 0x10000 ≤ n

namespace YamlCursor

/-- The beginning of a text. -/
def start (cs : List Char) : YamlCursor := { rest := cs }

/-- Behind a character of the same line, which leaves `rest`. -/
def step (p : YamlCursor) (rest : List Char) : YamlCursor :=
  { p with rest, column := p.column + 1, offset := p.offset + 1 }

/-- At the beginning of the next line, which leaves `rest`. -/
def nextLine (p : YamlCursor) (rest : List Char) : YamlCursor :=
  { p with rest, column := 0, line := p.line + 1, offset := p.offset + 1 }

/-- Passes over blanks, comments and line breaks. In a flow collection every tab is a blank and a
line break is nothing special. -/
def skipFrom (inFlow : Bool) : Bool → List Char → YamlCursor → YamlCursor
  | _, [], p => { p with rest := [] }
  | comment, c :: cs, p =>
    if isYamlBreak c then
      skipFrom inFlow false cs { p.nextLine cs with fresh := p.fresh || !inFlow }
    else if comment then skipFrom inFlow true cs (p.step cs)
    else if c = ' ' || (c = '\t' && (inFlow || !p.fresh)) then
      skipFrom inFlow false cs (p.step cs)
    else if c = '#' then skipFrom inFlow true cs (p.step cs)
    else { p with rest := c :: cs }

/-- Passes over what stands between tokens. -/
def skip (p : YamlCursor) (inFlow : Bool) : YamlCursor := skipFrom inFlow false p.rest p

/-- Three equal characters at the beginning of a line, with a blank behind them. -/
def atMarker (p : YamlCursor) (c : Char) : Bool :=
  match p.rest with
  | x :: y :: z :: cs => p.column = 0 && x = c && y = c && z = c && atBlank cs
  | _ => false

/-- At the beginning or at the end of a document. -/
def atDocumentMarker (p : YamlCursor) : Bool := p.atMarker '-' || p.atMarker '.'

/-- At the end of the text or at a document marker. -/
def atEnd (p : YamlCursor) : Bool := p.rest.isEmpty || p.atDocumentMarker

/-- At an indicator with a blank behind it. -/
def atIndicator (p : YamlCursor) (c : Char) : Bool :=
  match p.rest with
  | x :: cs => x = c && atBlank cs
  | [] => false

end YamlCursor

end Workflow
