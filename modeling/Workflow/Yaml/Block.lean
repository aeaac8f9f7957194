import Workflow.Yaml.Cursor

/-!
# Scalars in blocks of lines

A scalar behind `|` or `>` is made of the lines below that are indented at least as much as the
first of them. Behind `|` the line breaks stay; behind `>` a line break between two lines that do
not begin with a blank becomes a blank, and of several the first one is dropped. A minus drops the
line breaks at the end, a plus keeps them all, and otherwise one is kept. A digit tells how much
further the lines are indented than what they stand in.
-/

namespace Workflow

/-- What becomes of the line breaks at the end. -/
inductive Chomping where
  | strip
  | clip
  | keep
deriving DecidableEq

/-- What stands behind the first character of a block of lines. -/
structure BlockHeader where
  chomping : Chomping := .clip
  /-- How much further the lines are indented; zero if that is left to the first of them. -/
  increment : Nat := 0

/-- What a character says about the chomping. -/
def Chomping.ofChar? (c : Char) : Option Chomping :=
  if c = '-' then some .strip else if c = '+' then some .keep else none

/-- The digit for an increment. -/
def increment? (c : Char) : Option Nat :=
  if c.isDigit && c ≠ '0' then some (c.toNat - '0'.toNat) else none

/-- Reads a header: a sign and a digit in any order, each of which may be missing. Gives what
follows them. -/
def BlockHeader.read : List Char → BlockHeader × List Char
  | c :: d :: cs =>
    match Chomping.ofChar? c, increment? d with
    | some chomping, some increment => ({ chomping, increment }, cs)
    | some chomping, none => ({ chomping }, d :: cs)
    | none, _ =>
      match increment? c, Chomping.ofChar? d with
      | some increment, some chomping => ({ chomping, increment }, cs)
      | some increment, none => ({ increment }, d :: cs)
      | none, _ => ({}, c :: d :: cs)
  | [c] =>
    match Chomping.ofChar? c, increment? c with
    | some chomping, _ => ({ chomping }, [])
    | none, some increment => ({ increment }, [])
    | none, none => ({}, [c])
  | [] => ({}, [])

/-- Passes over the rest of a header line: blanks, a comment and the line break. Nothing else may
stand there. -/
def headerEnd? (comment : Bool) : List Char → YamlCursor → Option YamlCursor
  | [], p => some { p with rest := [] }
  | c :: cs, p =>
    if isYamlBreak c then some (p.nextLine cs)
    else if comment then headerEnd? true cs (p.step cs)
    else if isYamlBlank c then headerEnd? false cs (p.step cs)
    else if c = '#' then headerEnd? true cs (p.step cs)
    else none

/-- What has been read of a block of lines. -/
structure BlockLines where
  /-- The column of the lines; zero if it is not known yet. -/
  indent : Nat
  /-- The greatest column that blanks have led to in the empty lines before the current one. -/
  widest : Nat := 0
  /-- The characters so far, the last one first. -/
  text : List Char := []
  /-- The line break of the line before the empty lines. -/
  leading : Option Char := none
  /-- The line breaks of the empty lines, the last one first. -/
  breaks : List Char := []
  /-- The last line with something in it begins with a blank. -/
  wasBlank : Bool := false
  /-- Behind the indentation of a line. -/
  inLine : Bool := false

namespace BlockLines

/-- Begins a line. -/
def beginLine (b : BlockLines) (folded : Bool) (c : Char) : BlockLines :=
  let blank := isYamlBlank c
  let before :=
    if folded && b.leading = some '\n' && !b.wasBlank && !blank then
      if b.breaks = [] then ' ' :: b.text else b.text
    else b.leading.toList ++ b.text
  { b with
    text := b.breaks ++ before, leading := none, breaks := [], wasBlank := blank, inLine := true }

/-- The whole text. -/
def finish (b : BlockLines) (chomping : Chomping) : String :=
  let ending := match chomping with
    | .strip => []
    | .clip => b.leading.toList
    | .keep => b.breaks ++ b.leading.toList
  String.ofList (ending ++ b.text).reverse

end BlockLines

/-- The lines of a block. `floor` is the least column they may stand at. -/
def blockTail (folded : Bool) (floor : Nat) :
    List Char → YamlCursor → BlockLines → Option (BlockLines × YamlCursor)
  | [], p, b => some (b, { p with rest := [], fresh := true })
  | c :: cs, p, b =>
    if b.inLine then
      if isYamlBreak c then
        blockTail folded floor cs (p.nextLine cs)
          { b with leading := some c, inLine := false, widest := 0 }
      else blockTail folded floor cs (p.step cs) { b with text := c :: b.text }
    else
      let indenting := b.indent = 0 || p.column < b.indent
      if c = ' ' && indenting then blockTail folded floor cs (p.step cs) b
      else if c = '\t' && indenting then none
      else
        let widest := max b.widest p.column
        if isYamlBreak c then
          blockTail folded floor cs (p.nextLine cs) { b with breaks := c :: b.breaks, widest }
        else
          let indent := if b.indent = 0 then max widest (max floor 1) else b.indent
          if p.column = indent then
            let b := { b with indent }.beginLine folded c
            blockTail folded floor cs (p.step cs) { b with text := c :: b.text }
          else some (b, { p with rest := c :: cs, fresh := true })

/-- A block of lines from its first character on. -/
def scanBlock (folded : Bool) (floor : Nat) (p : YamlCursor) : Option (String × YamlCursor) :=
  let (header, rest) := BlockHeader.read (p.rest.drop 1)
  (headerEnd? false rest { p with rest }).bind fun p =>
    let indent := if header.increment = 0 then 0 else floor - 1 + header.increment
    (blockTail folded floor p.rest p { indent }).map fun (b, p) => (b.finish header.chomping, p)

end Workflow
