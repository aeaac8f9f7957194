import Workflow.Settings.Environment
import Workflow.Text.Characters

/-!
# Environment files

A file gives variables that the environment does not have, one `NAME=value` after the other. The
word `export` may stand before a name. A value goes on over the end of its line while a quote is
open. In single quotes everything is taken as it is; elsewhere a backslash takes away the meaning of
the next character, and `$NAME` and `${NAME}` stand for the value of a variable, those of earlier
lines included. A blank outside of quotes ends the value, and only a comment may follow.

The first line that cannot be read is the last one that is looked at.
-/

namespace Workflow

namespace Environment

/-- The value of a variable. -/
def get? (env : Environment) (name : String) : Option String := Entries.find? name env

end Environment

/-! ## Lines -/

/-- Where in a line a character stands. -/
inductive LinePlace where
  /-- Nothing but white space before. -/
  | start
  | word
  /-- Behind the first of some blanks. -/
  | blank
  /-- Behind a backslash. -/
  | escape
  | single
  | singleEscape
  | double
  | doubleEscape
  | comment
deriving DecidableEq

namespace LinePlace

/-- Whether a line that stops here is whole. -/
def isWhole : LinePlace → Bool
  | .start | .word | .comment => true
  | _ => false

/-- The place behind a character that does not end the line. -/
def after : LinePlace → Char → LinePlace
  | .start, c => if c = '#' then .comment else if isWhiteSpace c then .start else outside c
  | .word, c => if isWhiteSpace c && c ≠ '\n' && c ≠ '\r' then .blank else outside c
  | .blank, c => if c = '#' then .comment else outside c
  | .escape, _ => .word
  | .single, c => if c = '\\' then .singleEscape else if c = '\'' then .word else .single
  | .singleEscape, _ => .single
  | .double, c => if c = '\\' then .doubleEscape else if c = '"' then .word else .double
  | .doubleEscape, _ => .double
  | .comment, _ => .comment
where
  /-- Behind a character outside of quotes. -/
  outside (c : Char) : LinePlace :=
    if c = '\\' then .escape else if c = '"' then .double else if c = '\'' then .single else .word

end LinePlace

/-- The lines of a text without their comments. `line` holds what has been read of the current one,
the last character first. A last line that is not whole is left out. -/
def environmentLines (place : LinePlace) (line : List Char) : List Char → List (List Char)
  | [] => if place.isWhole then [line.reverse] else []
  | c :: cs =>
    let after := place.after c
    if c = '\n' && (place = .comment || after.isWhole) then
      line.reverse :: environmentLines .start [] cs
    else environmentLines after (if after = .comment then line else c :: line) cs

/-! ## Values -/

/-- Where in a value a character stands. `quoted` tells whether that is in double quotes. -/
inductive ValuePlace where
  | text (quoted : Bool)
  | single
  /-- Behind a backslash. -/
  | escape (quoted : Bool)
  /-- In a name behind `$`; the characters of the name come last first. -/
  | name (quoted : Bool) (chars : List Char)
  /-- In a name in braces. -/
  | braced (quoted : Bool) (chars : List Char)
  /-- Behind the blank that ends the value. -/
  | ended

/-- What a character behind a backslash stands for. -/
def valueEscape? (c : Char) : Option Char :=
  if c = 'n' then some '\n'
  else if c ∈ ['\\', '\'', '"', '$', ' '] then some c
  else none

/-- The characters of the value of a variable, the last one first. -/
def expandedName (env : Environment) (chars : List Char) : List Char :=
  ((env.get? (String.ofList chars.reverse)).getD "").toList.reverse

/-- The value that a text stands for from some place on. `done` holds what the text before stands
for, the last character first. -/
def environmentValue? (env : Environment) (place : ValuePlace) (done : List Char) :
    List Char → Option (List Char)
  | [] =>
    match place with
    | .text false | .escape false | .ended => some done.reverse
    | .name false chars => some (expandedName env chars ++ done).reverse
    | _ => none
  | c :: cs =>
    match place with
    | .ended =>
      if c = '#' then some done.reverse
      else if c = ' ' || c = '\t' then environmentValue? env .ended done cs
      else none
    | .escape quoted =>
      match valueEscape? c with
      | some x => environmentValue? env (.text quoted) (x :: done) cs
      | none => none
    | .single =>
      if c = '\'' then environmentValue? env (.text false) done cs
      else environmentValue? env .single (c :: done) cs
    | .name quoted chars =>
      if isLetterOrNumber c then environmentValue? env (.name quoted (c :: chars)) done cs
      else if c = '{' && chars.isEmpty then environmentValue? env (.braced quoted []) done cs
      else
        let done := expandedName env chars ++ done
        if c = '$' then environmentValue? env (.name quoted []) done cs
        else environmentValue? env (.text quoted) (c :: done) cs
    | .braced quoted chars =>
      if c = '}' then environmentValue? env (.text quoted) (expandedName env chars ++ done) cs
      else environmentValue? env (.braced quoted (c :: chars)) done cs
    | .text quoted =>
      if c = '$' then environmentValue? env (.name quoted []) done cs
      else if c = '\\' then environmentValue? env (.escape quoted) done cs
      else if c = '"' then environmentValue? env (.text !quoted) done cs
      else if quoted then environmentValue? env (.text true) (c :: done) cs
      else if c = '\'' then environmentValue? env .single done cs
      else if c = ' ' || c = '\t' then environmentValue? env .ended done cs
      else environmentValue? env (.text false) (c :: done) cs

/-! ## Variables -/

/-- Whether a character may stand in the name of a variable. -/
def isVariableChar (c : Char) : Bool := c.isAlphanum || c = '_' || c = '.'

/-- The name at the beginning of a text, and what follows it and the white space behind it. -/
def variableName? (cs : List Char) : Option (List Char × List Char) :=
  match cs with
  | [] => none
  | c :: _ =>
    if c.isAlpha || c = '_' then
      some (cs.takeWhile isVariableChar, (cs.dropWhile isVariableChar).dropWhile isWhiteSpace)
    else none

/-- The name that a line gives a value to, and what stands behind the equals sign. -/
def assignment? (cs : List Char) : Option (List Char × List Char) := do
  let (name, rest) ← variableName? cs
  match rest with
  | '=' :: rest => some (name, rest)
  | _ =>
    if name = "export".toList then
      let (name, rest) ← variableName? rest
      match rest with
      | '=' :: rest => some (name, rest)
      | _ => none
    else none

/-- What a line says. -/
inductive EnvironmentLine where
  | empty
  | binding (name value : String)
  | unreadable

/-- Whether nothing or a comment is left of a line. -/
def saysNothing (cs : List Char) : Bool := cs.isEmpty || cs.head? = some '#'

/-- Reads a line in an environment. -/
def EnvironmentLine.read (env : Environment) (line : List Char) : EnvironmentLine :=
  let trimmed := (line.reverse.dropWhile isWhiteSpace).reverse.dropWhile isWhiteSpace
  if saysNothing trimmed then .empty
  else
    match assignment? trimmed with
    | none => .unreadable
    | some (name, rest) =>
      let rest := rest.dropWhile isWhiteSpace
      if saysNothing rest then .binding (String.ofList name) ""
      else
        match environmentValue? env (.text false) [] rest with
        | some value => .binding (String.ofList name) (String.ofList value)
        | none => .unreadable

namespace Environment

/-- The environment with the variables of some lines that it does not have. -/
def addLines (env : Environment) : List (List Char) → Environment
  | [] => env
  | line :: lines =>
    match EnvironmentLine.read env line with
    | .empty => addLines env lines
    | .binding name value =>
      addLines (if Entries.has name env then env else env ++ [(name, value)]) lines
    | .unreadable => env

/-- The environment with the variables of a file that it does not have. A mark of the byte order at
the beginning of the file is no part of its first line. -/
def addFile (env : Environment) (text : String) : Environment :=
  let cs := match text.toList with
    | '\uFEFF' :: cs => cs
    | cs => cs
  env.addLines (environmentLines .start [] cs)

theorem get?_append_of_has {env : Environment} {name : String} (more : Environment)
    (h : Entries.has name env = true) : get? (env ++ more) name = env.get? name := by
  induction env with
  | nil => simp [Entries.has] at h
  | cons e env ih =>
    obtain ⟨n, v⟩ := e
    by_cases hn : n = name
    · simp [get?, Entries.find?_cons, hn]
    · have h' : Entries.has name env = true := by
        simpa [Entries.has, Entries.find?_cons, hn] using h
      simpa [get?, Entries.find?_cons, hn] using ih h'

/-- What the environment says has precedence. -/
theorem get?_addLines_of_has {env : Environment} {name : String} (lines : List (List Char))
    (h : Entries.has name env = true) : (env.addLines lines).get? name = env.get? name := by
  induction lines generalizing env with
  | nil => rfl
  | cons line lines ih =>
    unfold addLines
    split
    · exact ih h
    · next other value _ =>
      split
      · exact ih h
      · have happ := get?_append_of_has [(other, value)] h
        rw [ih ((congrArg Option.isSome happ).trans h), happ]
    · rfl

end Environment

end Workflow
