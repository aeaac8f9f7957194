import Workflow.Decimal.Reading
import Workflow.Json.Value

/-!
# Reading JSON text

The readers take a list of characters and give what they read with the characters that are left.
Fields stay in the order of the text and names may repeat. Containers nest at most 127 deep.

A number with a point, an exponent, a negative zero or more than sixty-four bits becomes a float.
Its significand is made of the leading digits that fit sixty-four bits; further digits only move the
point.
-/

namespace Workflow

namespace Json

/-- The blanks between the tokens of a text. -/
def isJsonBlank (c : Char) : Bool := c = ' ' || c = '\n' || c = '\t' || c = '\r'

def dropBlanks (cs : List Char) : List Char := cs.dropWhile isJsonBlank

/-! ## Strings -/

def hexDigit? (c : Char) : Option Nat :=
  if '0' ≤ c ∧ c ≤ '9' then some (c.toNat - '0'.toNat)
  else if 'a' ≤ c ∧ c ≤ 'f' then some (c.toNat - 'a'.toNat + 10)
  else if 'A' ≤ c ∧ c ≤ 'F' then some (c.toNat - 'A'.toNat + 10)
  else none

/-- Four hexadecimal digits. -/
def hexUnit? (a b c d : Char) : Option Nat := do
  let a ← hexDigit? a
  let b ← hexDigit? b
  let c ← hexDigit? c
  let d ← hexDigit? d
  return ((a * 16 + b) * 16 + c) * 16 + d

/-- The character of an escape with one letter. -/
def shortEscape? : Char → Option Char
  | '"' => some '"'
  | '\\' => some '\\'
  | '/' => some '/'
  | 'b' => some '\x08'
  | 'f' => some '\x0c'
  | 'n' => some '\n'
  | 'r' => some '\r'
  | 't' => some '\t'
  | _ => none

/-- The first half of a character beyond sixteen bits. -/
def isHighHalf (n : Nat) : Bool := 0xD800 ≤ n && n ≤ 0xDBFF

/-- The second half of a character beyond sixteen bits. -/
def isLowHalf (n : Nat) : Bool := 0xDC00 ≤ n && n ≤ 0xDFFF

/-- A string from behind its opening quote. `done` holds the characters read, the last one first. A
half of a character is only allowed together with the other half. -/
def stringTail (done : List Char) : List Char → Option (String × List Char)
  | '"' :: cs => some (String.ofList done.reverse, cs)
  | '\\' :: 'u' :: a :: b :: c :: d :: '\\' :: 'u' :: e :: f :: g :: h :: cs =>
    match hexUnit? a b c d with
    | none => none
    | some n =>
      if isHighHalf n then
        match hexUnit? e f g h with
        | none => none
        | some m =>
          if isLowHalf m then
            let code := 0x10000 + (n - 0xD800) * 0x400 + (m - 0xDC00)
            stringTail (Char.ofNat code :: done) cs
          else none
      else if isLowHalf n then none
      else stringTail (Char.ofNat n :: done) ('\\' :: 'u' :: e :: f :: g :: h :: cs)
  | '\\' :: 'u' :: a :: b :: c :: d :: cs =>
    match hexUnit? a b c d with
    | none => none
    | some n =>
      if isHighHalf n || isLowHalf n then none else stringTail (Char.ofNat n :: done) cs
  | '\\' :: c :: cs =>
    match shortEscape? c with
    | none => none
    | some x => stringTail (x :: done) cs
  | c :: cs => if c.toNat < 0x20 then none else stringTail (c :: done) cs
  | [] => none

/-! ## Numbers -/

/-- A significand under construction, with the power of ten it is to be scaled by. -/
structure Significand where
  value : Nat := 0
  scale : Int := 0
  /-- A digit has been dropped. -/
  full : Bool := false

/-- Takes a digit before the point. -/
def Significand.whole (s : Significand) (c : Char) : Significand :=
  let next := 10 * s.value + (c.toNat - '0'.toNat)
  if s.full || UInt64.size ≤ next then { s with scale := s.scale + 1, full := true }
  else { s with value := next }

/-- Takes a digit behind the point. -/
def Significand.part (s : Significand) (c : Char) : Significand :=
  let next := 10 * s.value + (c.toNat - '0'.toNat)
  if s.full || UInt64.size ≤ next then { s with full := true }
  else { s with value := next, scale := s.scale - 1 }

/-- The largest exponent that is told from greater ones. -/
def exponentLimit : Nat := 0x7FFFFFFF

/-- The float of a significand and an exponent. An exponent beyond the limit gives zero, or an
overflow when it is positive and there is something to scale. -/
def floatOf? (negative : Bool) (s : Significand) (down : Bool) (exponent : Nat) : Option Float :=
  let signed (x : Float) := if negative then -x else x
  if exponentLimit < exponent then
    if s.value ≠ 0 && !down then none else some (signed (Float.ofBits 0))
  else
    let shift : Int := if down then -exponent else exponent
    (scaledFloat (UInt64.ofNat s.value) (s.scale + shift)).map signed

/-- The number of an optional exponent part, its direction, and the characters left. -/
def exponentPart (cs : List Char) : Option (Bool × Nat × List Char) :=
  let digits (down : Bool) (cs : List Char) :=
    match cs.takeWhile Char.isDigit with
    | [] => none
    | ds => some (down, digitsValue ds, cs.dropWhile Char.isDigit)
  match cs with
  | e :: cs =>
    if e = 'e' ∨ e = 'E' then
      match cs with
      | '+' :: cs => digits false cs
      | '-' :: cs => digits true cs
      | cs => digits false cs
    else some (false, 0, e :: cs)
  | [] => some (false, 0, [])

/-- A number from behind its sign. -/
def numberTail (negative : Bool) (cs : List Char) : Option (Number × List Char) := do
  let whole := cs.takeWhile Char.isDigit
  let cs := cs.dropWhile Char.isDigit
  match whole with
  | [] => none
  | ['0'] => pure ()
  | '0' :: _ => none
  | _ => pure ()
  let s := whole.foldl Significand.whole {}
  match cs with
  | '.' :: cs =>
    let part := cs.takeWhile Char.isDigit
    if part = [] then none
    let s := part.foldl Significand.part { s with full := false }
    let (down, exponent, cs) ← exponentPart (cs.dropWhile Char.isDigit)
    let x ← floatOf? negative s down exponent
    return (.float x, cs)
  | c :: _ =>
    if c = 'e' ∨ c = 'E' then
      let (down, exponent, cs) ← exponentPart cs
      let x ← floatOf? negative s down exponent
      return (.float x, cs)
    else integer s cs
  | [] => integer s cs
where
  /-- A number without point and exponent. -/
  integer (s : Significand) (cs : List Char) : Option (Number × List Char) :=
    let value : Int := if negative then -s.value else s.value
    if s.full then (floatOf? negative s false 0).map fun x => (.float x, cs)
    else if negative && s.value = 0 then some (.float (-(Float.ofBits 0)), cs)
    else match WideInt.ofInt? value with
      | some n => some (.int n, cs)
      | none => some (.float (-(UInt64.ofNat s.value).toFloat), cs)

/-! ## Values -/

mutual

/-- A value at the head of a text. `depth` is how many containers may still be opened and `fuel`
bounds the number of steps. -/
def value (fuel depth : Nat) (cs : List Char) : Option (Json × List Char) :=
  match fuel with
  | 0 => none
  | fuel + 1 =>
    match dropBlanks cs with
    | 'n' :: 'u' :: 'l' :: 'l' :: cs => some (.null, cs)
    | 't' :: 'r' :: 'u' :: 'e' :: cs => some (.bool true, cs)
    | 'f' :: 'a' :: 'l' :: 's' :: 'e' :: cs => some (.bool false, cs)
    | '"' :: cs => (stringTail [] cs).map fun (s, cs) => (.string s, cs)
    | '-' :: cs => (numberTail true cs).map fun (n, cs) => (.number n, cs)
    | '[' :: cs =>
      match depth with
      | 0 => none
      | depth + 1 =>
        match dropBlanks cs with
        | ']' :: cs => some (.array [], cs)
        | cs => items fuel depth [] cs
    | '{' :: cs =>
      match depth with
      | 0 => none
      | depth + 1 =>
        match dropBlanks cs with
        | '}' :: cs => some (.object [], cs)
        | cs => fields fuel depth [] cs
    | cs => (numberTail false cs).map fun (n, cs) => (.number n, cs)

/-- The items of an array up to its end. -/
def items (fuel depth : Nat) (done : List Json) (cs : List Char) : Option (Json × List Char) :=
  match fuel with
  | 0 => none
  | fuel + 1 =>
    match value fuel depth cs with
    | none => none
    | some (v, cs) =>
      match dropBlanks cs with
      | ',' :: cs => items fuel depth (v :: done) cs
      | ']' :: cs => some (.array (v :: done).reverse, cs)
      | _ => none

/-- The fields of an object up to its end. -/
def fields (fuel depth : Nat) (done : List (String × Json)) (cs : List Char) :
    Option (Json × List Char) :=
  match fuel with
  | 0 => none
  | fuel + 1 =>
    match dropBlanks cs with
    | '"' :: cs =>
      match stringTail [] cs with
      | none => none
      | some (name, cs) =>
        match dropBlanks cs with
        | ':' :: cs =>
          match value fuel depth cs with
          | none => none
          | some (v, cs) =>
            match dropBlanks cs with
            | ',' :: cs => fields fuel depth ((name, v) :: done) cs
            | '}' :: cs => some (.object ((name, v) :: done).reverse, cs)
            | _ => none
        | _ => none
    | _ => none

end

/-- How deep the containers of a text may nest. -/
def maxDepth : Nat := 127

/-- The value written by a text, its fields in the order of the text. Every step but the last reads
at least one character, which bounds their number. -/
def ofText? (text : String) : Option Json :=
  let cs := text.toList
  match value (2 * cs.length + 2) maxDepth cs with
  | some (v, rest) => if dropBlanks rest = [] then some v else none
  | none => none

end Json

end Workflow
