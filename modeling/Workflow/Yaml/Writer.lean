import Workflow.Decimal.Layout
import Workflow.Json.Printer
import Workflow.Yaml.Resolve
import Workflow.Yaml.Scan

/-!
# Writing YAML text

Block style, two columns for each level; a sequence under a key stands at the column of the key. A
text is written plainly unless it would be read as something else or misread as punctuation. Then it
comes in single quotes, in double quotes if it holds characters that cannot be shown, and as a block
of lines if it has several lines.
-/

namespace Workflow

/-- Floats in YAML text: plain digits for point positions from `-4` to `16`. -/
def yamlFloat : FloatLayout where
  positional := some (-4, 16)
  pointZero := true
  plusSign := false
  nan := ".nan"
  infinity := ".inf"

/-! ## Styles -/

/-- How a text is written. -/
inductive TextStyle where
  | plain
  | single
  | double
  | lines
deriving DecidableEq

/-- Whether a character is shown as it is. -/
def isShown (c : Char) : Bool :=
  let n := c.toNat
  n = 0x0A || (0x20 ≤ n && n ≤ 0x7E) || (0xA0 ≤ n && n ≤ 0xFFFD && n ≠ 0xFEFF) || 0x10000 ≤ n

/-- Whether some character satisfies the first test and its follower the second. -/
def hasPair (first second : Char → Bool) : List Char → Bool
  | c :: d :: cs => (first c && second d) || hasPair first second (d :: cs)
  | _ => false

/-- Whether punctuation in a text would be misread in a block collection. -/
def hasIndicator (cs : List Char) : Bool :=
  let blank (c : Char) := isYamlBlank c || isYamlBreak c
  let leading := match cs with
    | [] => false
    | c :: rest =>
      c ∈ "#,[]\x7b\x7d&*!|>'\"%@`".toList || (c ∈ ['?', ':', '-'] && atBlank rest)
  let colon := match cs with
    | [] => false
    | _ :: rest => hasPair (· = ':') blank rest || rest.getLast? = some ':'
  leading || colon || hasPair blank (· = '#') cs
    || cs.take 3 = ['-', '-', '-'] || cs.take 3 = ['.', '.', '.']

/-- The style of a text. A key that stands on the line of its colon has no lines of its own. -/
def TextStyle.of (isKey : Bool) (s : String) : TextStyle :=
  let cs := s.toList
  let blank (c : Char) := c = ' '
  let special := !cs.all isShown || hasPair blank isYamlBreak cs
  let breaks := cs.any isYamlBreak
  let outer := (cs.head?.any fun c => blank c || isYamlBreak c)
    || (cs.getLast?.any fun c => blank c || isYamlBreak c)
  if cs.contains '\n' then
    if isKey || special || cs.getLast? = some ' ' then .double else .lines
  else if isKey && breaks then .double
  else
    let needsQuotes := PlainMeaning.of s ≠ .text || isPaddedDigits cs
    if !needsQuotes && !special && !breaks && !outer && !hasIndicator cs then .plain
    else if special || hasPair isYamlBreak blank cs then .double
    else .single

/-! ## Texts -/

/-- A number in upper case hexadecimal digits, at least so many. -/
def hexNumber (width n : Nat) : List Char :=
  let digits := (Nat.toDigits 16 n).map Char.toUpper
  List.replicate (width - digits.length) '0' ++ digits

/-- The characters that stand for one character in double quotes. -/
def yamlEscaped (c : Char) : List Char :=
  match c with
  | '"' => ['\\', '"']
  | '\\' => ['\\', '\\']
  | '\x00' => ['\\', '0']
  | '\x07' => ['\\', 'a']
  | '\x08' => ['\\', 'b']
  | '\t' => ['\\', 't']
  | '\n' => ['\\', 'n']
  | '\x0b' => ['\\', 'v']
  | '\x0c' => ['\\', 'f']
  | '\r' => ['\\', 'r']
  | '\x1b' => ['\\', 'e']
  | '\u0085' => ['\\', 'N']
  | '\u2028' => ['\\', 'L']
  | '\u2029' => ['\\', 'P']
  | c =>
    if isShown c then [c]
    else if c.toNat ≤ 0xFF then '\\' :: 'x' :: hexNumber 2 c.toNat
    else '\\' :: 'u' :: hexNumber 4 c.toNat

/-- The columns before a line. -/
def columns (n : Nat) : String := String.ofList (List.replicate n ' ')

/-- The characters of a text in single quotes. What stands behind line breaks is moved to a column.
-/
def singleQuoted (column : Nat) (behindBreak : Bool) : List Char → List Char
  | [] => if behindBreak then List.replicate column ' ' else []
  | c :: cs =>
    if isYamlBreak c then c :: singleQuoted column true cs
    else
      (if behindBreak then List.replicate column ' ' else [])
        ++ (if c = '\'' then ['\'', '\''] else [c]) ++ singleQuoted column false cs

/-- The lines of a block of lines. Lines with something in them are moved to a column. -/
def blockLines (column : Nat) (behindBreak : Bool) : List Char → List Char
  | [] => []
  | c :: cs =>
    if isYamlBreak c then c :: blockLines column true cs
    else (if behindBreak then List.replicate column ' ' else []) ++ c :: blockLines column false cs

/-- What a block of lines says about its own form: a number for lines that begin with a blank, a
minus for a last line without end, and a plus for empty lines at the end. -/
def blockHints (cs : List Char) : String :=
  let indent := if cs.head?.any fun c => c = ' ' || isYamlBreak c then "2" else ""
  let chomp := match cs.reverse with
    | [] => "-"
    | c :: rest =>
      if !isYamlBreak c then "-"
      else match rest with
        | [] => "+"
        | d :: _ => if isYamlBreak d then "+" else ""
  indent ++ chomp

/-- A text on one line, or one whose further lines stand at a column. -/
def inlineText (isKey : Bool) (column : Nat) (s : String) : String :=
  match TextStyle.of isKey s with
  | .single => "'" ++ String.ofList (singleQuoted column false s.toList) ++ "'"
  | .double => "\"" ++ String.ofList (s.toList.flatMap yamlEscaped) ++ "\""
  | _ => s

/-- A text to the end of its last line. -/
def yamlText (column : Nat) (s : String) : String :=
  match TextStyle.of false s with
  | .lines =>
    let ended := s.toList.getLast?.any isYamlBreak
    "|" ++ blockHints s.toList ++ "\n" ++ String.ofList (blockLines column true s.toList)
      ++ (if ended then "" else "\n")
  | _ => inlineText false column s ++ "\n"

/-- The text of a number. -/
def yamlNumber : Number → String
  | .int n => integerText n.val
  | .float x => yamlFloat.render x

/-! ## Values -/

/-- Whether a name can stand on the line of its colon. -/
def isSimpleKey (name : String) : Bool :=
  name.utf8ByteSize ≤ 128 && !(name.toList.any isYamlBreak)

namespace Json

mutual

/-- A value at some level, from where it begins to the end of its last line. `level` counts the
columns before its lines. -/
def yamlAt (level : Nat) : Json → String
  | .null => "null\n"
  | .bool b => (if b then "true" else "false") ++ "\n"
  | .number n => yamlNumber n ++ "\n"
  | .string s => yamlText level s
  | .array items => if items.isEmpty then "[]\n" else yamlItems level true items
  | .object fields => if fields.isEmpty then "\x7b\x7d\n" else yamlFields level true fields

/-- The items of a sequence. The first one may already be indented. -/
def yamlItems (level : Nat) (indented : Bool) : List Json → String
  | [] => ""
  | v :: vs =>
    (if indented then "" else columns level) ++ "- " ++ yamlAt (level + 2) v
      ++ yamlItems level false vs

/-- The fields of a mapping. The first one may already be indented. A name that is long or has
several lines is marked as a key, and its colon stands on a line of its own. -/
def yamlFields (level : Nat) (indented : Bool) : List (String × Json) → String
  | [] => ""
  | (name, v) :: fields =>
    (if indented then "" else columns level)
      ++ (if isSimpleKey name then inlineText true (level + 2) name ++ ":" ++ yamlValue level v
        else "? " ++ yamlText (level + 2) name ++ columns level ++ ": " ++ yamlAt (level + 2) v)
      ++ yamlFields level false fields

/-- A value behind the colon of its key. -/
def yamlValue (level : Nat) : Json → String
  | .null => " null\n"
  | .bool b => (if b then " true" else " false") ++ "\n"
  | .number n => " " ++ yamlNumber n ++ "\n"
  | .string s => " " ++ yamlText (level + 2) s
  | .array items => if items.isEmpty then " []\n" else "\n" ++ yamlItems level false items
  | .object fields =>
    if fields.isEmpty then " \x7b\x7d\n" else "\n" ++ yamlFields (level + 2) false fields

end

/-- The YAML text of a value. A text that stands by itself has its further lines at column two. -/
def yaml (v : Json) : String :=
  match v with
  | .string s => yamlText 2 s
  | v => yamlAt 0 v

end Json

end Workflow
