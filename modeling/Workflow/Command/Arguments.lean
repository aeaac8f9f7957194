import Workflow.Command.Line
import Workflow.Decimal.Reading

/-!
# Reading command lines

```text
copyflow [-f FORMAT] render [-p N] [-t TOKEN] [-f FORMAT]
copyflow [-f FORMAT] validate FILE [-f FORMAT]
copyflow [-f FORMAT] expand FILE [-f FORMAT]
```

The value of an option is the next word or stands directly behind the letter or an equals sign. A
word that begins with a dash is an option and no value, unless it is a single dash or a negative
number where a number is wanted; behind `--` every word is taken as it is. A format behind the
command goes before one that stands in front of it, and an option may be given once on either side.
-/

namespace Workflow

/-- How a word of a command line is meant by its form. -/
inductive ArgumentForm where
  | word
  /-- `--`. -/
  | escape
  /-- `--name` or `--name=value`. -/
  | long (name : String) (value : Option String)
  /-- `-l`, `-lvalue` or `-l=value`. -/
  | short (letter : Char) (value : Option String)

/-- The value directly behind a letter. -/
def attachedValue? : List Char → Option String
  | [] => none
  | '=' :: cs => some (String.ofList cs)
  | cs => some (String.ofList cs)

/-- The form of a word. -/
def ArgumentForm.of (word : String) : ArgumentForm :=
  match word.toList with
  | ['-', '-'] => .escape
  | '-' :: '-' :: cs =>
    let name := String.ofList (cs.takeWhile (· ≠ '='))
    match cs.dropWhile (· ≠ '=') with
    | [] => .long name none
    | _ :: value => .long name (some (String.ofList value))
  | '-' :: letter :: cs => .short letter (attachedValue? cs)
  | _ => .word

/-- Whether a word is a negative whole number. -/
def isNegativeNumber (word : String) : Bool :=
  match word.toList with
  | '-' :: cs => (digitsNumber? cs).isSome
  | _ => false

/-- What has been read of a command line. -/
structure LineState where
  command : Option CommandName := none
  /-- The format on this side of the command. -/
  format : Option OutputFormat := none
  /-- The format in front of the command. -/
  outerFormat : Option OutputFormat := none
  poolSize : Option Int64 := none
  token : Option String := none
  file : Option String := none
  /-- The option whose value comes next. -/
  waiting : Option ValueOption := none
  /-- Every word is taken as it is. -/
  literal : Bool := false

namespace LineState

/-- The options that may come next. -/
def switches (s : LineState) : List Switch :=
  match s.command with
  | none => Switch.beforeCommand
  | some c => Switch.behind c

/-- Stores a value that is not there yet. -/
def setOnce {α : Type} (option : ValueOption) (text : String) (old : Option α)
    (read : String → Option α) : Except UsageError (Option α) :=
  match old, read text with
  | some _, _ => .error (.givenTwice option)
  | none, none => .error (.badValue option text)
  | none, some a => .ok (some a)

/-- Stores the value of an option. -/
def give (s : LineState) (option : ValueOption) (text : String) : Except UsageError LineState :=
  let s := { s with waiting := none }
  match option with
  | .format =>
    (setOnce .format text s.format OutputFormat.ofName?).map fun f => { s with format := f }
  | .poolSize =>
    (setOnce .poolSize text s.poolSize int64Text?).map fun n => { s with poolSize := n }
  | .token => (setOnce .token text s.token some).map fun t => { s with token := t }

/-- Takes a word that belongs to no option. -/
def takeWord (s : LineState) (word : String) : Except UsageError LineState :=
  match s.command with
  | none =>
    match if s.literal then none else CommandName.ofName? word with
    | some c => .ok { s with command := some c, format := none, outerFormat := s.format }
    | none => .error (.unknownCommand word)
  | some .render => .error (.unexpected word)
  | some .validate | some .expand =>
    if s.file.isSome then .error (.unexpected word)
    else if word.isEmpty then .error .noFile
    else .ok { s with file := some word }

/-- The topic of the help on what is being asked for. -/
def topic (s : LineState) : HelpTopic :=
  match s.command with
  | none => .program
  | some c => .command c

/-- The end of the command line. -/
def finish (s : LineState) : Except UsageError CommandLine :=
  let format := s.format.orElse fun _ => s.outerFormat
  match s.waiting, s.command, s.file with
  | some option, _, _ => .error (.missingValue option)
  | none, none, _ => .error .noCommand
  | none, some .render, _ => .ok ⟨.render s.poolSize s.token, format⟩
  | none, some .validate, some file => .ok ⟨.validate file, format⟩
  | none, some .expand, some file => .ok ⟨.expand file, format⟩
  | none, some _, none => .error .noFile

end LineState

/-- What comes of a word: more to read, or an answer that nothing behind it changes. -/
inductive AfterWord where
  | more (s : LineState)
  | settled (line : CommandLine)

/-- The request for help behind the word `help`. -/
def helpRequest : List String → Except UsageError CommandLine
  | [] => .ok ⟨.help .program, none⟩
  | [word] =>
    match CommandName.ofName? word with
    | some c => .ok ⟨.help (.command c), none⟩
    | none => if word = "help" then .ok ⟨.help .help, none⟩ else .error (.unknownCommand word)
  | _ :: word :: _ => .error (.unknownCommand word)

/-- Takes an option, with the value that stands directly behind it. -/
def takeSwitch (s : LineState) (word : String) (switch : Option Switch) (isLong : Bool)
    (value : Option String) : Except UsageError AfterWord :=
  match s.waiting, switch, value with
  | some option, _, _ => .error (.missingValue option)
  | none, none, _ => .error (.unknownOption word)
  | none, some (.value option), some text => (s.give option text).map .more
  | none, some (.value option), none => .ok (.more { s with waiting := some option })
  | none, some switch, value =>
    if isLong && value.isSome then .error (.valueGiven switch.name)
    else if switch = .help then .ok (.settled ⟨.help s.topic, none⟩)
    else .ok (.settled ⟨.version, none⟩)

/-- Takes a word that is read by its form. -/
def takeArgument (s : LineState) (word : String) : Except UsageError AfterWord :=
  match ArgumentForm.of word with
  | .escape =>
    match s.waiting with
    | some option => .error (.missingValue option)
    | none => .ok (.more { s with literal := true })
  | .long name value =>
    takeSwitch s word (s.switches.find? fun w => w.name = name) true value
  | .short letter value =>
    if s.waiting = some .poolSize && isNegativeNumber word then (s.give .poolSize word).map .more
    else takeSwitch s word (s.switches.find? fun w => w.letter = letter) false value
  | .word =>
    match s.waiting with
    | some option => (s.give option word).map .more
    | none => (s.takeWord word).map .more

/-- Reads the rest of a command line. -/
def readArguments (s : LineState) : List String → Except UsageError CommandLine
  | [] => s.finish
  | word :: words =>
    if s.literal then
      match s.takeWord word with
      | .error e => .error e
      | .ok s => readArguments s words
    else if s.command = none && s.waiting = none && word = "help" then helpRequest words
    else
      match takeArgument s word with
      | .error e => .error e
      | .ok (.settled line) => .ok line
      | .ok (.more s) => readArguments s words

/-- Reads the words of a command line. -/
def CommandLine.ofArguments (words : List String) : Except UsageError CommandLine :=
  readArguments {} words

end Workflow
