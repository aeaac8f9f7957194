import Workflow.Settings.Basic

/-!
# Command lines

What the program can be asked for, the words it is asked with, and what can be wrong with them.
-/

namespace Workflow

/-- The commands. -/
inductive CommandName where
  | render
  | validate
  | expand
deriving DecidableEq

namespace CommandName

def all : List CommandName := [.render, .validate, .expand]

def name : CommandName → String
  | .render => "render"
  | .validate => "validate"
  | .expand => "expand"

/-- The command of a name. -/
def ofName? (name : String) : Option CommandName := all.find? fun c => c.name = name

end CommandName

/-- The options that take a value. -/
inductive ValueOption where
  | format
  | poolSize
  | token
deriving DecidableEq

/-- What may be asked for with an option. -/
inductive Switch where
  | value (option : ValueOption)
  | help
  | version
deriving DecidableEq

namespace Switch

/-- The name of an option that is written in full. -/
def name : Switch → String
  | .value .format => "format"
  | .value .poolSize => "pool-size"
  | .value .token => "token"
  | .help => "help"
  | .version => "version"

/-- The letter of an option. -/
def letter : Switch → Char
  | .value .format => 'f'
  | .value .poolSize => 'p'
  | .value .token => 't'
  | .help => 'h'
  | .version => 'V'

/-- The options that may stand before a command. -/
def beforeCommand : List Switch := [.value .format, .help, .version]

/-- The options that may stand behind a command. -/
def behind : CommandName → List Switch
  | .render => [.value .format, .value .poolSize, .value .token, .help]
  | .validate => [.value .format, .help]
  | .expand => [.value .format, .help]

end Switch

/-- What there are words of help on. -/
inductive HelpTopic where
  | program
  | command (name : CommandName)
  | help
deriving DecidableEq

/-- What the program is asked for. -/
inductive Request where
  /-- The document of the copy job. What is not given is up to the settings. -/
  | render (poolSize : Option Int64) (token : Option String)
  | validate (file : String)
  | expand (file : String)
  | help (topic : HelpTopic)
  | version
deriving DecidableEq

/-- What a command line says. -/
structure CommandLine where
  request : Request
  format : Option OutputFormat := none
deriving DecidableEq

/-- What can be wrong with a command line. -/
inductive UsageError where
  | noCommand
  | unknownCommand (word : String)
  | unknownOption (text : String)
  | missingValue (option : ValueOption)
  | badValue (option : ValueOption) (text : String)
  | valueGiven (name : String)
  | givenTwice (option : ValueOption)
  | unexpected (word : String)
  | noFile
deriving DecidableEq

def UsageError.message : UsageError → String
  | .noCommand => "there is no command"
  | .unknownCommand word => s!"'{word}' is no command"
  | .unknownOption text => s!"'{text}' is no option here"
  | .missingValue option => s!"a value is missing for --{(Switch.value option).name}"
  | .badValue option text => s!"'{text}' is no value for --{(Switch.value option).name}"
  | .valueGiven name => s!"--{name} takes no value"
  | .givenTwice option => s!"--{(Switch.value option).name} is given twice"
  | .unexpected word => s!"'{word}' is one word too many"
  | .noFile => "the name of a file is missing"

end Workflow
