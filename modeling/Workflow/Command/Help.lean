import Workflow.Command.Line

/-!
# Help

The words of help on the program and its commands: what it is, how it is asked for, and tables of
its commands, arguments and options in which the explanations stand in one column.
-/

namespace Workflow

/-- The name of the program. -/
def programName : String := "copyflow"

def programVersion : String := "0.1.0"

/-- What a command does. -/
def CommandName.about : CommandName → String
  | .render => "Build the copy-job document with N replicated workers and print it"
  | .validate => "Validate a concrete JSON or YAML workflow document"
  | .expand => "Expand an annotated JSON or YAML definition and print the result"

/-- What the command for help does. -/
def helpAbout : String := "Print this message or the help of the given subcommand(s)"

namespace Switch

/-- How an option is written. -/
def form (s : Switch) : String :=
  let value := match s with
    | .value .format => " <FORMAT>"
    | .value .poolSize => " <POOL_SIZE>"
    | .value .token => " <TOKEN>"
    | .help | .version => ""
  "-" ++ String.singleton s.letter ++ ", --" ++ s.name ++ value

def about : Switch → String
  | .value .format =>
    "Output format (overrides COPYFLOW_OUTPUT_FORMAT) [possible values: json, yaml]"
  | .value .poolSize => "Number of copy workers (overrides COPYFLOW_POOL_SIZE)"
  | .value .token => "Token replaced by each worker's index (overrides COPYFLOW_REPLICA_TOKEN)"
  | .help => "Print help"
  | .version => "Print version"

end Switch

/-- The lines of a table under a heading. -/
def helpTable (heading : String) (rows : List (String × String)) : String :=
  let width := rows.foldl (fun w row => max w row.1.length) 0
  let line (row : String × String) : String :=
    let gap := String.ofList (List.replicate (width - row.1.length + 2) ' ')
    "  " ++ row.1 ++ gap ++ row.2 ++ "\n"
  heading ++ ":\n" ++ String.join (rows.map line)

/-- The table of options. -/
def optionTable (switches : List Switch) : String :=
  helpTable "Options" (switches.map fun s => (s.form, s.about))

namespace HelpTopic

def about : HelpTopic → String
  | .program => "Copy job workflow documents"
  | .command c => c.about
  | .help => helpAbout

/-- How the program is asked. -/
def usage : HelpTopic → String
  | .program => "[OPTIONS] <COMMAND>"
  | .command .render => "render [OPTIONS]"
  | .command c => c.name ++ " [OPTIONS] <FILE>"
  | .help => "help [COMMAND]"

/-- The tables of a topic. -/
def tables : HelpTopic → List String
  | .program =>
    let commands := CommandName.all.map fun c => (c.name, c.about)
    [helpTable "Commands" (commands ++ [("help", helpAbout)]), optionTable Switch.beforeCommand]
  | .command .render => [optionTable (Switch.behind .render)]
  | .command c => [helpTable "Arguments" [("<FILE>", "")], optionTable (Switch.behind c)]
  | .help => [helpTable "Arguments" [("[COMMAND]...", "Print help for the subcommand(s)")]]

/-- The help on a topic. -/
def text (t : HelpTopic) : String :=
  t.about ++ "\n\nUsage: " ++ programName ++ " " ++ t.usage ++ "\n\n"
    ++ String.intercalate "\n" t.tables

end HelpTopic

end Workflow
