/-!
# Command-line arguments

The program takes a command with options, long (`--ast FILE`, `--ast=FILE`) or short (`-a FILE`,
`-aFILE`, `-a=FILE`); short flags may stand together, and `--config` may also stand before the command.

* `CommandLine.Request`: what is asked for.
* `CommandLine.read`: the request of a list of arguments, or a text to show, or a misuse.
-/

namespace RuleLang.CommandLine

/-- A command with its own options. -/
inductive Command where
  /-- Validate a rule and evaluate it in a scope; `verbose` also prints the validated tree. -/
  | evaluate (ast : String) (scope? : Option String) (verbose : Bool)
  /-- Compile a rule to SQL. -/
  | compile (ast : String)
  /-- Run the sample rules. -/
  | demo
  deriving DecidableEq

/-- What a list of arguments asks for. -/
inductive Request where
  | run (config? : Option String) (command : Command)
  /-- Print a text and end. -/
  | show (text : String)
  /-- The arguments are not understood. -/
  | misuse
  deriving DecidableEq

/-- The commands by name. -/
inductive Verb where
  | evaluate
  | compile
  | demo
  deriving DecidableEq

/-- The options with a value. -/
inductive Field where
  | config
  | ast
  | scope
  deriving DecidableEq

/-- What an option means. -/
inductive Flag where
  | field (field : Field)
  | verbose
  | help
  | version
  deriving DecidableEq

/-- The command of a name. -/
def verb? (name : String) : Option Verb :=
  if name = "eval" then some .evaluate
  else if name = "compile" then some .compile
  else if name = "demo" then some .demo
  else none

/-- The long and short options that may stand before a command (`none`) or after it. -/
def flags : Option Verb → List (String × Char × Flag)
  | none => [("config", 'c', .field .config), ("help", 'h', .help), ("version", 'V', .version)]
  | some .evaluate =>
    [("ast", 'a', .field .ast), ("config", 'c', .field .config), ("scope", 's', .field .scope),
      ("verbose", 'v', .verbose), ("help", 'h', .help)]
  | some .compile => [("ast", 'a', .field .ast), ("config", 'c', .field .config), ("help", 'h', .help)]
  | some .demo => [("config", 'c', .field .config), ("help", 'h', .help)]

/-- The meaning of a long option. -/
def longFlag? (verb? : Option Verb) (name : String) : Option Flag :=
  ((flags verb?).find? fun entry => entry.1 == name).map fun entry => entry.2.2

/-- The meaning of a short option. -/
def shortFlag? (verb? : Option Verb) (letter : Char) : Option Flag :=
  ((flags verb?).find? fun entry => entry.2.1 == letter).map fun entry => entry.2.2

/-- The name and version of the program. -/
def versionText : String := "rule-runner 0.1.0\n"

/-- The line of an option in a help text. -/
def optionLine : Flag → String
  | .field .config => "  -c, --config <CONFIG>  JSON configuration file\n"
  | .field .ast => "  -a, --ast <AST>        JSON expression tree\n"
  | .field .scope =>
    "  -s, --scope <SCOPE>    JSON scope; the sample scope is used when omitted\n"
  | .verbose => "  -v, --verbose          Print the validated tree\n"
  | .help => "  -h, --help             Print help\n"
  | .version => "  -V, --version          Print version\n"

/-- The lines of the options that may stand before or after a command. -/
def optionLines (verb? : Option Verb) : String :=
  "Options:\n" ++ String.join ((flags verb?).map fun entry => optionLine entry.2.2)

/-- The help text of the program or of a command. -/
def helpText (verb? : Option Verb) : String :=
  (match verb? with
    | none =>
      "Validate, evaluate and compile rule expressions\n\n" ++
        "Usage: rule-runner [OPTIONS] <COMMAND>\n\n" ++
        "Commands:\n" ++
        "  eval     Validate a rule and evaluate it against a scope\n" ++
        "  compile  Compile a rule against the SQL schema\n" ++
        "  demo     Run the sample rules\n" ++
        "  help     Print this message or the help of the given subcommand(s)\n\n"
    | some .evaluate =>
      "Validate a rule and evaluate it against a scope\n\n" ++
        "Usage: rule-runner eval [OPTIONS] --ast <AST>\n\n"
    | some .compile =>
      "Compile a rule against the SQL schema\n\n" ++
        "Usage: rule-runner compile [OPTIONS] --ast <AST>\n\n"
    | some .demo => "Run the sample rules\n\nUsage: rule-runner demo [OPTIONS]\n\n") ++
    optionLines verb?

/-- What was read so far: the command, the configuration before it, and the options since. -/
structure Progress where
  verb? : Option Verb
  earlierConfig? : Option String
  config? : Option String
  ast? : Option String
  scope? : Option String
  verbose : Bool

namespace Progress

/-- Nothing was read. -/
def start : Progress := ⟨none, none, none, none, none, false⟩

/-- Whether an option was given. -/
def has (p : Progress) : Field → Bool
  | .config => p.config?.isSome
  | .ast => p.ast?.isSome
  | .scope => p.scope?.isSome

/-- Gives an option its value. An option is given once, and not with an empty value. -/
def set? (p : Progress) (field : Field) (value : String) : Option Progress :=
  if p.has field || value.isEmpty then none
  else
    match field with
    | .config => some { p with config? := some value }
    | .ast => some { p with ast? := some value }
    | .scope => some { p with scope? := some value }

/-- Sets the flag for the validated tree, which is given once. -/
def setVerbose? (p : Progress) : Option Progress :=
  if p.verbose then none else some { p with verbose := true }

/-- Goes on after a command. -/
def enter (p : Progress) (verb : Verb) : Progress :=
  { p with verb? := some verb, earlierConfig? := p.config?, config? := none }

/-- The request at the end of the arguments. -/
def finish (p : Progress) : Request :=
  let config? := p.config?.or p.earlierConfig?
  match p.verb?, p.ast? with
  | some .evaluate, some ast => .run config? (.evaluate ast p.scope? p.verbose)
  | some .compile, some ast => .run config? (.compile ast)
  | some .demo, _ => .run config? .demo
  | _, _ => .misuse

end Progress

/-- What an argument does. -/
inductive Step where
  | go (p : Progress)
  /-- The next argument is the value of an option. -/
  | await (p : Progress) (field : Field)
  | done (request : Request)

/-- Goes on, if there is a way. -/
def Step.ofOption : Option Progress → Step
  | some p => .go p
  | none => .done .misuse

/-- A value attached to a short option, perhaps after an equals sign. -/
def attachedValue (rest : List Char) : String :=
  String.ofList (if rest.head? = some '=' then rest.drop 1 else rest)

/-- Short options that stand together. -/
def readShort (p : Progress) : List Char → Step
  | [] => .go p
  | letter :: rest =>
    match shortFlag? p.verb? letter with
    | none => .done .misuse
    | some .help => .done (.show (helpText p.verb?))
    | some .version => .done (.show versionText)
    | some .verbose =>
      match p.setVerbose? with
      | some p => readShort p rest
      | none => .done .misuse
    | some (.field field) =>
      if rest.isEmpty then .await p field
      else .ofOption (p.set? field (attachedValue rest))

/-- A long option, given what follows its dashes. -/
def readLong (p : Progress) (body : List Char) : Step :=
  let name := String.ofList (body.takeWhile (· != '='))
  let value? :=
    match body.dropWhile (· != '=') with
    | _ :: value => some (String.ofList value)
    | [] => none
  match longFlag? p.verb? name, value? with
  | some (.field field), some value => .ofOption (p.set? field value)
  | some (.field field), none => .await p field
  | some .verbose, none => .ofOption p.setVerbose?
  | some .help, none => .done (.show (helpText p.verb?))
  | some .version, none => .done (.show versionText)
  | _, _ => .done .misuse

/-- The help text of the command `help` itself. -/
def helpOfHelp : String :=
  "Print this message or the help of the given subcommand(s)\n\n" ++
    "Usage: rule-runner help [COMMAND]...\n\n" ++
    "Arguments:\n  [COMMAND]...  Print help for the subcommand(s)\n"

/-- The help text that the arguments after `help` ask for. -/
def readHelp : List String → Request
  | [] => .show (helpText none)
  | [name] =>
    match verb? name with
    | some verb => .show (helpText (some verb))
    | none => if name = "help" then .show helpOfHelp else .misuse
  | _ => .misuse

/-- Whether an argument is an option and not a value. -/
def isOption (argument : String) : Bool :=
  argument.startsWith "-" && argument != "-"

/-- The request of the arguments that are left. -/
def readFrom (p : Progress) : List String → Request
  | [] => p.finish
  | argument :: rest =>
    match argument.toList with
    | ['-', '-'] => if rest.isEmpty then p.finish else .misuse
    | '-' :: '-' :: body => continueWith (readLong p body) rest
    | '-' :: letter :: letters => continueWith (readShort p (letter :: letters)) rest
    | _ =>
      match p.verb?, verb? argument with
      | none, some verb => readFrom (p.enter verb) rest
      | none, none => if argument = "help" then readHelp rest else .misuse
      | some _, _ => .misuse
where
  /-- Goes on after an option. -/
  continueWith (step : Step) (rest : List String) : Request :=
    match step, rest with
    | .done request, _ => request
    | .go p, rest => readFrom p rest
    | .await _ _, [] => .misuse
    | .await p field, value :: rest =>
      if isOption value then .misuse
      else
        match p.set? field value with
        | some p => readFrom p rest
        | none => .misuse

/-- The request of a list of arguments. -/
def read (arguments : List String) : Request :=
  readFrom .start arguments

end RuleLang.CommandLine
