import RuleLang.CommandLine.Options
import RuleLang.Json.Parser
import RuleLang.Sample

/-!
# The program

The program validates, evaluates and compiles rules that are read from files. What it prints is the text
up to the first failure.

* `CommandLine.Output`: the exit code and the printed text.
* `CommandLine.Request.files`: the files that a request reads.
* `CommandLine.Request.perform`: the output of a request, given the texts of the files.
-/

namespace RuleLang.CommandLine

/-- What the program leaves behind. -/
structure Output where
  exitCode : Nat
  printed : String

/-- The texts of files; `none` for one that cannot be read. -/
abbrev Files := String → Option String

/-- Printed text followed by the outcome of the part after it. -/
structure Printed (α : Type) where
  text : String
  outcome : Except RuleError α

namespace Printed

/-- The part after a success, whose text follows. -/
def andThen {α β : Type} (p : Printed α) (next : α → Printed β) : Printed β :=
  match p.outcome with
  | .ok a =>
    let rest := next a
    ⟨p.text ++ rest.text, rest.outcome⟩
  | .error e => ⟨p.text, .error e⟩

/-- An outcome without text. -/
def quiet {α : Type} (outcome : Except RuleError α) : Printed α := ⟨"", outcome⟩

/-- A line of text. -/
def line (text : String) : Printed Unit := ⟨text ++ "\n", .ok ()⟩

/-- Parts one after the other. -/
def sequence (parts : List (Printed Unit)) : Printed Unit :=
  parts.foldr (fun part rest => part.andThen fun _ => rest) (quiet (.ok ()))

end Printed

/-- The document in a file. -/
def readDocument (files : Files) (path : String) : Except RuleError Json :=
  match files path with
  | none => .error (.unreadableFile path)
  | some text =>
    match Json.parseFile? text with
    | some json => .ok json
    | none => .error (.malformedDocument path)

/-- The rule in a file. -/
def readRule (files : Files) (path : String) : Except RuleError Node := do
  match Node.ofJson? (← readDocument files path) with
  | some node => return node
  | none => throw (.malformedDocument path)

/-- The configuration in a file, or the default one. -/
def readConfig (files : Files) : Option String → Except RuleError RuleConfig
  | none => .ok .default
  | some path => do
    match RuleConfig.ofJson? (← readDocument files path) with
    | some config => return config
    | none => throw (.malformedDocument path)

/-- The scope in a file, or the sample scope. -/
def readScope (files : Files) : Option String → Except RuleError Scope
  | none => .ok Sample.scope
  | some path => do Scope.ofJson (← readDocument files path)

/-- The engine of the program, over worlds without content. -/
def engine (config : RuleConfig) : Engine Unit :=
  (Sample.engine statementText).withConfig config

/-- A rule, its validated tree and its value. -/
def outcomeText (ast validated : Node) (value : Value) : String :=
  "rule:      " ++ ast.text ++ "\n" ++
    "validated: " ++ validated.text ++ "\n" ++
    "weight:    " ++ toString validated.weight.toNat ++ "\n" ++
    "result:    " ++ value.text ++ " (" ++ value.typeName ++ ")\n"

/-- Evaluates a validated tree and prints its value. -/
def printValue (engine : Engine Unit) (scope : Scope) (ast validated : Node) : Printed Unit :=
  (Printed.quiet ((engine.valueOf scope validated).run ()).1).andThen fun value =>
    ⟨outcomeText ast validated value, .ok ()⟩

/-- Validates a rule and evaluates it. -/
def evaluate (files : Files) (config : RuleConfig) (ast : String) (scope? : Option String)
    (verbose : Bool) : Printed Unit :=
  (Printed.quiet (readScope files scope?)).andThen fun scope =>
    (Printed.quiet (readRule files ast)).andThen fun ast =>
      (Printed.quiet ((engine config).validate ast)).andThen fun validated =>
        (if verbose then Printed.line validated.toJson.pretty else .quiet (.ok ())).andThen fun _ =>
          printValue (engine config) scope ast validated

/-- Compiles a rule with the sample compiler. -/
def compile (files : Files) (config : RuleConfig) (ast : String) : Printed Unit :=
  (Printed.quiet (readRule files ast)).andThen fun ast =>
    (Printed.quiet (Sql.compileToSql (Sample.compiler.withConfig config.optimizer) ast)).andThen
      Printed.line

/-- A line across the page. -/
def divider (c : Char) : String :=
  String.ofList (List.replicate 60 c)

/-- A title between two lines. -/
def header (title : String) : Printed Unit :=
  .line ("\n" ++ divider '=' ++ "\n" ++ title ++ "\n" ++ divider '=')

/-- One of the sample rules. A rule that is not valid is passed over. -/
def sampleRule (engine : Engine Unit) (sample : String × Node) : Printed Unit :=
  .sequence
    [.line ("\n" ++ sample.1 ++ ":"),
      match engine.validate sample.2 with
      | .ok validated => printValue engine Sample.scope sample.2 validated
      | .error _ => .quiet (.ok ()),
      .line (divider '-')]

/-- Runs the sample rules and compiles one. -/
def demo (config : RuleConfig) : Printed Unit :=
  .sequence
    ([header "Running Sample Rules"] ++ Sample.rules.map (sampleRule (engine config)) ++
      [header "Compiling to SQL", .line Sample.sqlRule.text,
        (Printed.quiet (Sql.compileToSql Sample.compiler Sample.sqlRule)).andThen fun sql =>
          .line ("=> " ++ sql),
        .line "\nDemo complete!"])

/-- Performs a command. -/
def perform (files : Files) (config : RuleConfig) : Command → Printed Unit
  | .evaluate ast scope? verbose => evaluate files config ast scope? verbose
  | .compile ast => compile files config ast
  | .demo => demo config

namespace Request

/-- The files that a request reads. -/
def files : Request → List String
  | .run config? (.evaluate ast scope? _) => config?.toList ++ scope?.toList ++ [ast]
  | .run config? (.compile ast) => config?.toList ++ [ast]
  | .run config? .demo => config?.toList
  | _ => []

/-- The output of a request. The configuration is read before anything else. -/
def perform (files : Files) : Request → Output
  | .show text => ⟨0, text⟩
  | .misuse => ⟨2, ""⟩
  | .run config? command =>
    let printed := (Printed.quiet (readConfig files config?)).andThen fun config =>
      CommandLine.perform files config command
    match printed.outcome with
    | .ok _ => ⟨0, printed.text⟩
    | .error _ => ⟨1, printed.text⟩

end Request

end RuleLang.CommandLine
