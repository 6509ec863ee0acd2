import MooScript.CommandLine.Arguments
import MooScript.Configuration
import MooScript.Interpreter
import MooScript.Syntax.Document

/-! The command: it runs a program, or shows its tokens or its tree. -/
namespace MooScript.CommandLine

/-- The status and the output of the command. -/
structure Result where
  status : UInt32
  output : String

def success (output : String) : Result := ⟨0, output⟩

def failure : Result := ⟨1, ""⟩

def misuse : Result := ⟨2, ""⟩

def versionText : String := "oxi 0.3.0\n"

def helpText : String :=
  String.join (List.map (· ++ "\n")
    ["The Oxi scripting language",
      "",
      "Usage: oxi [OPTIONS] <COMMAND>",
      "",
      "Commands:",
      "  run     Run an Oxi source file",
      "  eval    Evaluate source given on the command line",
      "  tokens  Print the tokens of a source file",
      "  parse   Print the AST of a source file as JSON",
      "  help    Print this message or the help of the given subcommand(s)",
      "",
      "Options:",
      "  -v, --verbose        Enable verbose output",
      "  -c, --config <FILE>  Configuration file",
      "  -h, --help           Print help",
      "  -V, --version        Print version"])

def padLeft (width : Nat) (s : String) : String :=
  String.ofList (List.replicate (width - s.length) ' ') ++ s

def padRight (width : Nat) (s : String) : String :=
  s ++ String.ofList (List.replicate (width - s.length) ' ')

/-- A token on a line of its own: line, column, kind and text. -/
def tokenLine (t : Token) : String :=
  padLeft 4 (toString t.position.line) ++ ":" ++ padRight 3 (toString t.position.column) ++ " " ++
    padRight 12 t.kind.text ++ " " ++ t.text ++ "\n"

def runText (config : Configuration) (source : String) : Result :=
  match ((Interpreter.fresh config.maxRangeLength).runSource source).1 with
  | .ok value => success (value.literal ++ "\n")
  | .error _ => failure

def tokensText (source : String) : Result :=
  match Token.lex source with
  | .ok tokens => success (String.join (tokens.map tokenLine))
  | .error _ => failure

def treeText (source : String) : Result :=
  match Stmt.ofSource source with
  | .ok program => success ((program.toJson Value.toJson).pretty 0 ++ "\n")
  | .error _ => failure

/-- Does something with a file that can be read. -/
def withFile {m : Type → Type} [Monad m] (read : String → m (Option String)) (path : String)
    (f : String → Result) : m Result := do
  match ← read path with
  | some text => return f text
  | none => return failure

def execute {m : Type → Type} [Monad m] (read : String → m (Option String))
    (config : Configuration) : Command → m Result
  | .run path => withFile read path (runText config)
  | .eval source => return runText config source
  | .tokens path => withFile read path tokensText
  | .parse path => withFile read path treeText

/-- What the command does with its arguments; `read` gives the content of a file. The
configuration comes first. -/
def perform {m : Type → Type} [Monad m] (read : String → m (Option String)) (args : List String) :
    m Result := do
  match Request.ofArguments args with
  | .misuse => return misuse
  | .help => return success helpText
  | .version => return success versionText
  | .execute command none => execute read {} command
  | .execute command (some path) => do
    match (← read path).bind Configuration.ofToml? with
    | some config => execute read config command
    | none => return failure

end MooScript.CommandLine
