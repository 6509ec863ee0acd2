/-! The arguments of the command. -/
namespace MooScript.CommandLine

inductive Command
  | run (path : String)
  | eval (source : String)
  | tokens (path : String)
  | parse (path : String)
  deriving DecidableEq

namespace Command

/-- The command of a name, with its operand; a path is not empty. -/
def ofName? (name operand : String) : Option Command :=
  match name with
  | "eval" => some (eval operand)
  | "run" => if operand.isEmpty then none else some (run operand)
  | "tokens" => if operand.isEmpty then none else some (tokens operand)
  | "parse" => if operand.isEmpty then none else some (parse operand)
  | _ => none

def names : List String := ["run", "eval", "tokens", "parse"]

end Command

/-- What the arguments ask for. -/
inductive Request
  | execute (command : Command) (config : Option String)
  | help
  | version
  /-- The arguments make no sense. -/
  | misuse
  deriving DecidableEq

/-- Options that may stand before the name of the command and after it; each once at a place. -/
structure Options where
  verbose : Bool := false
  config : Option String := none

namespace Options

def setVerbose? (options : Options) : Option Options :=
  if options.verbose then none else some { options with verbose := true }

def setConfig? (options : Options) (path : String) : Option Options :=
  if options.config.isSome || path.isEmpty then none
  else some { options with config := some path }

end Options

/-- What an option leads to. -/
inductive Step
  | go (options : Options)
  /-- The next argument is the path of the configuration. -/
  | wantConfig
  | stop (request : Request)

def Step.ofOption : Option Options → Step
  | some options => go options
  | none => stop .misuse

/-- Reads short options behind one dash; `top` is before the name of the command. -/
def shortOptions (top : Bool) (options : Options) : List Char → Step
  | [] => .go options
  | ['c'] => if options.config.isSome then .stop .misuse else .wantConfig
  | 'c' :: '=' :: path => .ofOption (options.setConfig? (String.ofList path))
  | 'c' :: path => .ofOption (options.setConfig? (String.ofList path))
  | 'v' :: rest => match options.setVerbose? with
    | some options => shortOptions top options rest
    | none => .stop .misuse
  | 'h' :: _ => .stop .help
  | 'V' :: _ => .stop (if top then .version else .misuse)
  | _ => .stop .misuse

/-- Reads an option behind two dashes. -/
def longOption (top : Bool) (options : Options) (name : String) : Step :=
  match name with
  | "verbose" => .ofOption options.setVerbose?
  | "config" => if options.config.isSome then .stop .misuse else .wantConfig
  | "help" => .stop .help
  | "version" => .stop (if top then .version else .misuse)
  | name =>
    if name.startsWith "config=" then .ofOption (options.setConfig? (name.drop 7).toString)
    else .stop .misuse

/-- A lone dash is no option. -/
def isOption (arg : String) : Bool := arg.startsWith "-" && arg != "-"

def readOption (top : Bool) (options : Options) (arg : String) : Step :=
  if arg.startsWith "--" then longOption top options (arg.drop 2).toString
  else shortOptions top options (arg.drop 1).toString.toList

/-- Where options end. -/
inductive Stop
  | atEnd (options : Options)
  | atOperand (options : Options) (operand : String) (rest : List String)
  /-- After two dashes nothing is an option. -/
  | atDashes (options : Options) (rest : List String)
  | asked (request : Request)

def readOptions (top : Bool) (options : Options) : List String → Stop
  | [] => .atEnd options
  | arg :: args =>
    if arg = "--" then .atDashes options args
    else if !isOption arg then .atOperand options arg args
    else match readOption top options arg with
      | .stop request => .asked request
      | .go options => readOptions top options args
      | .wantConfig => match args with
        | [] => .asked .misuse
        | path :: args =>
          if isOption path then .asked .misuse
          else match options.setConfig? path with
            | some options => readOptions top options args
            | none => .asked .misuse

/-- The operand of a command and the options around it. -/
def readOperand (args : List String) : Except Request (String × Options) :=
  match readOptions false {} args with
  | .asked request => .error request
  | .atEnd _ => .error .misuse
  | .atDashes options rest => match rest with
    | [operand] => .ok (operand, options)
    | _ => .error .misuse
  | .atOperand options operand rest => match readOptions false options rest with
    | .asked request => .error request
    | .atEnd options | .atDashes options [] => .ok (operand, options)
    | _ => .error .misuse

def Request.ofArguments (args : List String) : Request :=
  match readOptions true {} args with
  | .asked request => request
  | .atEnd _ | .atDashes _ _ => .misuse
  | .atOperand options name rest =>
    if name = "help" then
      match rest with
      | [] => .help
      | [topic] => if topic = "help" ∨ topic ∈ Command.names then .help else .misuse
      | _ => .misuse
    else if name ∉ Command.names then .misuse
    else match readOperand rest with
      | .error request => request
      | .ok (operand, inner) => match Command.ofName? name operand with
        | some command => .execute command (inner.config <|> options.config)
        | none => .misuse

end MooScript.CommandLine
