import ODataClient.CommandLine.Words
import ODataClient.Settings.File

/-! The arguments of the program: a task, the options of the task, and those that can
stand before or after its name. No option that has one value can be given twice. -/

namespace ODataClient

inductive OutputFormat
  | text
  | json
  deriving DecidableEq

structure CompileOptions where
  model : Option String
  config : Option String
  protocol : Option String
  strict : Bool
  enumTypeFree : Bool
  unescaped : Bool
  updateMethod : Option UpdateMethod
  deriving DecidableEq

inductive Task
  | compile (command : String) (options : CompileOptions)
  | detect (headers : List String) (metadata : Option String)
  deriving DecidableEq

structure Arguments where
  format : OutputFormat
  task : Task
  deriving DecidableEq

inductive Stop
  | misuse
  | help
  | version
  deriving DecidableEq

structure SharedOptions where
  format : Option OutputFormat
  verbose : Bool

structure CompileArguments where
  shared : SharedOptions
  command : Option String
  options : CompileOptions

structure DetectArguments where
  shared : SharedOptions
  headers : List String
  metadata : Option String

def OutputFormat.read : String → Except Stop OutputFormat
  | "text" => .ok text
  | "json" => .ok json
  | _ => .error .misuse

def UpdateMethod.read (s : String) : Except Stop UpdateMethod :=
  match UpdateMethod.ofName? s with
  | some u => .ok u
  | none => .error .misuse

def readPath (s : String) : Except Stop String := if s.isEmpty then .error .misuse else .ok s

def setOnce {α : Type} (old : Option α) (v : α) : Except Stop (Option α) :=
  if old.isSome then .error .misuse else .ok (some v)

def raiseOnce (old : Bool) : Except Stop Bool := if old then .error .misuse else .ok true

def SharedOptions.none : SharedOptions := ⟨Option.none, false⟩

def SharedOptions.add (s : SharedOptions) : Word → Except Stop SharedOptions
  | .value "format" name => do
    return { s with format := ← setOnce s.format (← OutputFormat.read name) }
  | .flag "verbose" => return { s with verbose := ← raiseOnce s.verbose }
  | .flag "help" => .error .help
  | .flag "version" => .error .version
  | _ => .error .misuse

def CompileArguments.none : CompileArguments :=
  ⟨.none, Option.none, ⟨Option.none, Option.none, Option.none, false, false, false, Option.none⟩⟩

def CompileArguments.add (a : CompileArguments) (word : Word) : Except Stop CompileArguments := do
  let o := a.options
  match word with
  | .operand path => return { a with command := ← setOnce a.command (← readPath path) }
  | .value "model" path =>
    return { a with options.model := ← setOnce o.model (← readPath path) }
  | .value "config" path =>
    return { a with options.config := ← setOnce o.config (← readPath path) }
  | .value "protocol" token => return { a with options.protocol := ← setOnce o.protocol token }
  | .value "update-method" name =>
    return { a with options.updateMethod := ← setOnce o.updateMethod (← UpdateMethod.read name) }
  | .flag "strict" => return { a with options.strict := ← raiseOnce o.strict }
  | .flag "enum-prefix-free" => return { a with options.enumTypeFree := ← raiseOnce o.enumTypeFree }
  | .flag "no-escape" => return { a with options.unescaped := ← raiseOnce o.unescaped }
  | word => return { a with shared := ← a.shared.add word }

def DetectArguments.none : DetectArguments := ⟨.none, [], Option.none⟩

def DetectArguments.add (a : DetectArguments) (word : Word) : Except Stop DetectArguments := do
  match word with
  | .value "header" text => return { a with headers := a.headers ++ [text] }
  | .value "metadata" path => return { a with metadata := ← setOnce a.metadata (← readPath path) }
  | word => return { a with shared := ← a.shared.add word }

def programOptions : OptionSet where
  named := [("format", .value), ("verbose", .flag), ("help", .flag), ("version", .flag)]
  letters := [('v', "verbose"), ('h', "help"), ('V', "version")]
  namesTask := true

def taskOptions (own : List (String × OptionKind)) : OptionSet where
  named := own ++ [("format", .value), ("verbose", .flag), ("help", .flag)]
  letters := [('v', "verbose"), ('h', "help")]
  namesTask := false

def compileOptions : OptionSet :=
  taskOptions [("model", .value), ("config", .value), ("protocol", .value), ("strict", .flag),
    ("enum-prefix-free", .flag), ("no-escape", .flag), ("update-method", .value)]

def detectOptions : OptionSet := taskOptions [("header", .value), ("metadata", .value)]

/-- A format after the name of the task counts before one that stands before it. -/
def SharedOptions.chosenFormat (before after : SharedOptions) : OutputFormat :=
  (after.format.or before.format).getD .text

namespace Arguments

def readTask (config : Option String) (before : SharedOptions) :
    String → List String → Except Stop Arguments
  | "compile", arguments => do
    let a ← (compileOptions.words arguments).foldlM CompileArguments.add .none
    let config ← (a.options.config.or config).mapM readPath
    match a.command with
    | some command =>
      return ⟨before.chosenFormat a.shared, .compile command { a.options with config := config }⟩
    | none => throw .misuse
  | "detect", arguments => do
    let a ← (detectOptions.words arguments).foldlM DetectArguments.add .none
    return ⟨before.chosenFormat a.shared, .detect a.headers a.metadata⟩
  | _, _ => .error .misuse

def readWords (config : Option String) : SharedOptions → List Word → Except Stop Arguments
  | before, .task name arguments :: _ => readTask config before name arguments
  | before, word :: rest => do readWords config (← before.add word) rest
  | _, [] => .error .misuse

def read (config : Option String) (arguments : List String) : Except Stop Arguments :=
  readWords config .none (programOptions.words arguments)

end Arguments

end ODataClient
