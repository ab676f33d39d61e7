import ODataClient.Text.Parts

/-! The words of a command line. Words that start with a dash are options: a dash and
letters, or two dashes and a name. An option has its value after an equals sign or in
the next word. Two dashes alone end the options. -/

namespace ODataClient

inductive OptionKind
  | flag
  | value
  deriving DecidableEq

/-- The options that are known. Letters stand for flags. Where tasks are named, the first
word that is no option names one, and the words after it belong to the task. -/
structure OptionSet where
  named : List (String × OptionKind)
  letters : List (Char × String)
  namesTask : Bool

/-- What one or two arguments say. Nothing that follows a wrong word counts. -/
inductive Word
  | flag (name : String)
  | value (name text : String)
  | operand (text : String)
  | task (name : String) (arguments : List String)
  | wrong
  deriving DecidableEq

def isDashed (argument : String) : Bool :=
  match argument.toList with
  | '-' :: _ :: _ => true
  | _ => false

namespace OptionSet

def nameAndValue (text : List Char) : String × Option String :=
  match cutFirst '=' text with
  | some (name, value) => (String.ofList name, some (String.ofList value))
  | none => (String.ofList text, none)

def letterWords (o : OptionSet) : List Char → List Word
  | [] => []
  | c :: r =>
    match o.letters.lookup c with
    | some name => .flag name :: letterWords o r
    | none => [.wrong]

def words (o : OptionSet) : List String → List Word
  | [] => []
  | argument :: rest =>
    match argument.toList with
    | ['-', '-'] => rest.map .operand
    | '-' :: '-' :: text =>
      let (name, value) := nameAndValue text
      match o.named.lookup name, value with
      | some .flag, none => .flag name :: words o rest
      | some .value, some v => .value name v :: words o rest
      | some .value, none =>
        match rest with
        | v :: rest => if isDashed v then [.wrong] else .value name v :: words o rest
        | [] => [.wrong]
      | _, _ => [.wrong]
    | '-' :: c :: r => letterWords o (c :: r) ++ words o rest
    | _ => if o.namesTask then [.task argument rest] else .operand argument :: words o rest

end OptionSet

end ODataClient
