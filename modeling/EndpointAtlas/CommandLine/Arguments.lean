import EndpointAtlas.CommandLine.Similar

set_option autoImplicit false

namespace EndpointAtlas

/-- An option of a command: its spellings, and the word for its value if it takes one. -/
structure CommandOption where
  short : Option String
  long : String
  value : Option String
  deriving DecidableEq, Repr

namespace CommandOption

def isSpelled (option : CommandOption) (argument : String) : Bool :=
  option.short == some argument || option.long == argument

def shown (option : CommandOption) : String :=
  (match option.short with
    | some short => short ++ ", "
    | none => "")
  ++ option.long
  ++ (match option.value with
    | some value => " <" ++ value ++ ">"
    | none => "")

end CommandOption

/-- A command with its options and its one operand, which may have to be given. -/
structure Command where
  name : String
  options : List CommandOption
  operand : Option String
  required : Bool
  deriving DecidableEq, Repr

abbrev GivenOption := String × Option String

/-- Arguments sorted out: the options, the operands, and everything from the first unknown option
on. -/
structure Sorted where
  options : List GivenOption
  operands : List String
  unknown : List String
  deriving DecidableEq, Repr

inductive UsageError where
  | unknownOption (argument : String) (known : List String)
  | unknownCommand (name : String) (known : List String)
  | missingValue (option : CommandOption)
  | missingOperand (name : String)
  deriving DecidableEq, Repr

def UsageError.message : UsageError → String
  | .unknownOption argument known =>
    "error: unknown option '" ++ argument ++ "'" ++
      (if Text.startsWith argument "--" then Similar.suggestion argument known else "")
  | .unknownCommand name known =>
    "error: unknown command '" ++ name ++ "'" ++ Similar.suggestion name known
  | .missingValue option => "error: option '" ++ option.shown ++ "' argument missing"
  | .missingOperand name => "error: missing required argument '" ++ name ++ "'"

namespace Command

def looksLikeOption (argument : String) : Bool :=
  match argument.toList with
  | '-' :: _ :: _ => true
  | _ => false

def option? (command : Command) (argument : String) : Option CommandOption :=
  command.options.find? (·.isSpelled argument)

def group? (command : Command) (argument : String) : Option (CommandOption × String) :=
  match argument.toList with
  | '-' :: letter :: next :: rest =>
    if letter = '-' then none
    else (command.option? (String.ofList ['-', letter])).map fun option =>
      (option, String.ofList (next :: rest))
  | _ => none

def assigned? (command : Command) (argument : String) : Option (CommandOption × String) :=
  let name := argument.toList.takeWhile (· ≠ '=')
  match argument.toList.drop name.length with
  | _ :: value =>
    match command.option? (String.ofList name) with
    | some option =>
      if Text.startsWith argument "--" ∧ option.value.isSome then some (option, String.ofList value)
      else none
    | none => none
  | [] => none

inductive Meaning where
  | flag (option : CommandOption)
  | valued (option : CommandOption)
  | withValue (option : CommandOption) (value : String)
  | grouped (option : CommandOption) (rest : String)
  | plain
  deriving DecidableEq, Repr

def meaning (command : Command) (argument : String) : Meaning :=
  match if looksLikeOption argument then command.option? argument else none with
  | some option => if option.value.isSome then .valued option else .flag option
  | none =>
    match command.group? argument with
    | some (option, rest) =>
      if option.value.isSome then .withValue option rest else .grouped option rest
    | none =>
      match command.assigned? argument with
      | some (option, value) => .withValue option value
      | none => .plain

/-- Sorts the arguments out. Two dashes alone end the options. -/
def sort (command : Command) : Nat → Sorted → List String → Except UsageError Sorted
  | 0, sorted, _ => .ok sorted
  | _, sorted, [] => .ok sorted
  | fuel + 1, sorted, argument :: rest =>
    let given (option : CommandOption) (value : Option String) : Sorted :=
      { sorted with options := sorted.options ++ [(option.long, value)] }
    if argument = "--" then
      .ok (if sorted.unknown.isEmpty then { sorted with operands := sorted.operands ++ rest }
        else { sorted with unknown := sorted.unknown ++ argument :: rest })
    else match command.meaning argument with
      | .flag option => sort command fuel (given option none) rest
      | .valued option =>
        match rest with
        | value :: rest => sort command fuel (given option (some value)) rest
        | [] => .error (.missingValue option)
      | .withValue option value => sort command fuel (given option (some value)) rest
      | .grouped option more => sort command fuel (given option none) (("-" ++ more) :: rest)
      | .plain =>
        if looksLikeOption argument ∨ !sorted.unknown.isEmpty then
          sort command fuel { sorted with unknown := sorted.unknown ++ [argument] } rest
        else sort command fuel { sorted with operands := sorted.operands ++ [argument] } rest

def sortingSteps (arguments : List String) : Nat :=
  arguments.foldl (fun steps argument => steps + (argument.length + 1)) 1

def sorted (command : Command) (arguments : List String) : Except UsageError Sorted :=
  command.sort (sortingSteps arguments) ⟨[], [], []⟩ arguments

end Command

namespace Sorted

def has (sorted : Sorted) (long : String) : Bool := sorted.options.any (·.1 = long)

def value? (sorted : Sorted) (long : String) : Option String :=
  (sorted.options.reverse.lookup long).join

end Sorted

end EndpointAtlas
