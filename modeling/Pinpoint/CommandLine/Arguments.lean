import Pinpoint.Text

namespace Pinpoint

/-- What the program does with its file. -/
inductive Job where
  | locate
  | offsets
deriving DecidableEq

/-- What the arguments ask for. -/
inductive Invocation where
  | run (command : Job) (file : String)
  | version
  | help
  | rejected
deriving DecidableEq

namespace Invocation

/-- The levels of logging. -/
def logLevels : List String := ["trace", "debug", "info", "warn", "error"]

/-- The subcommand that a word names. -/
def command? (word : String) : Option Job :=
  if word = "locate" then some .locate
  else if word = "offsets" then some .offsets
  else none

/-- How an argument reads that is not behind `--`. -/
inductive Word where
  /-- The marker behind which no argument is an option. -/
  | marker
  /-- The option for the level of logging, with its value if that is in the same argument. -/
  | logLevel (value : Option String)
  | version
  | help
  | unknownOption
  | plain
deriving DecidableEq

/-- How an argument reads. Of short options run together, the first one counts. -/
def classify (argument : String) : Word :=
  match argument.toList with
  | ['-', '-'] => .marker
  | '-' :: '-' :: name =>
    if name = "log-level".toList then .logLevel none
    else
      match Text.after? "log-level=".toList name with
      | some value => .logLevel (some (String.ofList value))
      | none =>
        if name = "version".toList then .version
        else if name = "help".toList then .help
        else .unknownOption
  | '-' :: 'V' :: _ => .version
  | '-' :: 'h' :: _ => .help
  | '-' :: _ :: _ => .unknownOption
  | _ => .plain

/-- Reads the arguments behind a subcommand. `level` tells whether the level of logging has been given
here, `file` is the file if it has been given, `marked` tells whether the marker has been passed. -/
def readFile (command : Job) (level marked : Bool) (file : Option String) :
    List String → Invocation
  | [] =>
    match file with
    | some file => .run command file
    | none => .rejected
  | argument :: rest =>
    match if marked then Word.plain else classify argument with
    | .marker => readFile command level true file rest
    | .logLevel (some value) =>
      if level = false ∧ value ∈ logLevels then readFile command true marked file rest else .rejected
    | .logLevel none =>
      match rest with
      | [] => .rejected
      | value :: rest =>
        if level = false ∧ value ∈ logLevels then readFile command true marked file rest
        else .rejected
    | .help => .help
    | .version | .unknownOption => .rejected
    | .plain =>
      if file.isSome ∨ argument.isEmpty then .rejected
      else readFile command level marked (some argument) rest

/-- Whether the words behind `help` name something that there is help on. -/
def isTopic : List String → Bool
  | [] => true
  | [word] => word = "locate" || word = "offsets" || word = "help"
  | _ => false

/-- Reads the arguments from the start on, up to the subcommand. `level` tells whether the level of
logging has been given. -/
def read (level : Bool) : List String → Invocation
  | [] => .rejected
  | argument :: rest =>
    match classify argument with
    | .logLevel (some value) =>
      if level = false ∧ value ∈ logLevels then read true rest else .rejected
    | .logLevel none =>
      match rest with
      | [] => .rejected
      | value :: rest => if level = false ∧ value ∈ logLevels then read true rest else .rejected
    | .version => .version
    | .help => .help
    | .marker | .unknownOption => .rejected
    | .plain =>
      match command? argument with
      | some command => readFile command false false none rest
      | none => if argument = "help" ∧ isTopic rest then .help else .rejected

/-- What the arguments of the program, `[--log-level LEVEL] (locate|offsets) FILE`, ask for. They are read in
order, and the first that is out of place or asks to be shown something settles the matter. -/
def ofArguments (arguments : List String) : Invocation := read false arguments

end Invocation

end Pinpoint
