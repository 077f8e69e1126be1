namespace DerivedSignal

/-- What to do. -/
inductive Command where
  /-- Compiles the definitions of a document and tells their outputs. -/
  | check (definitions : String)
  /-- Evaluates the definitions of a document on series from a data file. -/
  | evaluate (definitions data : String) (output : Option String) (withInputs : Bool)
  /-- Lists the standard snippets, or writes them to a document. -/
  | snippets (target : Option String)
  deriving DecidableEq, Repr

/-- What the arguments ask for. -/
inductive Request where
  | help
  | version
  | run (command : Command) (config : Option String)
  deriving DecidableEq, Repr

namespace Arguments

/-- The part of the command line that is being read. -/
inductive Context where
  | general
  | check
  | evaluate
  | snippets
  deriving DecidableEq, Repr

/-- The options. -/
inductive Flag where
  | help
  | version
  | verbose
  | config
  | definitions
  | data
  | output
  | all
  | target
  deriving DecidableEq, Repr

namespace Flag

/-- Whether an option has a value. -/
def hasValue : Flag → Bool
  | help | version | verbose | all => false
  | config | definitions | data | output | target => true

/-- The option of a long name. -/
def ofName? (context : Context) (name : String) : Option Flag :=
  match context, name with
  | _, "help" => some help
  | _, "verbose" => some verbose
  | _, "config" => some config
  | .general, "version" => some version
  | .evaluate, "definitions" => some definitions
  | .evaluate, "data" => some data
  | .evaluate, "output" => some output
  | .evaluate, "all" => some all
  | .snippets, "export" => some target
  | _, _ => none

/-- The option of a letter. -/
def ofLetter? (context : Context) (letter : Char) : Option Flag :=
  match context, letter with
  | _, 'h' => some help
  | _, 'v' => some verbose
  | _, 'c' => some config
  | .general, 'V' => some version
  | .evaluate, 'd' => some definitions
  | .evaluate, 'o' => some output
  | _, _ => none

end Flag

/-- What has been read: the options with values and the arguments that are none. -/
structure Found where
  context : Context
  /-- The configuration that was given before the command. -/
  outerConfig : Option String
  values : List (Flag × String)
  withInputs : Bool
  positional : List String

namespace Found

/-- Nothing yet. -/
def start : Found := ⟨.general, none, [], false, []⟩

/-- The value of an option. -/
def value? (f : Found) (flag : Flag) : Option String := f.values.lookup flag

/-- Takes up the value of an option, which must not be empty nor given twice. -/
def give? (f : Found) (flag : Flag) (value : String) : Option Found :=
  if value = "" || (f.value? flag).isSome then none
  else some { f with values := (flag, value) :: f.values }

/-- Enters a command. -/
def enter (f : Found) (context : Context) : Found :=
  { f with context, outerConfig := f.value? .config, values := [] }

/-- Takes up an argument that is no option: the command or its file. -/
def take? (f : Found) (argument : String) : Option Found :=
  match f.context with
  | .general =>
    match argument with
    | "check" => some (f.enter .check)
    | "eval" => some (f.enter .evaluate)
    | "snippets" => some (f.enter .snippets)
    | _ => none
  | .check =>
    if argument = "" || !f.positional.isEmpty then none
    else some { f with positional := [argument] }
  | _ => none

/-- The request of all arguments. -/
def request? (f : Found) : Option Request :=
  let config := (f.value? .config).or f.outerConfig
  match f.context with
  | .general => none
  | .check =>
    match f.positional with
    | [file] => some (.run (.check file) config)
    | _ => none
  | .evaluate =>
    match f.value? .definitions, f.value? .data with
    | some definitions, some data =>
      some (.run (.evaluate definitions data (f.value? .output) f.withInputs) config)
    | _, _ => none
  | .snippets => some (.run (.snippets (f.value? .target)) config)

end Found

/-- What reading an argument leads to. -/
inductive Step where
  | refused
  | finished (r : Request)
  | more (f : Found)
  /-- The option waits for its value. -/
  | pending (f : Found) (flag : Flag)

/-- Goes on if there is something to go on with. -/
def Step.ofOption : Option Found → Step
  | some f => .more f
  | none => .refused

/-- Takes up an option without a value. -/
def raise (f : Found) : Flag → Step
  | .help => .finished .help
  | .version => .finished .version
  | .all => if f.withInputs then .refused else .more { f with withInputs := true }
  | _ => .more f

/-- Reads letters behind a hyphen. The value of an option may follow its letter, with or without an
equals sign. -/
def letters (f : Found) : List Char → Step
  | [] => .more f
  | c :: rest =>
    match Flag.ofLetter? f.context c with
    | none => .refused
    | some flag =>
      if flag.hasValue then
        match rest with
        | [] => .pending f flag
        | '=' :: value => Step.ofOption (f.give? flag (String.ofList value))
        | value => Step.ofOption (f.give? flag (String.ofList value))
      else
        match raise f flag with
        | .more f => letters f rest
        | step => step

/-- Reads a long option behind its hyphens, with a value behind an equals sign if there is one. -/
def long (f : Found) (text : List Char) : Step :=
  match Flag.ofName? f.context (String.ofList (text.takeWhile (· ≠ '='))) with
  | none => .refused
  | some flag =>
    match text.dropWhile (· ≠ '='), flag.hasValue with
    | _ :: value, true => Step.ofOption (f.give? flag (String.ofList value))
    | [], true => .pending f flag
    | [], false => raise f flag
    | _ :: _, false => .refused

/-- Reads an argument. A hyphen by itself is no option. -/
def step (f : Found) (argument : String) : Step :=
  match argument.toList with
  | '-' :: '-' :: name => long f name
  | '-' :: c :: cs => letters f (c :: cs)
  | _ =>
    if f.context = .general && argument = "help" then .finished .help
    else Step.ofOption (f.take? argument)

/-- Whether an argument may be the value of the option before it. -/
def isValue (argument : String) : Bool :=
  match argument.toList with
  | '-' :: _ :: _ => false
  | _ => true

/-- Takes up arguments that are no options. -/
def takeAll : Found → List String → Option Found
  | f, [] => some f
  | f, argument :: rest =>
    if f.context = .general then none else (f.take? argument).bind fun f => takeAll f rest

/-- Reads the arguments one after another; behind two hyphens there are no options. -/
def read? : Found → List String → Option Request
  | f, [] => f.request?
  | f, "--" :: rest => (takeAll f rest).bind Found.request?
  | f, argument :: rest =>
    match step f argument, rest with
    | .refused, _ => none
    | .finished r, _ => some r
    | .more f, rest => read? f rest
    | .pending _ _, [] => none
    | .pending f flag, value :: rest =>
      if isValue value then (f.give? flag value).bind fun f => read? f rest else none

end Arguments

/-- What some arguments ask for; nothing if they are not understood. -/
def Request.parse? (arguments : List String) : Option Request :=
  Arguments.read? Arguments.Found.start arguments

end DerivedSignal
