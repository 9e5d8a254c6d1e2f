import TypedPipeline.Keyed
import TypedPipeline.Path

/-!
# CommandLine.Arguments: from words to an invocation

A command line names a task and gives it options. This file fixes:

* options (`Flag`): a long name, perhaps a short one, and what value goes with it. A value follows in
  the next word, or in the same word behind `=`, or directly behind a short name;
* the reading of words on one level (`Reading.takeAll`). An option that is complete is looked at only
  when the next option comes or the words end, so that of two faults an unknown word is met first;
* the two levels: options before the task, and the task with its own (`Invocation.ofArguments`).
-/

namespace TypedPipeline

/-- Why a command line is not carried out. -/
inductive Refusal where
  | help
  | version
  /-- Nothing was given at all. -/
  | nothingGiven
  | missingTask
  | unknownTask
  | unknownArgument
  | missingArgument
  | repeatedArgument
  | missingValue
  | badValue
  | unexpectedValue
  deriving DecidableEq

/-! ## 1. Options -/

/-- What goes with an option. -/
inductive FlagKind where
  | help
  | version
  /-- No value: it is given or not. -/
  | mark
  /-- The path of a file. -/
  | path
  /-- A natural number below `2 ^ 64`. -/
  | word
  deriving DecidableEq

structure Flag where
  name : String
  short : Option Char := none
  kind : FlagKind
  isRequired : Bool := false

def FlagKind.takesValue : FlagKind → Bool
  | .path | .word => true
  | .help | .version | .mark => false

def helpFlag : Flag := { name := "help", short := some 'h', kind := .help }

/-- The option that both levels have. -/
def configFlag : Flag := { name := "config", kind := .path }

def catalogFlag : Flag := { name := "catalog", short := some 'c', kind := .path, isRequired := true }

def pipelineFlag : Flag := { name := "pipeline", short := some 'p', kind := .path, isRequired := true }

/-- The options before the task. -/
def outerFlags : List Flag :=
  [configFlag, helpFlag, { name := "version", short := some 'V', kind := .version }]

/-- The options of each task beside those that all tasks have. -/
def taskFlags : List (String × List Flag) :=
  [("check", []),
    ("space", [{ name := "grid", kind := .mark }]),
    ("validate", [{ name := "hyperparams", kind := .path, isRequired := true }]),
    ("sample", [{ name := "n", short := some 'n', kind := .word }, { name := "seed", kind := .word }])]

/-- The options that all tasks have. -/
def sharedFlags : List Flag := [configFlag, helpFlag, catalogFlag, pipelineFlag]

/-! ## 2. One level -/

/-- The options read so far, and the latest one with a value, which is still to be looked at. -/
structure Reading where
  flags : List Flag
  found : Keyed String := []
  pending : Option (Flag × Option String) := none

namespace Reading

/-- Take an option with its value. -/
def accept (r : Reading) (flag : Flag) (value : String) : Except Refusal Reading :=
  if r.found.has flag.name then .error .repeatedArgument
  else if flag.kind = .path ∧ value = "" then .error .missingValue
  else if flag.kind = .word ∧ (Path.readPosition? value.toList).isNone then .error .badValue
  else .ok { r with found := r.found.put flag.name value }

/-- Look at the pending option. -/
def settle (r : Reading) : Except Refusal Reading :=
  match r.pending with
  | none => .ok r
  | some (_, none) => .error .missingValue
  | some (flag, some value) => accept { r with pending := none } flag value

/-- The pending option still waits for its value. -/
def isWaiting (r : Reading) : Bool :=
  match r.pending with
  | some (_, none) => true
  | _ => false

/-- Meet an option and what is attached to it. -/
def meet (r : Reading) (flag : Flag) (attached : Option String) : Except Refusal Reading := do
  let r ← r.settle
  match flag.kind, attached with
  | .help, _ => throw .help
  | .version, _ => throw .version
  | .mark, _ => r.accept flag ""
  | _, some value => r.accept flag value
  | _, none => return { r with pending := some (flag, none) }

/-- A word that begins with two hyphens. -/
def takeLong (r : Reading) (letters : List Char) : Except Refusal Reading := do
  let name := String.ofList (letters.takeWhile (· ≠ '='))
  let attached := match letters.dropWhile (· ≠ '=') with
    | [] => none
    | _ :: value => some (String.ofList value)
  match r.flags.find? fun flag => flag.name == name with
  | none => throw .unknownArgument
  | some flag =>
    if attached.isSome ∧ ¬ flag.kind.takesValue then throw .unexpectedValue
    r.meet flag attached

/-- A word that begins with one hyphen: short names, of which one that takes a value is the last. -/
def takeShort (r : Reading) : List Char → Except Refusal Reading
  | [] => .ok r
  | letter :: rest =>
    match r.flags.find? fun flag => flag.short == some letter with
    | none => .error .unknownArgument
    | some flag =>
      if flag.kind.takesValue then
        match rest with
        | [] => r.meet flag none
        | '=' :: value => r.meet flag (some (String.ofList value))
        | value => r.meet flag (some (String.ofList value))
      else do takeShort (← r.meet flag none) rest

/-- A word that is no task and not the mark that ends options; `stray` refuses a value for which no
    option waits. -/
def takeWord (r : Reading) (stray : Refusal) (word : String) : Except Refusal Reading :=
  match word.toList with
  | '-' :: '-' :: letters => r.takeLong letters
  | '-' :: letter :: letters => r.takeShort (letter :: letters)
  | _ =>
    match r.pending with
    | some (flag, none) => .ok { r with pending := some (flag, some word) }
    | _ => .error stray

/-- The words of a task to their end. Behind two hyphens alone there may be nothing. -/
def takeAll (r : Reading) : List String → Except Refusal Reading
  | [] => r.settle
  | "--" :: [] => r.settle
  | "--" :: _ :: _ => .error .unknownArgument
  | word :: rest => do takeAll (← r.takeWord .unknownArgument word) rest

end Reading

/-! ## 3. Invocations -/

inductive Task where
  | check
  | space (grid : Bool)
  | validate (hyperparameters : String)
  | sample (count : Nat) (seed : Option Nat)

/-- A task, and the files it works on. -/
structure Invocation where
  settings : Option String
  catalog : String
  pipeline : String
  task : Task

/-- The number of samples that are drawn if nothing is said. -/
def usualSampleCount : Nat := 5

namespace Invocation

/-- The number an option was given. -/
def numberOf? (found : Keyed String) (name : String) : Option Nat :=
  (found.find? name).bind fun value => Path.readPosition? value.toList

/-- A task by its name, with the options found for it. -/
def taskOf? (name : String) (found : Keyed String) : Option Task :=
  match name with
  | "check" => some .check
  | "space" => some (.space (found.has "grid"))
  | "validate" => (found.find? "hyperparams").map .validate
  | "sample" =>
    some (.sample ((numberOf? found "n").getD usualSampleCount) (numberOf? found "seed"))
  | _ => none

/-- The options of a task, in its own words. -/
def readTask (flags : List Flag) (words : List String) : Except Refusal (Keyed String) := do
  let flags := sharedFlags ++ flags
  let r ← Reading.takeAll { flags } words
  if flags.any fun flag => flag.isRequired && !r.found.has flag.name then throw .missingArgument
  return r.found

/-- What the request for help about a task comes to. -/
def helpAbout : List String → Refusal
  | [] => .help
  | [name] => if name = "help" ∨ Keyed.has taskFlags name then .help else .unknownTask
  | _ => .unknownTask

/-- A word is a task, or the request for help about one. -/
def isTask (word : String) : Bool := word == "help" || Keyed.has taskFlags word

/-- A task and its words, after what was read before it. -/
def ofTask (outer : Reading) (name : String) (words : List String) : Except Refusal Invocation := do
  match Keyed.find? taskFlags name with
  | none => throw (helpAbout words)
  | some flags =>
    let found ← readTask flags words
    let outer ← outer.settle
    match found.find? "catalog", found.find? "pipeline", taskOf? name found with
    | some catalog, some pipeline, some task =>
      let settings := (found.find? "config").orElse fun _ => outer.found.find? "config"
      return { settings, catalog, pipeline, task }
    | _, _, _ => throw .missingArgument

/-- The words up to the task, and the task. -/
def ofWords (r : Reading) : List String → Except Refusal Invocation
  | [] => do
    let r ← r.settle
    throw (if r.found.isEmpty then .nothingGiven else .missingTask)
  | word :: rest =>
    if isTask word ∧ ¬ r.isWaiting then ofTask r word rest
    else if word = "--" then
      match rest with
      | [] => do
        let r ← r.settle
        throw (if r.found.isEmpty then .nothingGiven else .missingTask)
      | next :: _ => .error (if isTask next then .unknownArgument else .unknownTask)
    else do ofWords (← r.takeWord .unknownTask word) rest

def ofArguments (arguments : List String) : Except Refusal Invocation :=
  ofWords { flags := outerFlags } arguments

end Invocation

end TypedPipeline
