import TypedPipeline.CommandLine.Report

/-!
# Main: the program

Reads the files that an invocation names, prints the lines of its report, and ends with 1 if the
report says that something failed, with 101 if the task broke down.
-/

namespace TypedPipeline

/-- What is printed for a command line that is not carried out. -/
def Refusal.text : Refusal → String
  | .help | .nothingGiven | .missingTask =>
    "Usage: typed-pipeline [--config FILE] check|space|validate|sample --catalog FILE --pipeline FILE"
  | .version => "typed-pipeline 0.1.0"
  | .unknownTask => "error: unrecognized task"
  | .unknownArgument => "error: unexpected argument"
  | .missingArgument => "error: a required argument was not given"
  | .repeatedArgument => "error: an argument was given more than once"
  | .missingValue => "error: an argument has no value"
  | .badValue => "error: an argument has a value of the wrong kind"
  | .unexpectedValue => "error: an argument has a value but takes none"

/-- The request was for help or the version. -/
def Refusal.isRequest : Refusal → Bool
  | .help | .version => true
  | _ => false

/-- The paths of the files that an invocation reads. -/
def Invocation.paths (i : Invocation) : List String :=
  let hyperparameters := match i.task with
    | .validate path => [path]
    | _ => []
  i.settings.toList ++ [i.catalog, i.pipeline] ++ hyperparameters

/-- The content of a file that is there. -/
def contentOf? (path : String) : IO (Option String) := do
  try
    return some (← IO.FS.readFile path)
  catch _ => return none

def carryOut (i : Invocation) : IO UInt32 := do
  let mut contents : Keyed String := []
  for path in i.paths do
    if let some content ← contentOf? path then contents := contents.put path content
  let report := i.report contents.find? (← IO.rand 0 (2 ^ 64 - 1))
  for line in report.lines do IO.println line
  match report.failure with
  | [] => return 0
  | first :: rest =>
    IO.eprintln ("Error: " ++ first.text)
    for cause in rest do IO.eprintln ("  caused by: " ++ cause.text)
    return if report.brokeDown then 101 else 1

end TypedPipeline

open TypedPipeline in
def main (arguments : List String) : IO UInt32 := do
  match Invocation.ofArguments arguments with
  | .ok i => carryOut i
  | .error refusal =>
    if refusal.isRequest then IO.println refusal.text else IO.eprintln refusal.text
    return if refusal.isRequest then 0 else 2
