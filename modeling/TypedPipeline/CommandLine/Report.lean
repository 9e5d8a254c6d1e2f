import TypedPipeline.CommandLine.Arguments
import TypedPipeline.Settings
import TypedPipeline.Operator.Registry
import TypedPipeline.Operator.Hyperparameters
import TypedPipeline.Space.Grid
import TypedPipeline.Space.Sample
import TypedPipeline.Space.Stored
import TypedPipeline.Space.Apply

/-!
# CommandLine.Report: what a task prints, and how it ends

A task is a function of the files it is given: it yields the lines it prints and, if it fails, what
failed with the outermost step first. This file fixes:

* reports and how steps of a task follow each other (`Report`, `Report.andThen`);
* the reading of settings, catalogs and pipelines from files, and what each failure is put down to;
* the four tasks (`Invocation.report`).
-/

namespace TypedPipeline

/-! ## 1. Reports -/

/-- A step that failed, or what made it fail. -/
inductive Cause where
  | loadingSettings (path : String)
  | reading (path : String)
  | parsing (path : String)
  | fault (e : Fault)
  | missingFile
  /-- The points of a dimension could not be made, which no step is told of. -/
  | breakdown

def Cause.text : Cause → String
  | .loadingSettings path => s!"loading config {path}"
  | .reading path => s!"reading {path}"
  | .parsing path => s!"parsing {path}"
  | .fault e => e.text
  | .missingFile => Fault.missingFileText
  | .breakdown => "the points of a dimension cannot be made"

/-- What failed, the outermost step first. -/
abbrev Causes := List Cause

/-- The lines that a task has printed, and what failed; nothing did if the chain is empty. -/
structure Report where
  lines : List String
  failure : Causes := []

namespace Report

def failed (chain : Causes) : Report := ⟨[], chain⟩

/-- The task did not come to its end. -/
def brokeDown (report : Report) : Bool :=
  match report.failure with
  | .breakdown :: _ => true
  | _ => false

/-- Lines first, and then a report. -/
def after (lines : List String) (report : Report) : Report :=
  { report with lines := lines ++ report.lines }

end Report

/-- A fault alone. -/
def Causes.ofFault (e : Fault) : Causes := [.fault e]

/-- The result, if there is one, or the fault as what failed. -/
def Causes.lift {α : Type} : Except Fault α → Except Causes α
  | .ok a => .ok a
  | .error e => .error (ofFault e)

/-! ## 2. Lines -/

/-- A text with blanks behind it, to a width. -/
def padded (width : Nat) (text : String) : String :=
  text ++ String.ofList (List.replicate (width - text.length) ' ')

/-- A title between a blank line and a rule. -/
def sectionLines (title : String) : List String :=
  ["", "  " ++ title, "  " ++ String.ofList (List.replicate 56 '─')]

def entryLine (key value : String) : String := "  " ++ padded 14 key ++ " " ++ value

def successLine (message : String) : String := "  ✓ " ++ message

def failureLine (message : String) : String := "  ✗ " ++ message

/-! ## 3. Files -/

/-- The content of the file at a path, if there is one. -/
abbrev Files := String → Option String

/-- What `read` makes of the document in a file. -/
def Files.read {α : Type} (files : Files) (path : String) (read : JsonText → Option α) :
    Except Causes α :=
  match files path with
  | none => .error [.reading path, .missingFile]
  | some content =>
    match (JsonText.parse? content).bind read with
    | some a => .ok a
    | none => .error [.parsing path, .fault .unreadable]

/-- The settings in a file, or the usual ones if none is named. -/
def Files.settings (files : Files) : Option String → Except Causes Settings
  | none => .ok {}
  | some path =>
    match Settings.load (files path) with
    | .ok settings => .ok settings
    | .error .missingFile => .error [.loadingSettings path, .fault .missingFile, .missingFile]
    | .error e => .error [.loadingSettings path, .fault e]

/-- The pipeline that is described in one file, with leaves from the catalog in another. -/
def Files.pipeline (files : Files) (catalog pipeline : String) : Except Causes Operator := do
  let registry ← Causes.lift (← files.read catalog Catalog.read?).registry
  let description ← files.read pipeline Description.read?
  Causes.lift (registry.reconstruct description)

/-! ## 4. Tasks -/

/-- Print the signature of a pipeline. -/
def checkReport (found : Except Causes Operator) : Report :=
  .after (sectionLines "Type check") <|
    match found with
    | .error chain => ⟨(chain.head?.map fun cause => failureLine cause.text).toList, chain⟩
    | .ok op =>
      { lines :=
          [successLine op.text, "", entryLine "Leaves" (toString op.leafCount),
            entryLine "Depth" (toString op.depth)]
          ++ sectionLines "Input schema" ++ [op.signature.input.toDocument.pretty]
          ++ sectionLines "Output schema" ++ [op.signature.output.toDocument.pretty] }

/-- A sample as it is listed in a grid. -/
def Sample.document (s : Sample) : Json := .object (s.map fun e => (e.1, e.2.toJson))

/-- Print the space of a pipeline, or its grid. -/
def spaceReport (settings : SpaceSettings) (op : Operator) (asGrid : Bool) : Report :=
  match op.compileSpace settings with
  | .error e => .failed (Causes.ofFault e)
  | .ok space =>
    if asGrid then
      match space.grid settings with
      | .error (.fault e) => .failed (Causes.ofFault e)
      | .error .breakdown => .failed [.breakdown]
      | .ok samples =>
        { lines :=
            sectionLines s!"Grid for {op.text}"
            ++ [entryLine "Grids" (toString space.gridCount),
              entryLine "Points" (toString samples.length), ""]
            ++ samples.map fun s => "  " ++ s.document.compact }
    else { lines := [space.stored.pretty] }

/-- Say whether hyperparameters are accepted by a pipeline. -/
def validateReport (op : Operator) (value : Json) : Report :=
  .after (sectionLines s!"Validate {op.text}") <|
    match op.validateHyperparameters value .user with
    | .ok _ => { lines := [successLine "hyperparameters are valid"] }
    | .error e => ⟨[failureLine e.text], Causes.ofFault e⟩

/-- The number of samples that were refused, by where the fault lies. -/
structure Rejections where
  optimizer : Nat := 0
  constraint : Nat := 0
  other : Nat := 0

namespace Rejections

def record (r : Rejections) : Fault → Rejections
  | .hyperparameters _ .optimizer _ => { r with optimizer := r.optimizer + 1 }
  | .hyperparameters _ .constraint _ => { r with constraint := r.constraint + 1 }
  | _ => { r with other := r.other + 1 }

/-- What is said after `count` samples. -/
def lines (r : Rejections) (count : Nat) : List String :=
  let kinds := [(r.optimizer, "fell outside their declared domains"),
    (r.constraint, "rejected by constraints"), (r.other, "failed for other reasons")]
  let met := kinds.filter fun kind => 0 < kind.1
  if met.isEmpty then [successLine s!"{count} samples applied"]
  else met.map fun kind => s!"  {kind.1} of {count} samples {kind.2}"

end Rejections

/-- The lines of samples that are drawn from a space and applied, numbered from `number`, and what
    was refused. -/
def sampleLines (space : Space) :
    (count number : Nat) → RandomStream → Rejections → List String × Rejections
  | 0, _, _, rejections => ([], rejections)
  | count + 1, number, r, rejections =>
    let (sample, r) := space.sample r
    let label := "  #" ++ padded 3 (toString number) ++ " "
    let (line, rejections) := match space.apply sample with
      | .ok value => (label ++ value.compact, rejections)
      | .error e => (label ++ e.text, rejections.record e)
    let (lines, rejections) := sampleLines space count (number + 1) r rejections
    (line :: lines, rejections)

/-- Print samples of the space of a pipeline. Without a seed they are drawn from `chance`. -/
def sampleReport (settings : SpaceSettings) (op : Operator) (count : Nat) (seed : Option Nat)
    (chance : Nat) : Report :=
  match op.compileSpace settings with
  | .error e => .failed (Causes.ofFault e)
  | .ok space =>
    let stream := RandomStream.ofSeed (UInt64.ofNat (seed.getD chance))
    let (samples, rejections) := sampleLines space count 1 stream {}
    { lines :=
        sectionLines s!"Samples for {op.text}"
        ++ (seed.map fun seed => entryLine "Seed" (toString seed)).toList
        ++ [entryLine "Dimensions" (toString space.allDimensions.length), ""]
        ++ samples ++ [""] ++ rejections.lines count }

/-- The report of a task, once its settings are there. -/
def Invocation.reportWith (i : Invocation) (settings : Settings) (files : Files) (chance : Nat) :
    Report :=
  let found := files.pipeline i.catalog i.pipeline
  match i.task, found with
  | .check, found => checkReport found
  | _, .error chain => .failed chain
  | .space asGrid, .ok op => spaceReport settings.space op asGrid
  | .validate path, .ok op =>
    match files.read path (·.toJson? JsonText.maxLevels) with
    | .error chain => .failed chain
    | .ok value => validateReport op value
  | .sample count seed, .ok op =>
    let seed := seed.orElse fun _ => settings.expansion.seed
    sampleReport settings.space op count seed chance

/-- What an invocation prints, given the files; `chance` seeds what is not seeded otherwise. -/
def Invocation.report (i : Invocation) (files : Files) (chance : Nat) : Report :=
  match files.settings i.settings with
  | .error chain => .failed chain
  | .ok settings => i.reportWith settings files chance

end TypedPipeline
