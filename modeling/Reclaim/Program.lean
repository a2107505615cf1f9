import Reclaim.CommandLine
import Reclaim.Report
import Reclaim.Settings
import Reclaim.Settings.Toml

/-!
# The program

One run from the command line: read the options, find the settings, run a workload on the heap that
they describe, and print a report. What the program needs from its surroundings is a `Host`.
-/

namespace Reclaim

/-- What is found at a path. -/
inductive Entry where
  | missing
  | unreadable
  | text (content : String)
  deriving DecidableEq, Repr

/-- The surroundings of a run. -/
structure Host (m : Type → Type) where
  look : String → m Entry
  /-- The current directory and those above it, innermost first. -/
  directories : m (List String)
  /-- Evaluates a computation and tells how long that took. -/
  timed : {α : Type} → (Unit → α) → m (α × Duration)

/-! ## Settings -/

/-- What can be wrong with the settings of a run. -/
inductive LoadError where
  | notFound (path : String)
  | unreadable (path : String)
  | malformed (path : String)
  deriving DecidableEq, Repr

namespace LoadError

def message : LoadError → String
  | notFound path => s!"config file {path} not found"
  | unreadable path => s!"cannot read {path}"
  | malformed path => s!"Failed to parse {path}"

end LoadError

namespace Settings

/-- The settings that a text holds. -/
def ofText? (text : String) : Option Settings := do (ofFields .toml (← Toml.parse? text)).toOption

/-- The settings at `path`. -/
def ofEntry (path : String) : Entry → Except LoadError Settings
  | .missing => .error (.notFound path)
  | .unreadable => .error (.unreadable path)
  | .text content =>
    match ofText? content with
    | some s => .ok s
    | none => .error (.malformed path)

/-- The names under which settings are looked for in a directory. -/
def fileNames : List String := ["aquario.toml", ".aquariorc.toml"]

/-- The paths where settings are looked for. -/
def candidates (directories : List String) : List String :=
  directories.flatMap fun dir => fileNames.map fun name => dir ++ "/" ++ name

variable {m : Type → Type} [Monad m]

/-- The settings at the first path where there is anything, or the defaults. -/
def find (look : String → m Entry) : List String → m (Except LoadError Settings)
  | [] => return .ok {}
  | path :: rest => do
    match ← look path with
    | .missing => find look rest
    | entry => return ofEntry path entry

/-- The settings at the path that was given, or else those found from the current directory
upwards. -/
def load (host : Host m) : Option String → m (Except LoadError Settings)
  | some path => do return ofEntry path (← host.look path)
  | none => do find host.look (candidates (← host.directories))

end Settings

/-! ## Plans -/

/-- What to run on which heap. -/
structure Plan where
  config : Config
  workload : Workload
  iterations : Nat
  deriving DecidableEq, Repr, Inhabited

namespace Plan

open CommandLine

/-- Options take precedence over settings; stress is on if either asks for it. -/
def ofOptions (s : Settings) (o : Options) : Plan where
  config :=
    { s.gc with
      strategy := (o.gc.map Strategy.ofName).getD s.gc.strategy
      heapSize := o.heapSize.getD s.gc.heapSize
      stress := s.gc.stress || o.stress }
  workload := o.workload.getD s.run.workload
  iterations := o.iterations.getD s.run.iterations

/-- What became of a run: whether there was memory for the heap, and then how the workload ended. -/
abbrev Result := Except Fault (EStateM.Result Workload.Halt Mutator Unit)

/-- Runs the workload on a new heap. -/
def run (p : Plan) : Result := do
  return p.workload.run p.iterations (← Mutator.create p.config)

end Plan

/-! ## Outcomes -/

/-- What a run leaves behind: its exit code and what it printed. -/
structure Outcome where
  code : UInt32
  out : String := ""
  err : String := ""
  deriving DecidableEq, Repr, Inhabited

namespace Outcome

/-- The arguments were wrong. -/
def misused (e : CommandLine.UsageError) : Outcome :=
  { code := 2, err := s!"error: {e.message}\n\nFor more information, try '--help'.\n" }

/-- The run failed. -/
def failed (message : String) : Outcome := { code := 1, err := s!"Error: {message}\n" }

/-- The run came to an end that no failure describes. -/
def crashed : Outcome := { code := 101, err := "access outside the heap\n" }

def helpText : String := String.intercalate "\n"
  [ "Run allocation workloads against a garbage collector",
    "",
    "Usage: aquario [OPTIONS]",
    "",
    "Options:",
    "      --gc <NAME>            Collector: copy, ms (default), mc, gen, ref, zct",
    "      --heap-size <BYTES>    Heap size in bytes",
    "      --stress               Collect on every allocation",
    "      --config <CONFIG>      Config file path",
    "  -w, --workload <WORKLOAD>  Workload: list, churn, tree, globals",
    "  -n, --iterations <COUNT>   Workload steps",
    "  -v, --verbose              Verbose output",
    "  -h, --help                 Print help",
    "  -V, --version              Print version",
    "" ]

def versionText : String := "aquario 0.1.0\n"

/-- What is told when the options were not read. -/
def ofStop : CommandLine.Stop → Outcome
  | .usage e => misused e
  | .help => { code := 0, out := helpText }
  | .version => { code := 0, out := versionText }

/-- What is told about a run that took `total`. The heap keeps no clock, so no time is counted as
spent collecting. -/
def ofRun (p : Plan) (result : Plan.Result) (total : Duration) : Outcome :=
  match result with
  | .error _ => crashed
  | .ok (.ok () m) =>
    match Report.ofMutator m p.workload .zero total with
    | .ok report => { code := 0, out := report.text ++ "\n" }
    | .error _ => crashed
  | .ok (.error halt _) =>
    match halt.message? with
    | some cause =>
      failed
        s!"{p.workload.name} workload failed under the {p.config.strategy.name} collector\n\nCaused by:\n    {cause}"
    | none => crashed

end Outcome

/-- The whole program. -/
def program {m : Type → Type} [Monad m] (host : Host m) (args : List String) : m Outcome := do
  match CommandLine.parse args with
  | .error stop => return .ofStop stop
  | .ok options =>
    match ← Settings.load host options.config with
    | .error e => return .failed e.message
    | .ok settings =>
      let plan := Plan.ofOptions settings options
      let (result, total) ← host.timed fun () => plan.run
      return .ofRun plan result total

end Reclaim
