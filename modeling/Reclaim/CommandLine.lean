import Reclaim.Workload

/-!
# Command line options

Options are read from left to right. One that takes a value takes it from behind an equals sign,
from the rest of its cluster of letters, or from the next argument, which must not look like an
option. Nothing may be given twice, and there are no arguments beside the options.
-/

namespace Reclaim.CommandLine

/-- What the options say.
mirrors main:29-57 -/
structure Options where
  gc : Option String := none
  heapSize : Option Nat := none
  stress : Bool := false
  config : Option String := none
  workload : Option Workload := none
  iterations : Option Nat := none
  verbose : Bool := false
  deriving DecidableEq, Repr, Inhabited

/-- The options that take a value. -/
inductive Field where
  | gc
  | heapSize
  | config
  | workload
  | iterations
  deriving DecidableEq, Repr

/-- The options that take none. -/
inductive Switch where
  | stress
  | verbose
  | help
  | version
  deriving DecidableEq, Repr

inductive Key where
  | field (f : Field)
  | switch (s : Switch)
  deriving DecidableEq, Repr

/-- The name that an option has behind two hyphens. -/
def Field.name : Field → String
  | gc => "gc"
  | heapSize => "heap-size"
  | config => "config"
  | workload => "workload"
  | iterations => "iterations"

def Switch.name : Switch → String
  | stress => "stress"
  | verbose => "verbose"
  | help => "help"
  | version => "version"

/-- The option of a name. -/
def ofName? : String → Option Key
  | "gc" => some (.field .gc)
  | "heap-size" => some (.field .heapSize)
  | "config" => some (.field .config)
  | "workload" => some (.field .workload)
  | "iterations" => some (.field .iterations)
  | "stress" => some (.switch .stress)
  | "verbose" => some (.switch .verbose)
  | "help" => some (.switch .help)
  | "version" => some (.switch .version)
  | _ => none

/-- The option of a letter. -/
def ofLetter? : Char → Option Key
  | 'w' => some (.field .workload)
  | 'n' => some (.field .iterations)
  | 'v' => some (.switch .verbose)
  | 'h' => some (.switch .help)
  | 'V' => some (.switch .version)
  | _ => none

/-- What can be wrong with the arguments. -/
inductive UsageError where
  | unexpected (arg : String)
  | repeated (name : String)
  | missingValue (name : String)
  | unneededValue (name : String)
  | badValue (name value : String)
  deriving DecidableEq, Repr

def UsageError.message : UsageError → String
  | unexpected arg => s!"unexpected argument '{arg}' found"
  | repeated name => s!"the argument '--{name}' cannot be used multiple times"
  | missingValue name => s!"a value is required for '--{name}' but none was supplied"
  | unneededValue name => s!"unexpected value for '--{name}' found; no more were expected"
  | badValue name value => s!"invalid value '{value}' for '--{name}'"

/-- Why there are no options to act on. -/
inductive Stop where
  | usage (e : UsageError)
  /-- The user asked how to use the program. -/
  | help
  /-- The user asked which program this is. -/
  | version
  deriving DecidableEq, Repr

/-! ## One option -/

/-- A decimal number below `2^64`; a plus sign may stand in front. -/
def count? (s : String) : Option Nat :=
  let digits := match s.toList with
    | '+' :: rest => rest
    | cs => cs
  if digits.isEmpty || !digits.all Char.isDigit then none
  else
    let n := digits.foldl (fun n c => 10 * n + (c.toNat - '0'.toNat)) 0
    if n < wordValues then some n else none

/-- The value of an option that was not given before. -/
def fresh {α : Type} (f : Field) (old : Option α) (text : String) (parsed : Option α) :
    Except Stop (Option α) :=
  if old.isSome then throw (.usage (.repeated f.name))
  else match parsed with
    | some a => return some a
    | none => throw (.usage (.badValue f.name text))

namespace Options

/-- Gives an option its value. Only a path must not be empty. -/
def assign (o : Options) (f : Field) (text : String) : Except Stop Options := do
  match f with
  | .gc => return { o with gc := ← fresh f o.gc text (some text) }
  | .heapSize => return { o with heapSize := ← fresh f o.heapSize text (count? text) }
  | .config =>
    return { o with config := ← fresh f o.config text (if text.isEmpty then none else some text) }
  | .workload => return { o with workload := ← fresh f o.workload text (Workload.ofName? text) }
  | .iterations => return { o with iterations := ← fresh f o.iterations text (count? text) }

def turnOn (o : Options) (s : Switch) : Except Stop Options :=
  match s with
  | .stress =>
    if o.stress then throw (.usage (.repeated s.name)) else return { o with stress := true }
  | .verbose =>
    if o.verbose then throw (.usage (.repeated s.name)) else return { o with verbose := true }
  | .help => throw .help
  | .version => throw .version

end Options

/-! ## Arguments -/

/-- The forms of an argument. -/
inductive Arg where
  /-- Two hyphens alone: no options follow. -/
  | escape
  /-- A named option with what stands behind the equals sign. -/
  | long (name : String) (value : Option String)
  /-- A hyphen and one or more letters. -/
  | cluster (letters : List Char)
  | plain (text : String)
  deriving DecidableEq, Repr

def Arg.ofString (s : String) : Arg :=
  match s.toList with
  | ['-', '-'] => .escape
  | '-' :: '-' :: cs =>
    let name := String.ofList (cs.takeWhile (· != '='))
    match cs.dropWhile (· != '=') with
    | [] => .long name none
    | _ :: value => .long name (some (String.ofList value))
  | '-' :: c :: cs => .cluster (c :: cs)
  | _ => .plain s

/-- The options so far and the one that still waits for its value. -/
abbrev Progress := Options × Option Field

/-- Reads a named option. -/
def readLong (o : Options) (name : String) (value : Option String) : Except Stop Progress := do
  match ofName? name, value with
  | some (.field f), some v => return (← o.assign f v, none)
  | some (.field f), none => return (o, some f)
  | some (.switch s), none => return (← o.turnOn s, none)
  | some (.switch s), some _ => throw (.usage (.unneededValue s.name))
  | none, _ => throw (.usage (.unexpected ("--" ++ name)))

/-- Reads a cluster of letters: switches, and at the end perhaps an option with its value. -/
def readCluster (o : Options) : List Char → Except Stop Progress
  | [] => return (o, none)
  | c :: rest => do
    match ofLetter? c with
    | some (.switch s) => readCluster (← o.turnOn s) rest
    | some (.field f) =>
      match rest with
      | [] => return (o, some f)
      | '=' :: value => return (← o.assign f (String.ofList value), none)
      | value => return (← o.assign f (String.ofList value), none)
    | none => throw (.usage (.unexpected (String.ofList ['-', c])))

/-- Reads an argument while `pending` may wait for its value. -/
def readArg (o : Options) (pending : Option Field) (arg : Arg) : Except Stop Progress := do
  match arg, pending with
  | .plain text, some f => return (← o.assign f text, none)
  | .plain text, none => throw (.usage (.unexpected text))
  | _, some f => throw (.usage (.missingValue f.name))
  | .long name value, none => readLong o name value
  | .cluster letters, none => readCluster o letters
  | .escape, none => return (o, none)

/-- Reads the arguments one after another. -/
def readFrom : Progress → List String → Except Stop Options
  | (o, none), [] => return o
  | (_, some f), [] => throw (.usage (.missingValue f.name))
  | (o, pending), s :: rest => do
    let arg := Arg.ofString s
    let progress ← readArg o pending arg
    match arg, rest with
    | .escape, next :: _ => throw (.usage (.unexpected next))
    | _, _ => readFrom progress rest

/-- The options that the arguments give. -/
def parse (args : List String) : Except Stop Options := readFrom ({}, none) args

end Reclaim.CommandLine
