import Reclaim.Config
import Reclaim.Setting
import Reclaim.Workload

/-!
# Settings

What the values of a configuration document configure: the heap (record `gc`) and the run (record
`run`). Keys that nobody knows are refused in `gc` and passed over everywhere else, where their
values need only be readable.
-/

namespace Reclaim

/-- What can be wrong with a setting. -/
inductive SettingProblem where
  | unknownKey (key : String)
  | badValue (key : String)
  deriving DecidableEq, Repr

namespace SettingProblem

def message : SettingProblem → String
  | unknownKey key => s!"unknown field {key}"
  | badValue key => s!"invalid value for {key}"

end SettingProblem

/-- The value of a setting, or the complaint that it has none. -/
def settingValue {α : Type} (key : String) (x : Option α) : Except SettingProblem α :=
  match x with
  | some a => .ok a
  | none => .error (.badValue key)

/-- Passes over a value that nobody asked for. -/
def passOver (key : String) (v : Setting) : Except SettingProblem Unit :=
  if v.isReadable then .ok () else .error (.badValue key)

namespace Config

/-- The settings of the heap, in the order in which a list gives them. -/
def keys : List String :=
  ["strategy", "heap_size", "stress", "stack_capacity", "global_table_size", "mark_stack_capacity",
    "remembered_set_capacity", "zct_capacity", "tenuring_threshold", "nursery_fraction", "fit"]

/-- Changes one setting of the heap. -/
def withSetting (d : Dialect) (c : Config) (key : String) (v : Setting) :
    Except SettingProblem Config := do
  match key with
  | "strategy" => return { c with strategy := Strategy.ofName (← settingValue key v.text?) }
  | "heap_size" => return { c with heapSize := ← settingValue key v.count? }
  | "stress" => return { c with stress := ← settingValue key v.flag? }
  | "stack_capacity" => return { c with stackCapacity := ← settingValue key v.count? }
  | "global_table_size" => return { c with globalTableSize := ← settingValue key v.count? }
  | "mark_stack_capacity" => return { c with markStackCapacity := ← settingValue key v.count? }
  | "remembered_set_capacity" =>
    return { c with rememberedSetCapacity := ← settingValue key v.count? }
  | "zct_capacity" => return { c with zeroCountCapacity := ← settingValue key v.count? }
  | "tenuring_threshold" =>
    return { c with tenuringThreshold := ← settingValue key (v.natBelow? 256) }
  | "nursery_fraction" => return { c with nurseryFraction := ← settingValue key v.count? }
  | "fit" => return { c with fit := ← settingValue key ((v.name? d).bind Fit.ofName?) }
  | _ => throw (.unknownKey key)

/-- The heap that a record describes; what it does not mention keeps its default. -/
def ofSetting (d : Dialect) (v : Setting) : Except SettingProblem Config := do
  let fields ← settingValue "gc" (v.fields? d keys)
  fields.foldlM (fun c (key, v) => c.withSetting d key v) {}

end Config

/-- What to run and for how long. -/
structure RunSettings where
  workload : Workload := .churn
  iterations : Nat := 10000
  deriving DecidableEq, Repr, Inhabited

namespace RunSettings

/-- The settings of a run, in the order in which a list gives them. -/
def keys : List String := ["workload", "iterations"]

/-- Changes one setting of the run. -/
def withSetting (d : Dialect) (r : RunSettings) (key : String) (v : Setting) :
    Except SettingProblem RunSettings := do
  match key with
  | "workload" =>
    return { r with workload := ← settingValue key ((v.name? d).bind Workload.ofName?) }
  | "iterations" => return { r with iterations := ← settingValue key v.count? }
  | _ => passOver key v; return r

/-- The run that a record describes; what it does not mention keeps its default. -/
def ofSetting (d : Dialect) (v : Setting) : Except SettingProblem RunSettings := do
  let fields ← settingValue "run" (v.fields? d keys)
  fields.foldlM (fun r (key, v) => r.withSetting d key v) {}

end RunSettings

/-- A whole configuration document. -/
structure Settings where
  gc : Config := {}
  run : RunSettings := {}
  deriving DecidableEq, Repr, Inhabited

namespace Settings

def withSetting (d : Dialect) (s : Settings) (key : String) (v : Setting) :
    Except SettingProblem Settings := do
  match key with
  | "gc" => return { s with gc := ← Config.ofSetting d v }
  | "run" => return { s with run := ← RunSettings.ofSetting d v }
  | _ => passOver key v; return s

/-- The settings in the fields of a document. -/
def ofFields (d : Dialect) (fields : List (String × Setting)) : Except SettingProblem Settings :=
  fields.foldlM (fun s (key, v) => s.withSetting d key v) {}

end Settings

end Reclaim
