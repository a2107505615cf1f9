import Reclaim.Setting

/-!
# The tables of a TOML document

Headers and dotted keys build a tree of tables. How a table came to be decides what may still be
added to it, so each one keeps its origin. A key or a table that is defined twice is an error.

Results:
* `node?_setNode_self`, `node?_setNode_of_ne`: setting a key changes its meaning and no other.
-/

namespace Reclaim.Toml

/-- How a table came to be. -/
inductive Origin where
  /-- Named only on the way to another table. -/
  | passing
  /-- Opened by a header of its own. -/
  | header
  /-- Made by a dotted key. -/
  | dotted
  deriving DecidableEq, Repr

/-- What a key stands for. -/
inductive Node where
  /-- A value; an array or an inline table cannot be added to. -/
  | value (v : Setting)
  | table (origin : Origin) (fields : List (String × Node))
  /-- An array of tables, the last one first. -/
  | tables (items : List (List (String × Node)))

abbrev Fields := List (String × Node)

def node? (key : String) (fields : Fields) : Option Node :=
  (fields.find? fun f => f.1 == key).map Prod.snd

/-- Gives a key another meaning, or adds it at the end. -/
def setNode (key : String) (node : Node) : Fields → Fields
  | [] => [(key, node)]
  | (k, x) :: rest => if k == key then (key, node) :: rest else (k, x) :: setNode key node rest

/-! ## Assignments -/

/-- Assigns a value to a key that has none yet. On its way a dotted key may pass a table that is no
header's own and the last table of an array, but the table that takes the value must be `opened`:
the one in which the key stands, or one that dotted keys made. -/
def assign (v : Setting) : List String → Bool → Fields → Option Fields
  | [], _, _ => none
  | [k], opened, fields =>
    if !opened || (node? k fields).isSome then none else some (setNode k (.value v) fields)
  | k :: ks, _, fields => do
    match node? k fields with
    | none => some (setNode k (.table .dotted (← assign v ks true [])) fields)
    | some (.table .header _) => none
    | some (.table origin sub) =>
      some (setNode k (.table origin (← assign v ks (origin == .dotted) sub)) fields)
    | some (.tables (last :: rest)) =>
      some (setNode k (.tables ((← assign v ks false last) :: rest)) fields)
    | some _ => none

/-- Assigns inside the table that is open. -/
def assignIn (path : List String) (v : Setting) : Option Node → Option Node
  | some (.table origin fields) => (assign v path true fields).map (.table origin)
  | some (.tables (last :: rest)) =>
    (assign v path true last).map fun last => .tables (last :: rest)
  | _ => none

/-! ## Headers -/

/-- Changes the node at a path of table names, making the tables on the way. -/
def descend (final : Option Node → Option Node) : List String → Fields → Option Fields
  | [], _ => none
  | [k], fields => do some (setNode k (← final (node? k fields)) fields)
  | k :: ks, fields => do
    match node? k fields with
    | none => some (setNode k (.table .passing (← descend final ks [])) fields)
    | some (.table origin sub) => some (setNode k (.table origin (← descend final ks sub)) fields)
    | some (.tables (last :: rest)) =>
      some (setNode k (.tables ((← descend final ks last) :: rest)) fields)
    | some _ => none

/-- Opens a table that was not opened before. -/
def openTable : Option Node → Option Node
  | none => some (.table .header [])
  | some (.table .passing fields) => some (.table .header fields)
  | some _ => none

/-- Adds a table to an array of tables. -/
def openItem : Option Node → Option Node
  | none => some (.tables [[]])
  | some (.tables items) => some (.tables ([] :: items))
  | some _ => none

/-! ## Values -/

mutual

/-- A node as a value. -/
def Node.setting : Node → Setting
  | .value v => v
  | .table _ fields => .table (settings fields)
  | .tables items => .items (itemSettings items).reverse

/-- The fields of a table as values. -/
def settings : List (String × Node) → List (String × Setting)
  | [] => []
  | (k, node) :: rest => (k, node.setting) :: settings rest

/-- The tables of an array as values. -/
def itemSettings : List (List (String × Node)) → List Setting
  | [] => []
  | fields :: rest => .table (settings fields) :: itemSettings rest

end

/-! ## Laws -/

theorem node?_setNode_self (key : String) (node : Node) (fields : Fields) :
    node? key (setNode key node fields) = some node := by
  induction fields with
  | nil => simp [setNode, node?]
  | cons f rest ih =>
    by_cases h : f.1 = key
    · simp [setNode, node?, h]
    · simpa [setNode, node?, h] using ih

theorem node?_setNode_of_ne {key other : String} (node : Node) (fields : Fields) (h : other ≠ key) :
    node? other (setNode key node fields) = node? other fields := by
  induction fields with
  | nil => simp [setNode, node?, Ne.symm h]
  | cons f rest ih =>
    by_cases hk : f.1 = key
    · simp [setNode, node?, hk, Ne.symm h]
    · by_cases ho : f.1 = other
      · simp [setNode, node?, ho, h]
      · simpa [setNode, node?, hk, ho] using ih

end Reclaim.Toml
