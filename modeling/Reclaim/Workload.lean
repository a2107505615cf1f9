import Reclaim.Mutator.Globals

/-!
# Workloads

Four synthetic programs that drive a heap and then check what it holds, so that a collector that
loses or damages something shows up as a failed run.
-/

namespace Reclaim

/-- mirrors workloads:22-32 -/
inductive Workload where
  /-- Grows one long list. -/
  | list
  /-- Makes short-lived pairs and strings. -/
  | churn
  /-- Builds trees: one that lives long and many that do not. -/
  | tree
  /-- Binds a few global names again and again. -/
  | globals
  deriving DecidableEq, Repr, Inhabited

namespace Workload

def all : List Workload := [list, churn, tree, globals]

def name : Workload → String
  | list => "list"
  | churn => "churn"
  | tree => "tree"
  | globals => "globals"

def ofName? (s : String) : Option Workload := all.find? fun w => w.name == s

theorem ofName?_name (w : Workload) : ofName? w.name = some w := by cases w <;> decide

/-- What a check of a workload can find wrong. -/
inductive Defect where
  | rootVanished (w : Workload)
  | improperList
  | wrongLength (found expected : Nat)
  | wrongItem (expected : Nat) (found : Value)
  | pairOverwritten (i : Nat)
  | stackUnbalanced
  | wrongTemporaryTree (nodes : Nat)
  | wrongLastingTree (nodes : Nat)
  | unbound (name : String)
  | staleBinding (name : String)
  deriving DecidableEq, Repr

def Defect.message : Defect → String
  | rootVanished w => s!"{w.name} root vanished"
  | improperList => "list is not proper"
  | wrongLength found expected => s!"list holds {found} items, expected {expected}"
  | wrongItem expected found => s!"list item {expected} is {found.written}"
  | pairOverwritten i => s!"pair {i} was overwritten"
  | stackUnbalanced => "stack left unbalanced"
  | wrongTemporaryTree nodes => s!"temporary tree has {nodes} nodes"
  | wrongLastingTree nodes => s!"long-lived tree has {nodes} nodes"
  | unbound name => s!"{name} is unbound"
  | staleBinding name => s!"{name} lost its last binding"

/-- Why a workload stops before its end. -/
inductive Halt where
  | fault (f : Fault)
  | defect (d : Defect)
  deriving DecidableEq, Repr

/-- The reason as it is told to the user; a run that traps or never ends tells nothing. -/
def Halt.message? : Halt → Option String
  | fault (.failed f) => some f.message
  | fault _ => none
  | defect d => some d.message

/-- Computations of a workload. -/
abbrev RunM := EStateM Halt Mutator

instance : MonadLift MutatorM RunM where
  monadLift x := fun m =>
    match x m with
    | .ok a m => .ok a m
    | .error f m => .error (.fault f) m

/-- Stops with `d` unless `b` holds. -/
def ensure (b : Bool) (d : Defect) : RunM Unit := if b then pure () else throw (.defect d)

/-- The value in `x`; without one the run stops with `d`. -/
def require {α : Type} (x : Option α) (d : Defect) : RunM α :=
  match x with
  | some a => pure a
  | none => throw (.defect d)

/-- The top of the operand stack. -/
def top? : RunM (Option Value) := do return (← get).peek? 0

/-- The top of the operand stack, which must not be empty. -/
def root (w : Workload) : RunM Value := do require (← top?) (.rootVanished w)

/-- `body i`, `body (i + 1)` and so on, `n` times in all. -/
def repeatFrom (body : Nat → RunM Unit) : Nat → Nat → RunM Unit
  | _, 0 => pure ()
  | i, n + 1 => do
    body i
    repeatFrom body (i + 1) n

/-- Are these the integers from `n - 1` down to zero? The first that is not is named. -/
def checkItems : Nat → List Value → RunM Unit
  | n + 1, item :: rest => do
    ensure (item == .int n) (.wrongItem n item)
    checkItems n rest
  | _, _ => pure ()

/-- mirrors workloads:56-80 -/
def runList (n : Nat) : RunM Unit := do
  MutatorM.push .nil
  let slot : RootSlot := .stack ((← get).depth - 1)
  repeatFrom (fun i => do
    let tail ← root .list
    let l ← MutatorM.cons (.int i) tail
    MutatorM.writeRoot slot l) 0 n
  let l ← root .list
  let items ← require (← list? l) .improperList
  ensure (items.length == n) (.wrongLength items.length n)
  checkItems n items
  let _ ← MutatorM.pop

/-- mirrors workloads:82-99 -/
def runChurn (n : Nat) : RunM Unit := do
  repeatFrom (fun i => do
    let text ← MutatorM.string "churn"
    MutatorM.push text
    let text ← root .churn
    let pair ← MutatorM.cons text (.int i)
    MutatorM.push pair
    let pair ← root .churn
    ensure ((← cdr? pair) == some (.int i)) (.pairOverwritten i)
    let _ ← MutatorM.pop
    let _ ← MutatorM.pop) 0 n
  ensure ((← get).depth == 0) .stackUnbalanced

/-- A complete binary tree of pairs whose leaves are pairs of zero and the empty list.
mirrors workloads:102-113 -/
def makeTree : Nat → MutatorM Value
  | 0 => MutatorM.cons (.int 0) .nil
  | depth + 1 => do
    let left ← makeTree depth
    MutatorM.push left
    let right ← makeTree depth
    let left := ((← get).peek? 0).getD .nil
    let node ← MutatorM.cons left right
    let _ ← MutatorM.pop
    return node

/-- The nodes of a tree: a pair whose car is an integer is a leaf.
mirrors workloads:115-124 -/
def countNodes : Nat → Value → ReadM Nat
  | 0, _ => throw .endless
  | n + 1, v => do
    match ← car? v with
    | none => return 0
    | some left =>
      if left.isInt then return 1
      let right := (← cdr? v).getD .nil
      return 1 + (← countNodes n left) + (← countNodes n right)

/-- The nodes of a tree, which is at most as deep as the arena has words. -/
def treeNodes (v : Value) : ReadM Nat := do countNodes ((← read).size + 1) v

/-- Depth of the tree that lives as long as the run. -/
def lastingDepth : Nat := 5
/-- Depth of the trees built in each step. -/
def temporaryDepth : Nat := 4

/-- Nodes of a complete binary tree. -/
def completeNodes : Nat → Nat
  | 0 => 1
  | depth + 1 => 2 * completeNodes depth + 1

/-- mirrors workloads:126-147 -/
def runTree (n : Nat) : RunM Unit := do
  let lasting ← makeTree lastingDepth
  MutatorM.push lasting
  repeatFrom (fun _ => do
    let temporary ← makeTree temporaryDepth
    MutatorM.push temporary
    let nodes ← treeNodes ((← top?).getD .nil)
    ensure (nodes == completeNodes temporaryDepth) (.wrongTemporaryTree nodes)
    let _ ← MutatorM.pop) 0 n
  let nodes ← treeNodes (← root .tree)
  ensure (nodes == completeNodes lastingDepth) (.wrongLastingTree nodes)
  let _ ← MutatorM.pop

/-- How many names the `globals` workload binds in turn. -/
def nameCount : Nat := 32

def globalName (i : Nat) : String := s!"g{i}"

/-- The last step of `n` that bound name `k`, which is below `n`. -/
def lastBinding (n k : Nat) : Nat := k + (n - 1 - k) / nameCount * nameCount

/-- mirrors workloads:149-169 -/
def runGlobals (n : Nat) : RunM Unit := do
  repeatFrom (fun i => do
    let v ← MutatorM.cons (.int i) .nil
    MutatorM.define (globalName (i % nameCount)) v) 0 n
  repeatFrom (fun k => do
    let v ← require (← MutatorM.lookup? (globalName k)) (.unbound (globalName k))
    ensure ((← car? v) == some (.int (lastBinding n k))) (.staleBinding (globalName k)))
    0 (min n nameCount)

/-- Runs a workload for `n` steps.
mirrors workloads:46-54 -/
def run (w : Workload) (n : Nat) : RunM Unit :=
  match w with
  | list => runList n
  | churn => runChurn n
  | tree => runTree n
  | globals => runGlobals n

end Workload

end Reclaim
