import Reclaim.Mutator.Access

/-!
# Making and changing objects
-/

namespace Reclaim.MutatorM

/-- mirrors runtime:208-214 -/
def char (c : Char) : MutatorM Value := do
  let obj ← allocateWords charWords
  store obj (objectWord .char c.val.toUInt64)
  return .ofRef obj

/-- A string or a symbol with these bytes.
mirrors runtime:226-233 -/
def text (tag : Tag) (bytes : List UInt8) : MutatorM Value := do
  let obj ← allocateWords (textWords bytes.length)
  store obj (objectWord tag (UInt64.ofNat bytes.length))
  writeText obj bytes
  return .ofRef obj

/-- mirrors runtime:217-219 -/
def string (s : String) : MutatorM Value := text .string (Text.encode s)

/-- mirrors runtime:222-224 -/
def symbol (s : String) : MutatorM Value := text .symbol (Text.encode s)

/-- The pair of `car` and `cdr`.
mirrors runtime:236-245 -/
def cons (car cdr : Value) : MutatorM Value := do
  check
  let (car, cdr, obj) ← keeping car (keeping cdr (allocateWords pairWords))
  store obj (objectWord .pair 0)
  initField (obj + cdrField) cdr
  initField (obj + carField) car
  return .ofRef obj

/-- A procedure with its code address and parameter count.
mirrors runtime:248-261 -/
def lambda (entry params : Int) (variadic : Bool) : MutatorM Value := do
  let obj ← allocateWords lambdaWords
  store obj (objectWord .lambda (if variadic then 1 else 0))
  storeValue (obj + entryField) (.int entry)
  storeValue (obj + paramsField) (.int params)
  return .ofRef obj

/-- A copy of the object that `v` refers to; any other value is its own copy.
mirrors runtime:264-278 -/
def duplicate (v : Value) : MutatorM Value := do
  match v.ref? with
  | none => return v
  | some obj =>
    check
    let words ← payloadWords obj
    let (v, copy) ← keeping v (allocateWords words)
    match v.ref? with
    | none => return v
    | some src =>
      copyWords src copy words
      guarded (Collector.noteCopy copy)
      return .ofRef copy

/-- Stores into a field of a pair; anything else is left alone.
mirrors runtime:306-319 -/
def setPairField (field : Nat) (pair v : Value) : MutatorM Unit := do
  match ← pair? pair with
  | some obj => writeField obj (obj + field) v
  | none => pure ()

/-- mirrors runtime:306-311 -/
def setCar (pair v : Value) : MutatorM Unit := setPairField carField pair v

/-- mirrors runtime:314-319 -/
def setCdr (pair v : Value) : MutatorM Unit := setPairField cdrField pair v

end Reclaim.MutatorM
