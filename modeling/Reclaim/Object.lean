import Reclaim.Arena
import Reclaim.Text.Bytes

/-!
# Objects

An object is named by the address of its first word, the object word: the tag in the lowest byte and
an auxiliary number above it. What follows depends on the tag.

| tag    | auxiliary     | further words                  |
|--------|---------------|--------------------------------|
| char   | code point    | none                           |
| string | byte length   | the bytes, packed              |
| pair   | unused        | car, cdr                       |
| symbol | byte length   | the bytes, packed              |
| lambda | variadic flag | entry address, parameter count |

Only pairs refer to other objects. The fields of a lambda are plain numbers, and whatever else is
put there is not followed. The header that a collector keeps lies in front of the object word.
-/

namespace Reclaim

/-- The kinds of object.
mirrors object:51-62 -/
inductive Tag where
  | char
  | string
  | pair
  | symbol
  | lambda
  deriving DecidableEq, Repr

namespace Tag

/-- The byte that stands for a tag. -/
def code : Tag → UInt8
  | char => 0
  | string => 1
  | pair => 2
  | symbol => 5
  | lambda => 6

def ofCode? : UInt8 → Option Tag
  | 0 => some char
  | 1 => some string
  | 2 => some pair
  | 5 => some symbol
  | 6 => some lambda
  | _ => none

theorem ofCode?_code (t : Tag) : ofCode? t.code = some t := by cases t <;> rfl

end Tag

/-- Field of a pair. -/
def carField : Nat := 1
/-- Field of a pair. -/
def cdrField : Nat := 2
/-- Field of a lambda. -/
def entryField : Nat := 1
/-- Field of a lambda. -/
def paramsField : Nat := 2

/-- Words of a character, object word included. -/
def charWords : Nat := 1
/-- Words of a pair. -/
def pairWords : Nat := 3
/-- Words of a lambda. -/
def lambdaWords : Nat := 3
/-- Words of a text of `len` bytes.
mirrors object:96-98 -/
def textWords (len : Nat) : Nat := 1 + wordsFor len

/-- The object word; bits of `aux` above the 56th are lost.
mirrors object:102-104 -/
def objectWord (tag : Tag) (aux : Word) : Word := tag.code.toUInt64 ||| aux <<< 8

/-- The tag byte of `obj`, whatever it is.
mirrors object:108-110 -/
def rawTag (obj : Nat) : ReadM UInt8 := do return (← load obj).toUInt8

/-- mirrors object:113-118 -/
def tagOf (obj : Nat) : ReadM Tag := do
  let code ← rawTag obj
  match Tag.ofCode? code with
  | some tag => pure tag
  | none => throw (.failed (.corruptObject obj code))

/-- mirrors object:122-124 -/
def auxOf (obj : Nat) : ReadM Word := do return (← load obj) >>> 8

/-- Words of `obj`, object word included.
mirrors object:147-154 -/
def payloadWords (obj : Nat) : ReadM Nat := do
  match ← tagOf obj with
  | .char => pure charWords
  | .string | .symbol => return textWords (← auxOf obj).toNat
  | .pair => pure pairWords
  | .lambda => pure lambdaWords

/-! ## Text -/

/-- Stores a run of words, one after another. -/
def storeRun : Nat → List Word → HeapM Unit
  | _, [] => pure ()
  | a, w :: ws => do
    store a w
    storeRun (a + 1) ws

/-- The `n` words from `a` on, read one after another. -/
def loadRun : Nat → Nat → ReadM (List Word)
  | _, 0 => pure []
  | a, n + 1 => do
    let w ← load a
    return w :: (← loadRun (a + 1) n)

/-- mirrors object:127-133 -/
def writeText (obj : Nat) (bytes : List UInt8) : HeapM Unit := storeRun (obj + 1) (Text.pack bytes)

/-- As many bytes as the object word of `obj` says.
mirrors object:136-144 -/
def readText (obj : Nat) : ReadM (List UInt8) := do
  let len := (← auxOf obj).toNat
  return (Text.unpack (← loadRun (obj + 1) (wordsFor len))).take len

/-! ## References to other objects -/

/-- The addresses of the fields of `obj` that hold references.
mirrors trace:70-84 -/
def pointerFields (obj : Nat) : ReadM (List Nat) := do
  match ← tagOf obj with
  | .pair =>
    let car ← loadValue (obj + carField)
    let cdr ← loadValue (obj + cdrField)
    return [(obj + carField, car), (obj + cdrField, cdr)].filterMap fun (field, v) =>
      if v.isRef then some field else none
  | _ => pure []

/-- The objects that `obj` refers to, in the order of its fields. -/
def children (obj : Nat) : ReadM (List Nat) := do
  return (← (← pointerFields obj).mapM loadValue).filterMap Value.ref?

/-- Does `obj` refer to an object that satisfies `p`? -/
def anyChild (p : Nat → Bool) (obj : Nat) : ReadM Bool := do return (← children obj).any p

end Reclaim
