import Sequencer.Text.Split
import Sequencer.Value.Basic

/-!
# Paths into values

A dotted path such as `items.0.name` names a place inside a value, one segment a level: a field of
an object or a position of a list. Reading, writing and removing follow the same segments. Writing
makes the objects that are missing on its way and may add one element at the end of a list; its
result is given together with the container as it is afterwards, also when it fails.
-/

namespace Sequencer

/-- Why a place inside a value cannot be written or removed. -/
inductive PathError where
  /-- A removal names no place. -/
  | empty
  /-- A segment that should be a position of a list is none. -/
  | notAnIndex (segment : String)
  /-- A position past the end of a list. -/
  | beyond (index length : Nat)
  /-- A segment leads into a value that has no parts. -/
  | cannotDescend (kind segment : String)
  /-- The last segment is to be written in a value that has no parts. -/
  | cannotSet (kind segment : String)
  deriving Repr, DecidableEq

def PathError.message : PathError → String
  | .empty => "empty path"
  | .notAnIndex segment => s!"'{segment}' is not an array index"
  | .beyond index length => s!"index {index} is beyond array length {length}"
  | .cannotDescend kind segment => s!"cannot descend into {kind} at '{segment}'"
  | .cannotSet kind segment => s!"cannot set '{segment}' on {kind}"

/-- The segments of a dotted path: trimmed, blank ones dropped. -/
def pathSegments (path : List Char) : List String :=
  (Text.trimmedParts '.' path).map String.ofList

namespace Value

/-- What a value is, in the words of messages. -/
def kind : Value → String
  | .null => "null"
  | .bool _ => "a boolean"
  | .num _ => "a number"
  | .str _ => "a string"
  | .arr _ => "an array"
  | .obj _ => "an object"

/-- The position of a list that a segment names. -/
def position? (segment : String) : Option Nat := Decimal.natural? segment.toList

/-! ## Reading -/

/-- The part of a value that one segment names. -/
@[grind] def child? : Value → String → Option Value
  | .obj fields, segment => Table.get? fields segment
  | .arr items, segment => (position? segment).bind fun i => items[i]?
  | _, _ => none

/-- The value at the end of some segments. -/
@[grind] def readAt : List String → Value → Option Value
  | [], v => some v
  | s :: rest, v => (v.child? s).bind (readAt rest)

/-- The value at a dotted path. -/
def readPath (v : Value) (path : String) : Option Value := readAt (pathSegments path.toList) v

/-! ## Building -/

/-- Objects nested along some segments, with a value at the end. -/
def buildAt (v : Value) : List String → Value
  | [] => v
  | s :: rest => .obj [(s, buildAt v rest)]

/-- The structure that a dotted path describes, with a value at its end. -/
def buildPath (path : String) (v : Value) : Value := buildAt v (pathSegments path.toList)

/-! ## Writing -/

/-- Nothing becomes an object as soon as something is put into it. -/
@[grind] def orObject : Value → Value
  | .null => .obj []
  | v => v

/-- A position where a list of this length may be written: one of its own, or the one after. -/
def writePosition (segment : String) (length : Nat) : Except PathError Nat :=
  match position? segment with
  | none => .error (.notAnIndex segment)
  | some i => if i ≤ length then .ok i else .error (.beyond i length)

/-- Writes a position, or adds the element after the last. -/
def setItem (items : List Value) (i : Nat) (v : Value) : List Value :=
  if i < items.length then items.set i v else items ++ [v]

/-- Writes `value` at the end of some segments. Returns the container afterwards and the failure, if
there was one. -/
@[grind] def writeAt (value : Value) : List String → Value → Value × Option PathError
  | [], _ => (value, none)
  | [last], c =>
    match orObject c with
    | .obj fields => (.obj (Table.put fields last value), none)
    | .arr items =>
      match writePosition last items.length with
      | .ok i => (.arr (setItem items i value), none)
      | .error e => (.arr items, some e)
    | other => (other, some (.cannotSet other.kind last))
  | s :: rest, c =>
    match orObject c with
    | .obj fields =>
      let (inner, failure) := writeAt value rest ((Table.get? fields s).getD (.obj []))
      (.obj (Table.put fields s inner), failure)
    | .arr items =>
      match writePosition s items.length with
      | .ok i =>
        let (inner, failure) := writeAt value rest (items[i]?.getD (.obj []))
        (.arr (setItem items i inner), failure)
      | .error e => (.arr items, some e)
    | other => (other, some (.cannotDescend other.kind s))

/-- Writes `value` at a dotted path, making the objects that are missing on the way. -/
def writePath (c : Value) (path : String) (value : Value) : Value × Option PathError :=
  writeAt value (pathSegments path.toList) c

/-! ## Removing -/

/-- Removes what is at the end of some segments. Returns the container afterwards and what was
removed. -/
@[grind] def removeAt : List String → Value → Value × Option Value
  | [], c => (c, none)
  | [last], .obj fields => (.obj (Table.erase fields last), Table.get? fields last)
  | [last], .arr items =>
    match position? last with
    | some i => (.arr (items.eraseIdx i), items[i]?)
    | none => (.arr items, none)
  | s :: rest, .obj fields =>
    match Table.get? fields s with
    | some inner =>
      let (inner, removed) := removeAt rest inner
      (.obj (Table.put fields s inner), removed)
    | none => (.obj fields, none)
  | s :: rest, .arr items =>
    match (position? s).bind fun i => (items[i]?).map fun inner => (i, inner) with
    | some (i, inner) =>
      let (inner, removed) := removeAt rest inner
      (.arr (items.set i inner), removed)
    | none => (.arr items, none)
  | _ :: _, c => (c, none)

/-- Removes what is at a dotted path. Removing what is absent changes nothing; a path without
segments names nothing that could be removed. -/
def removePath (c : Value) (path : String) : Value × Except PathError (Option Value) :=
  match pathSegments path.toList with
  | [] => (c, .error .empty)
  | segments =>
    let (c, removed) := removeAt segments c
    (c, .ok removed)

end Value
end Sequencer
