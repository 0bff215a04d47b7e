import Sequencer.Value.Path

/-!
# Laws of paths

What was written at a path is what the path leads to afterwards. Each segment of a path is a step to a part
of a value, and writing descends by the same steps as reading: through fields that it puts where they are
missing, and through positions up to the one after the last. Removing takes the same steps to the value that
loses a part.
-/

namespace Sequencer
namespace Value

/-! ## One step

A path is followed one key or position at a time. -/

theorem getElem?_setItem {items : List Value} {i : Nat} (v : Value) (h : i ≤ items.length) :
    (setItem items i v)[i]? = some v := by
  unfold setItem
  split
  · next hlt => exact List.getElem?_set_self hlt
  · next hge =>
    obtain rfl : i = items.length := by omega
    exact List.getElem?_concat_length

theorem child?_put (fields : Table Value) (s : String) (v : Value) :
    (Value.obj (Table.put fields s v)).child? s = some v := Table.get?_put_self fields s v

theorem readAt_cons {s : String} {rest : List String} {c inner : Value} (h : c.child? s = some inner) :
    readAt (s :: rest) c = readAt rest inner := by
  simp [readAt, h]

theorem readAt_singleton (s : String) (c : Value) : readAt [s] c = c.child? s := by
  rw [readAt]
  cases c.child? s <;> rfl

/-! ### Putting a part

A part may be put where its container is open for it: an object, or a list with a fitting position. -/

/-- A value with a place under a segment. An object has one for every name, and a list one for each of its
positions and one after the last. -/
inductive Opens : Value → String → Prop
  | field (fields : Table Value) (s : String) : Opens (.obj fields) s
  | item {items : List Value} {s : String} {i : Nat} (hs : position? s = some i) (hi : i ≤ items.length) :
      Opens (.arr items) s

/-- A value with another part under a segment. -/
@[grind] def withChild (c : Value) (s : String) (inner : Value) : Value :=
  match c with
  | .obj fields => .obj (Table.put fields s inner)
  | .arr items =>
    match position? s with
    | some i => .arr (setItem items i inner)
    | none => .arr items
  | other => other

/-- The part that a write goes on in: the one under the segment, or a new object. -/
@[grind] def childOrNew (c : Value) (s : String) : Value := (c.child? s).getD (.obj [])

/-- What keeps a part from being written under a segment, which is the last one of its path or one on the way. -/
@[grind] def obstacle? (last : Bool) (s : String) : Value → Option PathError
  | .null | .obj _ => none
  | .arr items =>
    match writePosition s items.length with
    | .ok _ => none
    | .error e => some e
  | other => some (if last then .cannotSet other.kind s else .cannotDescend other.kind s)

section Step

variable {c : Value} {s : String} {rest : List String}

theorem child?_orObject (c : Value) (s : String) : (orObject c).child? s = c.child? s := by
  cases c <;> rfl

theorem childOrNew_of_child? {inner : Value} (h : c.child? s = some inner) : c.childOrNew s = inner := by
  rw [childOrNew, h, Option.getD_some]

theorem childOrNew_of_child?_eq_none (h : c.child? s = none) : c.childOrNew s = .obj [] := by
  rw [childOrNew, h, Option.getD_none]

theorem Opens.orObject_eq (h : c.Opens s) : orObject c = c := by
  cases h <;> rfl

theorem Opens.child?_withChild (h : c.Opens s) (inner : Value) : (c.withChild s inner).child? s = some inner := by
  cases h with
  | field fields => exact child?_put fields s inner
  | item hs hi =>
    simp only [withChild, hs, child?, Option.bind_some]
    exact getElem?_setItem inner hi

theorem opens_of_child? {inner : Value} (h : c.child? s = some inner) : c.Opens s := by
  cases c with
  | obj fields => exact .field fields s
  | arr items =>
    obtain ⟨i, hs, hi⟩ := Option.bind_eq_some_iff.1 h
    exact .item hs (Nat.le_of_lt (List.getElem?_eq_some_iff.1 hi).1)
  | null | bool | num | str => cases h

/-- Putting the part that is there changes nothing. -/
theorem withChild_of_child? {inner : Value} (h : c.child? s = some inner) : c.withChild s inner = c := by
  cases c with
  | obj fields =>
    have hput : Table.put fields s inner = fields := Table.put_of_get? h
    rw [withChild, hput]
  | arr items =>
    obtain ⟨i, hs, hi⟩ := Option.bind_eq_some_iff.1 h
    obtain ⟨hlt, rfl⟩ := List.getElem?_eq_some_iff.1 hi
    simp [withChild, hs, setItem, hlt]
  | null | bool | num | str => rfl

theorem obstacle?_eq_none_iff {last : Bool} : c.obstacle? last s = none ↔ (orObject c).Opens s := by
  cases c with
  | null | obj => exact iff_of_true rfl (.field _ s)
  | arr items =>
    rw [obstacle?, writePosition]
    constructor
    · intro h
      cases hs : position? s with
      | none => simp [hs] at h
      | some i =>
        by_cases hi : i ≤ items.length
        · exact .item hs hi
        · simp [hs, hi] at h
    · rintro ⟨⟩
      next hs hi => simp [hs, hi]
  | bool | num | str => exact iff_of_false (by simp [obstacle?]) (by rintro ⟨⟩)

/-- A write goes no further than to a value without a place. -/
theorem writeAt_of_obstacle {e : PathError} (value : Value) (h : c.obstacle? rest.isEmpty s = some e) :
    writeAt value (s :: rest) c = (c, some e) := by
  cases c with
  | null | obj => cases h
  | arr items =>
    rw [obstacle?] at h
    cases hw : writePosition s items.length with
    | ok i => simp [hw] at h
    | error e' =>
      obtain rfl : e' = e := by simpa [hw] using h
      cases rest <;> simp [writeAt, orObject, hw]
  | bool | num | str => cases rest <;> cases h <;> rfl

/-- Where there is a place, a write goes on in the part there, and puts the part back as it is afterwards. -/
theorem writeAt_of_opens (value : Value) (rest : List String) (h : (orObject c).Opens s) :
    writeAt value (s :: rest) c =
      ((orObject c).withChild s (writeAt value rest (c.childOrNew s)).1, (writeAt value rest (c.childOrNew s)).2) := by
  cases c with
  | null | obj => cases rest <;> rfl
  | arr items =>
    obtain ⟨i, hs, hi⟩ : ∃ i, position? s = some i ∧ i ≤ items.length := by
      cases h with
      | item hs hi => exact ⟨_, hs, hi⟩
    have hw : writePosition s items.length = .ok i := by simp [writePosition, hs, hi]
    cases rest <;> simp [writeAt, orObject, hw, withChild, childOrNew, child?, hs]
  | bool | num | str => cases h

theorem opens_of_writeAt {value : Value} (h : (writeAt value (s :: rest) c).2 = none) : (orObject c).Opens s := by
  cases ho : c.obstacle? rest.isEmpty s with
  | none => exact obstacle?_eq_none_iff.1 ho
  | some e =>
    rw [writeAt_of_obstacle value ho] at h
    cases h

end Step

/-! ### Taking a part out

What is not there cannot be taken out. -/

/-- A value without the part under a segment. -/
@[grind] def without (c : Value) (s : String) : Value :=
  match c with
  | .obj fields => .obj (Table.erase fields s)
  | .arr items =>
    match position? s with
    | some i => .arr (items.eraseIdx i)
    | none => .arr items
  | other => other

section Step

variable {c inner : Value} {s : String} {rest : List String}

theorem removeAt_singleton (s : String) (c : Value) : removeAt [s] c = (c.without s, c.child? s) := by
  cases c with
  | arr items => cases hs : position? s <;> simp [removeAt, without, child?, hs]
  | _ => rfl

/-- Taking out what is not there changes nothing. -/
theorem without_of_child?_eq_none (h : c.child? s = none) : c.without s = c := by
  cases c with
  | obj fields =>
    have herase : Table.erase fields s = fields := Table.erase_of_get?_eq_none h
    rw [without, herase]
  | arr items =>
    cases hs : position? s with
    | none => simp [without, hs]
    | some i =>
      rw [child?, hs, Option.bind_some] at h
      simp [without, hs, List.eraseIdx_of_length_le (List.getElem?_eq_none_iff.1 h)]
  | null | bool | num | str => rfl

theorem removeAt_of_child? (hrest : rest ≠ []) (h : c.child? s = some inner) :
    removeAt (s :: rest) c = (c.withChild s (removeAt rest inner).1, (removeAt rest inner).2) := by
  obtain ⟨t, rest, rfl⟩ := List.exists_cons_of_ne_nil hrest
  cases c with
  | obj fields =>
    rw [child?] at h
    simp [removeAt, h, withChild]
  | arr items =>
    obtain ⟨i, hs, hi⟩ := Option.bind_eq_some_iff.1 h
    obtain ⟨hlt, rfl⟩ := List.getElem?_eq_some_iff.1 hi
    simp [removeAt, hs, withChild, setItem, hlt]
  | null | bool | num | str => cases h

theorem removeAt_of_child?_eq_none (hrest : rest ≠ []) (h : c.child? s = none) :
    removeAt (s :: rest) c = (c, none) := by
  obtain ⟨t, rest, rfl⟩ := List.exists_cons_of_ne_nil hrest
  cases c with
  | obj fields =>
    rw [child?] at h
    simp [removeAt, h]
  | arr items =>
    cases hs : position? s with
    | none => simp [removeAt, hs]
    | some i =>
      rw [child?, hs, Option.bind_some] at h
      simp [removeAt, hs, h]
  | null | bool | num | str => rfl

end Step

/-! ## Whole paths

What was written at a path is read at the same path. -/

/-- What is built along a path is found by it. -/
theorem readAt_buildAt (v : Value) (segments : List String) : readAt segments (buildAt v segments) = some v := by
  induction segments with
  | nil => rfl
  | cons s rest ih =>
    have hs : (buildAt v (s :: rest)).child? s = some (buildAt v rest) := child?_put [] s _
    rw [readAt_cons hs]
    exact ih

/-- What was written at the end of a path is found there. Reading makes the steps that the write has made, to the
parts that it has put. -/
theorem readAt_writeAt {value : Value} {segments : List String} {c : Value}
    (h : (writeAt value segments c).2 = none) :
    readAt segments (writeAt value segments c).1 = some value := by
  induction segments generalizing c with
  | nil => rfl
  | cons s rest ih =>
    have hopens := opens_of_writeAt h
    rw [writeAt_of_opens value rest hopens] at h ⊢
    rw [readAt_cons (hopens.child?_withChild _)]
    exact ih h

theorem readPath_buildPath (path : String) (v : Value) : (buildPath path v).readPath path = some v :=
  readAt_buildAt v _

theorem readPath_writePath {c : Value} {path : String} {v : Value} (h : (c.writePath path v).2 = none) :
    (c.writePath path v).1.readPath path = some v := readAt_writeAt h

end Value
end Sequencer
