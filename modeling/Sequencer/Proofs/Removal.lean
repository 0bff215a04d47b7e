import Sequencer.Proofs.Absence
import Sequencer.Proofs.Lens

/-!
# Removing from values

What a removal returns is what the path read, and only that is lost: the fields of an object keep their order, the
elements of a list close up, and everything that the path does not lead to reads as before. A place may have several
paths, since a position of a list can be spelled in several ways, such as `0`, `00` and `+0`. So what is lost at one of
them is lost at all. Removing what a write has just added takes the write back.
-/

namespace Sequencer

/-- A table with a name in it, cut at its first entry for the name. -/
theorem Table.exists_split {α : Type} {t : Table α} {key : String} {value : α} (h : get? t key = some value) :
    ∃ before after, t = before ++ (key, value) :: after ∧ key ∉ keys before ∧
      ∀ other, put t key other = before ++ (key, other) :: after := by
  induction t with
  | nil => cases h
  | cons e t ih =>
    obtain ⟨k, v⟩ := e
    rw [get?] at h
    split_ifs at h with hk
    · cases h
      exact ⟨[], t, by rw [hk]; rfl, by simp [keys], fun other => by rw [put, if_pos hk]; rfl⟩
    · obtain ⟨before, after, rfl, hkeys, hput⟩ := ih h
      refine ⟨(k, v) :: before, after, rfl, ?_, fun other => ?_⟩
      · simpa [keys, Ne.symm hk] using hkeys
      · rw [put, if_neg hk, hput]
        rfl

namespace Value

/-! ## What is lost -/

/-- The second value is the first one without what is at the end of a path, and otherwise the same: around the place
nothing else changes and nothing moves. -/
inductive Loses : List String → Value → Value → Prop
  | field (fields : Table Value) (s : String) : Loses [s] (.obj fields) (.obj (fields.filter fun f => f.1 != s))
  | item {items : List Value} {s : String} {i : Nat} (hs : position? s = some i) :
      Loses [s] (.arr items) (.arr (items.eraseIdx i))
  | inField {before after : Table Value} {s : String} {rest : List String} {inner inner' : Value}
      (hs : s ∉ Table.keys before) (h : Loses rest inner inner') :
      Loses (s :: rest) (.obj (before ++ (s, inner) :: after)) (.obj (before ++ (s, inner') :: after))
  | inItem {before after : List Value} {s : String} {rest : List String} {inner inner' : Value}
      (hs : position? s = some before.length) (h : Loses rest inner inner') :
      Loses (s :: rest) (.arr (before ++ inner :: after)) (.arr (before ++ inner' :: after))

section Losing

variable {c inner inner' v : Value} {s : String} {p rest : List String}

theorem Loses.here (h : c.child? s = some v) : Loses [s] c (c.without s) := by
  cases c with
  | obj fields => exact .field fields s
  | arr items =>
    obtain ⟨i, hs, -⟩ := Option.bind_eq_some_iff.1 h
    simp only [without, hs]
    exact .item hs
  | null | bool | num | str => cases h

theorem Loses.inside (hs : c.child? s = some inner) (h : Loses rest inner inner') :
    Loses (s :: rest) c (c.withChild s inner') := by
  cases c with
  | obj fields =>
    obtain ⟨before, after, rfl, hkeys, hput⟩ := Table.exists_split hs
    rw [withChild, hput]
    exact .inField hkeys h
  | arr items =>
    obtain ⟨i, hi, hat⟩ := Option.bind_eq_some_iff.1 hs
    obtain ⟨hlt, rfl⟩ := List.getElem?_eq_some_iff.1 hat
    have hlength : (items.take i).length = i := List.length_take_of_le hlt.le
    have hold : items = items.take i ++ items[i] :: items.drop (i + 1) := by
      rw [List.getElem_cons_drop, List.take_append_drop]
    have hnew : items.set i inner' = items.take i ++ inner' :: items.drop (i + 1) :=
      List.set_eq_take_append_cons_drop.trans (if_pos hlt)
    simp only [withChild, hi, setItem, if_pos hlt, hnew]
    conv in Value.arr items => rw [hold]
    exact .inItem (by rw [hlength, hi]) h
  | null | bool | num | str => cases hs

/-- Where there is something at the end of a path, a removal returns it. -/
theorem removeAt_snd (hp : p ≠ []) (c : Value) : (removeAt p c).2 = readAt p c := by
  induction p generalizing c with
  | nil => exact absurd rfl hp
  | cons s rest ih =>
    by_cases hrest : rest = []
    · subst hrest
      rw [removeAt_singleton, readAt_singleton]
    · cases hc : c.child? s with
      | none => rw [removeAt_of_child?_eq_none hrest hc, readAt, hc, Option.bind_none]
      | some inner => rw [removeAt_of_child? hrest hc, readAt_cons hc, ih hrest]

/-- What a removal makes of a value that has something at the end of the path. -/
theorem loses_removeAt (hp : p ≠ []) (h : readAt p c = some v) : Loses p c (removeAt p c).1 := by
  induction p generalizing c with
  | nil => exact absurd rfl hp
  | cons s rest ih =>
    obtain ⟨inner, hc, hread⟩ := Option.bind_eq_some_iff.1 h
    by_cases hrest : rest = []
    · subst hrest
      rw [removeAt_singleton]
      exact .here hc
    · rw [removeAt_of_child? hrest hc]
      exact .inside hc (ih hrest hread)

end Losing

/-! ## What is around -/

/-- The second path leads through the place of the first one in this value: it has the same segments up to there, or
others that name the same parts. -/
def Through : List String → List String → Value → Prop
  | [], _, _ => True
  | s :: p, t :: q, c => ¬c.Apart s t ∧ ∃ inner, c.child? s = some inner ∧ Through p q inner
  | _ :: _, [], _ => False

section Around

variable {c inner v x : Value} {s t : String} {p q before rest : List String}

theorem not_apart_symm (h : ¬c.Apart s t) (hs : c.child? s = some inner) : ¬c.Apart t s ∧ c.child? t = some inner := by
  cases c with
  | obj fields =>
    obtain rfl : s = t := of_not_not h
    exact ⟨h, hs⟩
  | arr items =>
    obtain ⟨ht, heq⟩ := not_or.1 h
    have heq := of_not_not heq
    refine ⟨not_or.2 ⟨heq ▸ ht, not_not.2 heq.symm⟩, ?_⟩
    rw [← hs, child?, child?, heq]
  | null | bool | num | str => cases hs

theorem not_apart_self (hs : c.child? s = some inner) : ¬c.Apart s s := by
  cases c with
  | obj fields => exact not_not.2 rfl
  | arr items =>
    obtain ⟨i, hi, -⟩ := Option.bind_eq_some_iff.1 hs
    simp [Apart, hi]
  | null | bool | num | str => cases hs

theorem Through.length_le (h : Through p q c) : p.length ≤ q.length := by
  induction p generalizing q c with
  | nil => exact Nat.zero_le _
  | cons s p ih =>
    cases q with
    | nil => exact h.elim
    | cons t q =>
      obtain ⟨-, inner, -, h⟩ := h
      exact Nat.succ_le_succ (ih h)

/-- A path leads through the places of its own beginnings. -/
theorem through_append (h : readAt (before ++ rest) c = some v) : Through before (before ++ rest) c := by
  induction before generalizing c with
  | nil => trivial
  | cons s before ih =>
    obtain ⟨inner, hc, hread⟩ := Option.bind_eq_some_iff.1 h
    exact ⟨not_apart_self hc, inner, hc, ih hread⟩

theorem Through.of_append (h : Through (before ++ rest) q c) : Through before q c := by
  induction before generalizing q c with
  | nil => trivial
  | cons s before ih =>
    cases q with
    | nil => exact h.elim
    | cons t q =>
      obtain ⟨happ, inner, hs, h⟩ := h
      exact ⟨happ, inner, hs, ih h⟩

theorem readAt_append (before rest : List String) (c : Value) :
    readAt (before ++ rest) c = (readAt before c).bind (readAt rest) := by
  induction before generalizing c with
  | nil => rfl
  | cons s before ih =>
    rw [List.cons_append, readAt, readAt]
    cases c.child? s with
    | none => rfl
    | some inner => exact ih inner

/-- A part that has changed reads as what it has become, under all of its names. -/
theorem readAt_withChild_of_not_apart (hs : c.child? s = some inner) (h : ¬c.Apart s t) (q : List String) :
    readAt (t :: q) (c.withChild s x) = readAt q x := by
  have hx := (opens_of_child? hs).child?_withChild x
  rw [← apart_withChild c s x] at h
  exact readAt_cons (not_apart_symm h hx).2

theorem readAt_withChild_of_apart (hs : c.child? s = some inner) (h : c.Apart s t) (q : List String) :
    readAt (t :: q) (c.withChild s x) = readAt (t :: q) c := by
  rw [readAt, readAt, (opens_of_child? hs).child?_withChild_of_apart x h]

/-- A value on the way to the place has lost what is there. -/
theorem readAt_removeAt_ancestor (h : readAt p c = some v) (hq : Through q p c) (hp : ¬Through p q c) :
    ∃ u u', readAt q c = some u ∧ readAt q (removeAt p c).1 = some u' ∧ Loses (p.drop q.length) u u' := by
  induction q generalizing p c with
  | nil =>
    have hne : p ≠ [] := by
      rintro rfl
      exact hp trivial
    exact ⟨c, _, rfl, rfl, loses_removeAt hne h⟩
  | cons t q ih =>
    cases p with
    | nil => exact hq.elim
    | cons s p =>
      obtain ⟨happ, inner, ht, hq⟩ := hq
      obtain ⟨happ', hs⟩ := not_apart_symm happ ht
      have hinner : ¬Through p q inner := fun hp' => hp ⟨happ', inner, hs, hp'⟩
      have hne : p ≠ [] := by
        rintro rfl
        exact hinner trivial
      rw [readAt_cons hs] at h
      rw [removeAt_of_child? hne hs, readAt_withChild_of_not_apart hs happ', readAt_cons ht]
      exact ih h hq hinner

/-- What a removal leaves alone further in, it leaves alone. -/
theorem readAt_removeAt_cons (hrest : rest ≠ []) (hs : c.child? s = some inner)
    (hinner : ¬c.Apart s t → readAt q (removeAt rest inner).1 = readAt q inner) :
    readAt (t :: q) (removeAt (s :: rest) c).1 = readAt (t :: q) c := by
  rw [removeAt_of_child? hrest hs]
  by_cases happ : c.Apart s t
  · exact readAt_withChild_of_apart hs happ q
  · rw [readAt_withChild_of_not_apart hs happ, readAt_cons (not_apart_symm happ hs).2]
    exact hinner happ

section Last

variable {last : String} (h : readAt (before ++ [last]) c = some v)

include h

/-- What is not beyond the value that loses a part, and not on the way to it, reads as before. -/
theorem readAt_removeAt_outside (hbefore : ¬Through before q c) (hq : ¬Through q (before ++ [last]) c) :
    readAt q (removeAt (before ++ [last]) c).1 = readAt q c := by
  induction before generalizing q c with
  | nil => exact absurd trivial hbefore
  | cons s before ih =>
    cases q with
    | nil => exact absurd trivial hq
    | cons t q =>
      obtain ⟨inner, hs, hread⟩ := Option.bind_eq_some_iff.1 h
      refine readAt_removeAt_cons (by simp) hs fun happ => ?_
      obtain ⟨happ', ht⟩ := not_apart_symm happ hs
      exact ih hread (fun hb => hbefore ⟨happ, inner, hs, hb⟩) fun hb => hq ⟨happ', inner, ht, hb⟩

/-- If the value is an object, then its other fields read as before too. -/
theorem readAt_removeAt_beside {fields : Table Value} (hobj : readAt before c = some (.obj fields))
    (hp : ¬Through (before ++ [last]) q c) (hq : ¬Through q (before ++ [last]) c) :
    readAt q (removeAt (before ++ [last]) c).1 = readAt q c := by
  induction before generalizing q c with
  | nil =>
    cases q with
    | nil => exact absurd trivial hq
    | cons t q =>
      obtain rfl := Option.some.inj hobj
      obtain ⟨inner, hs, -⟩ := Option.bind_eq_some_iff.1 h
      have happ : (Value.obj fields).Apart last t := by
        by_contra hne
        exact hp ⟨hne, inner, hs, trivial⟩
      rw [List.nil_append, removeAt_singleton, readAt, readAt]
      congr 1
      exact Table.get?_erase_of_ne fields (Ne.symm happ)
  | cons s before ih =>
    cases q with
    | nil => exact absurd trivial hq
    | cons t q =>
      obtain ⟨inner, hs, hread⟩ := Option.bind_eq_some_iff.1 h
      rw [readAt_cons hs] at hobj
      refine readAt_removeAt_cons (by simp) hs fun happ => ?_
      obtain ⟨happ', ht⟩ := not_apart_symm happ hs
      exact ih hread hobj (fun hb => hp ⟨happ, inner, hs, hb⟩) fun hb => hq ⟨happ', inner, ht, hb⟩

/-- What the value in which the last segment names a part has become. -/
theorem loses_parent : ∃ u u', readAt before c = some u ∧ readAt before (removeAt (before ++ [last]) c).1 = some u' ∧
    Loses [last] u u' := by
  have hlonger : ¬Through (before ++ [last]) before c := fun hthrough => by
    have hle := hthrough.length_le
    rw [List.length_append, List.length_singleton] at hle
    omega
  obtain ⟨u, u', hu, hu', hloses⟩ := readAt_removeAt_ancestor h (through_append h) hlonger
  rw [List.drop_left] at hloses
  exact ⟨u, u', hu, hu', hloses⟩

end Last

end Around

/-- What a removal at a path does outside of `scope`: on the way to the place every value loses what is there, and all
else reads as before. -/
def OnlyLoses (scope p : List String) (c c' : Value) : Prop :=
  ∀ q, ¬Through scope q c →
    (Through q p c → ∃ u u', readAt q c = some u ∧ readAt q c' = some u' ∧ Loses (p.drop q.length) u u') ∧
      (¬Through q p c → readAt q c' = readAt q c)

/-! ## What has just been added -/

/-- A segment that names no part yet, but one that may be added: a field that an object does not have, or the position
after the last of a list. -/
inductive Vacant : Value → String → Prop
  | field {fields : Table Value} {s : String} (h : Table.get? fields s = none) : Vacant (.obj fields) s
  | item {items : List Value} {s : String} (h : position? s = some items.length) : Vacant (.arr items) s

section Adding

variable {c node : Value} {s last : String} {before : List String}

theorem Vacant.opens (h : c.Vacant s) : c.Opens s := by
  cases h with
  | field => exact .field _ s
  | item h => exact .item h le_rfl

theorem Vacant.without_withChild (h : c.Vacant s) (v : Value) : (c.withChild s v).without s = c := by
  cases h with
  | field h => simp [withChild, without, Table.erase_put_self, Table.erase_of_get?_eq_none h]
  | item h => simp [withChild, without, h, setItem, List.eraseIdx_append_of_length_le]

/-- A part that was added is taken out again. -/
theorem removeAt_writeAt (hnode : readAt before c = some node) (hnew : node.Vacant last) (v : Value) :
    (writeAt v (before ++ [last]) c).2 = none ∧
      removeAt (before ++ [last]) (writeAt v (before ++ [last]) c).1 = (c, some v) := by
  induction before generalizing c with
  | nil =>
    obtain rfl := Option.some.inj hnode
    have hself := hnew.opens.orObject_eq
    rw [List.nil_append, writeAt_of_opens v [] (hself.symm ▸ hnew.opens), hself, writeAt]
    rw [removeAt_singleton, hnew.without_withChild, hnew.opens.child?_withChild]
    exact ⟨rfl, rfl⟩
  | cons s before ih =>
    obtain ⟨inner, hs, hnode⟩ := Option.bind_eq_some_iff.1 hnode
    have hopens := opens_of_child? hs
    have hself := hopens.orObject_eq
    obtain ⟨hfine, hback⟩ := ih hnode
    rw [List.cons_append, writeAt_of_opens v _ (hself.symm ▸ hopens), hself, childOrNew_of_child? hs]
    rw [removeAt_of_child? (by simp) (hopens.child?_withChild _), hback, hopens.withChild_withChild,
      withChild_of_child? hs]
    exact ⟨hfine, rfl⟩

end Adding

/-! ## Main result -/

theorem removePath_of_segments {path : String} {segments : List String} (hp : pathSegments path.toList = segments)
    (hne : segments ≠ []) (c : Value) : c.removePath path = ((removeAt segments c).1, .ok (c.readPath path)) := by
  unfold removePath readPath
  rw [hp, ← removeAt_snd hne]
  cases segments with
  | nil => exact absurd rfl hne
  | cons s rest => rfl

/-- A removal at a path with segments returns what is read there, and nothing changes if there is nothing. If the last
segment names a field, then there is nothing under it afterwards, the values on the way have lost the field, and all
that the path does not lead through reads as before. If it names a position, then the list has lost this element, and
outside of the list the same holds. What a write has added is taken back. -/
theorem removePath_lawful {c : Value} {path : String} {before : List String} {last : String}
    (hp : pathSegments path.toList = before ++ [last]) :
    ∃ c', c.removePath path = (c', .ok (c.readPath path)) ∧
      (c.readPath path = none → c' = c) ∧
      (∀ fields, (c.readPath path).isSome → readAt before c = some (.obj fields) →
        c'.readPath path = none ∧ OnlyLoses (before ++ [last]) (before ++ [last]) c c') ∧
      (∀ items i, (c.readPath path).isSome → readAt before c = some (.arr items) → position? last = some i →
        readAt before c' = some (.arr (items.eraseIdx i)) ∧ OnlyLoses before (before ++ [last]) c c') ∧
      ∀ node, readAt before c = some node → node.Vacant last → ∀ v, ∃ d, c.writePath path v = (d, none) ∧
        d.removePath path = (c, .ok (some v)) := by
  have hne : before ++ [last] ≠ [] := by simp
  have hread : ∀ d : Value, d.readPath path = readAt (before ++ [last]) d := fun d => by rw [readPath, hp]
  refine ⟨_, removePath_of_segments hp hne c, fun hnone => ?_, fun fields hsome hobj => ?_,
    fun items i hsome harr hi => ?_, fun node hnode hnew v => ?_⟩
  · rw [hread] at hnone
    rw [removeAt_of_absent hnone]
  · obtain ⟨v, hv⟩ := Option.isSome_iff_exists.1 hsome
    rw [hread] at hv
    -- what is removed is lost by the node right above it
    obtain ⟨u, u', hu, hu', hloses⟩ := loses_parent hv
    obtain rfl := Option.some.inj (hu.symm.trans hobj)
    refine ⟨?_, fun q hq => ⟨fun hup => readAt_removeAt_ancestor hv hup hq, readAt_removeAt_beside hv hobj hq⟩⟩
    cases hloses with
    | field =>
      rw [hread, readAt_append, hu', Option.bind_some, readAt_singleton]
      exact Table.get?_erase_self fields last
    | inField _ h => cases h
  · obtain ⟨v, hv⟩ := Option.isSome_iff_exists.1 hsome
    rw [hread] at hv
    obtain ⟨u, u', hu, hu', hloses⟩ := loses_parent hv
    obtain rfl := Option.some.inj (hu.symm.trans harr)
    refine ⟨?_, fun q hq => ⟨fun hup => readAt_removeAt_ancestor hv hup fun hb => hq hb.of_append,
      readAt_removeAt_outside hv hq⟩⟩
    cases hloses with
    | item hj =>
      obtain rfl := Option.some.inj (hj.symm.trans hi)
      exact hu'
    | inItem _ h => cases h
  · obtain ⟨hfine, hback⟩ := removeAt_writeAt hnode hnew v
    have hwrite : c.writePath path v = writeAt v (before ++ [last]) c := by rw [writePath, hp]
    refine ⟨(writeAt v (before ++ [last]) c).1, ?_, ?_⟩
    · rw [hwrite, ← hfine]
    · rw [removePath_of_segments hp hne, hread, ← removeAt_snd hne, hback]

/-- A list of two objects in an object. -/
def shelf : Value :=
  .obj [("items", .arr [.obj [("x", .num (.int 1)), ("y", .num (.int 2))], .obj [("x", .num (.int 3))]])]

/-- A field of the first object is lost, that of the second one is not, and a third object comes and goes. -/
theorem removePath_lawful_shelf :
    (∃ c', shelf.removePath "items.0.x" = (c', .ok (some (.num (.int 1)))) ∧ c'.readPath "items.0.x" = none ∧
      readAt ["items", "1", "x"] c' = some (.num (.int 3))) ∧
    ∃ d, shelf.writePath "items.2" (.obj []) = (d, none) ∧ d.removePath "items.2" = (shelf, .ok (some (.obj []))) := by
  have hfield : pathSegments "items.0.x".toList = ["items", "0"] ++ ["x"] := rfl
  have hitem : pathSegments "items.2".toList = ["items"] ++ ["2"] := rfl
  obtain ⟨c', hremove, -, hlost, -, -⟩ := removePath_lawful (c := shelf) hfield
  obtain ⟨-, -, -, -, -, hback⟩ := removePath_lawful (c := shelf) hitem
  obtain ⟨hnone, honly⟩ := hlost [("x", .num (.int 1)), ("y", .num (.int 2))] rfl rfl
  -- the other path goes on to the other position of the list
  have hthere : ¬Through ["items", "0", "x"] ["items", "1", "x"] shelf := by
    rintro ⟨-, inner, h, happ, -⟩
    cases h
    exact happ (.inr (by decide))
  have hback' : ¬Through ["items", "1", "x"] ["items", "0", "x"] shelf := by
    rintro ⟨-, inner, h, happ, -⟩
    cases h
    exact happ (.inr (by decide))
  refine ⟨⟨c', hremove, hnone, (honly _ hthere).2 hback'⟩, ?_⟩
  exact hback _ rfl (.item rfl) (.obj [])

/-- A list with an object in it. -/
def shelved : Value := .arr [.obj [("a", .num (.int 1))]]

/-- A field that is removed through one spelling of a position is gone through another one, although neither path goes
on from the other. -/
theorem other_spelling_lost :
    pathSegments "0.a".toList = ["0"] ++ ["a"] ∧ readAt ["0"] shelved = some (.obj [("a", .num (.int 1))]) ∧
      ¬pathSegments "0.a".toList <+: pathSegments "00.a".toList ∧
      ¬pathSegments "00.a".toList <+: pathSegments "0.a".toList ∧
      shelved.readPath "00.a" = some (.num (.int 1)) ∧ (shelved.removePath "0.a").1.readPath "00.a" = none :=
  ⟨rfl, rfl, by decide, by decide, rfl, rfl⟩

end Value
end Sequencer
