import Sequencer.Proofs.Homes

/-!
# Writing into values

A path into a value is a lens. What was written at it is read from it, everything that it does not lead to reads as
before, and of two writes the second one counts. Where there is nothing to write into, writing builds the path. And a
write that fails has done nothing: whatever it makes on its way is an empty object, and no segment fails in one of
these. So the value that refuses a segment was there before, and so was all that leads to it.
-/

namespace Sequencer
namespace Value

/-! ## One step

Writing at one key or position, and reading at the same one or at another. -/

/-- Two segments name different parts of a value: different fields of an object, or different positions of a list. What
is no position names no part of a list at all. -/
def Apart : Value → String → String → Prop
  | .obj _, s, t => s ≠ t
  | .arr _, s, t => position? t = none ∨ position? s ≠ position? t
  | _, _, _ => False

section Step

variable {c : Value} {s t : String}

theorem setItem_setItem {items : List Value} {i : Nat} (v w : Value) (h : i ≤ items.length) :
    setItem (setItem items i v) i w = setItem items i w := by
  unfold setItem
  split_ifs with hlt hset happend
  · rw [List.set_set]
  · simp [hlt] at hset
  · obtain rfl : i = items.length := by omega
    rw [List.set_append_right _ _ le_rfl, Nat.sub_self]
    rfl
  · simp only [List.length_append, List.length_singleton] at happend
    omega

theorem getElem?_setItem_of_ne {items : List Value} {i j : Nat} (v : Value) (h : i ≤ items.length) (hne : i ≠ j) :
    (setItem items i v)[j]? = items[j]? := by
  unfold setItem
  split_ifs with hlt
  · exact List.getElem?_set_ne hne
  · obtain rfl : i = items.length := by omega
    rcases Nat.lt_or_ge j items.length with hj | hj
    · exact List.getElem?_append_left hj
    · rw [List.getElem?_eq_none hj, List.getElem?_eq_none (by simp; omega)]

/-- Of two parts put under one segment the second one counts. -/
theorem Opens.withChild_withChild (h : c.Opens s) (x y : Value) :
    (c.withChild s x).withChild s y = c.withChild s y := by
  cases h with
  | field fields => simp [withChild, Table.put_put]
  | item hs hi => simp [withChild, hs, setItem_setItem x y hi]

/-- A value keeps its kind when a part of it changes, and so its segments name the same parts. -/
theorem apart_withChild (c : Value) (s : String) (x : Value) : (c.withChild s x).Apart = c.Apart := by
  cases c with
  | arr items =>
    funext t u
    cases hs : position? s <;> simp [withChild, hs, Apart]
  | _ => rfl

/-- Another part is as it was. -/
theorem Opens.child?_withChild_of_apart (h : c.Opens s) (x : Value) (hapart : c.Apart s t) :
    (c.withChild s x).child? t = c.child? t := by
  cases h with
  | field fields => exact Table.get?_put_of_ne fields x (Ne.symm hapart)
  | @item items s i hs hi =>
    simp only [withChild, hs]
    show (position? t).bind _ = (position? t).bind _
    cases ht : position? t with
    | none => rfl
    | some j =>
      -- Two spellings that are apart stand for two positions.
      have hne : i ≠ j := by
        rintro rfl
        rcases hapart with hnone | hdiffer
        · rw [ht] at hnone
          cases hnone
        · exact hdiffer (hs.trans ht.symm)
      exact getElem?_setItem_of_ne x hi hne

end Step

/-! ## Whole paths

Two paths diverge if they part at some step. Before that they go through the same containers. -/

section Paths

variable {c v : Value} {segments : List String}

/-- In nothing, and in an empty object, a path is built. -/
theorem writeAt_of_orObject_eq_nil (h : orObject c = .obj []) (v : Value) (segments : List String) :
    writeAt v segments c = (buildAt v segments, none) := by
  induction segments generalizing c with
  | nil => rfl
  | cons s rest ih =>
    have hopens : (orObject c).Opens s := by
      rw [h]
      exact .field [] s
    have hnew : c.childOrNew s = .obj [] := childOrNew_of_child?_eq_none (by rw [← child?_orObject, h]; rfl)
    rw [writeAt_of_opens v rest hopens, h, hnew, ih (c := .obj []) rfl]
    rfl

/-- The second of two writes counts, and it succeeds as the first one did. -/
theorem writeAt_writeAt (h : (writeAt v segments c).2 = none) (w : Value) :
    writeAt w segments (writeAt v segments c).1 = writeAt w segments c ∧ (writeAt w segments c).2 = none := by
  induction segments generalizing c with
  | nil => exact ⟨rfl, rfl⟩
  | cons s rest ih =>
    have hopens := opens_of_writeAt h
    rw [writeAt_of_opens v rest hopens] at h ⊢
    obtain ⟨htwice, hfine⟩ := ih h
    set first := writeAt v rest (c.childOrNew s)
    have hchild := hopens.child?_withChild first.1
    have hagain := opens_of_child? hchild
    have hself := hagain.orObject_eq
    rw [writeAt_of_opens w rest (by rwa [hself]), hself, childOrNew_of_child? hchild, htwice,
      hopens.withChild_withChild, writeAt_of_opens w rest hopens]
    exact ⟨rfl, hfine⟩

/-- Two paths part in a value: up to some place they are the same, and there they go on to different parts of what
is there. -/
def Diverge : List String → List String → Value → Prop
  | s :: p, t :: q, c => if s = t then ∃ inner, c.child? s = some inner ∧ Diverge p q inner else c.Apart s t
  | _, _, _ => False

/-- Where the path of a write does not lead, everything reads as before. -/
theorem readAt_writeAt_of_diverge {p q : List String} (h : (writeAt v p c).2 = none)
    (hq : Diverge p q (writeAt v p c).1) : readAt q (writeAt v p c).1 = readAt q c := by
  induction p generalizing q c with
  | nil => exact hq.elim
  | cons s p ih =>
    cases q with
    | nil => exact hq.elim
    | cons t q =>
      have hopens := opens_of_writeAt h
      rw [writeAt_of_opens v p hopens] at h hq ⊢
      have hchild := hopens.child?_withChild (writeAt v p (c.childOrNew s)).1
      rw [Diverge] at hq
      split_ifs at hq with hst
      · subst hst
        obtain ⟨inner, hinner, hq⟩ := hq
        obtain rfl := Option.some.inj (hchild.symm.trans hinner)
        rw [readAt_cons hchild, ih h hq]
        cases hc : c.child? s with
        | some old => rw [readAt_cons hc, childOrNew_of_child? hc]
        | none =>
          -- the other path leads into the new object, which has no parts
          rw [readAt, hc, childOrNew_of_child?_eq_none hc]
          cases q with
          | nil => exact (by cases p <;> exact hq.elim)
          | cons t q => rfl
      · rw [apart_withChild] at hq
        rw [readAt, readAt, hopens.child?_withChild_of_apart _ hq, child?_orObject]

/-- Where a write fails. The path leads to a value that is there and refuses the next segment, and the write has
left the value at the root as it was. -/
theorem writeAt_of_failure {e : PathError} (h : (writeAt v segments c).2 = some e) : (writeAt v segments c).1 = c ∧
    ∃ before s after node, segments = before ++ s :: after ∧ readAt before c = some node ∧
      node.obstacle? after.isEmpty s = some e := by
  induction segments generalizing c with
  | nil => cases h
  | cons s rest ih =>
    cases ho : c.obstacle? rest.isEmpty s with
    | some e' =>
      rw [writeAt_of_obstacle v ho] at h ⊢
      cases h
      exact ⟨rfl, [], s, rest, c, rfl, rfl, ho⟩
    | none =>
      have hopens := obstacle?_eq_none_iff.1 ho
      rw [writeAt_of_opens v rest hopens] at h ⊢
      cases hc : c.child? s with
      | none =>
        -- nothing fails in the new object
        rw [childOrNew_of_child?_eq_none hc, writeAt_of_orObject_eq_nil rfl] at h
        cases h
      | some inner =>
        have hself : orObject c = c := (opens_of_child? hc).orObject_eq
        rw [childOrNew_of_child? hc] at h ⊢
        obtain ⟨hsame, before, t, after, node, hsegments, hnode, hrefused⟩ := ih h
        refine ⟨?_, s :: before, t, after, node, ?_, ?_, hrefused⟩
        · rw [hself, hsame]
          exact withChild_of_child? hc
        · rw [hsegments]
          rfl
        · rw [readAt_cons hc, hnode]

end Paths

end Value

/-! ## Variables

A variable that is missing is written like null. -/

namespace Machine

variable {σ : Type}

/-- A part is saved in the same way where there is no variable and where the variable is nothing. -/
theorem saveAddress_of_nothing {m : Machine σ} {a : Address} {home : Home} {path : String} (v : Value)
    (hpath : a.path = some path) (hhome : m.home? a = some home) {found : Option Value}
    (hfound : found = none ∨ found = some .null) (hread : (m.readAddress a.container).2 = .ok found) :
    m.saveAddress a v = (m.putAt (Value.buildPath path v) home, .ok ()) := by
  have hself : m.readAddress a.container = (m, .ok found) := by
    cases hr : m.readAddress a.container with
    | mk n result =>
      rw [hr] at hread
      obtain rfl : result = .ok found := hread
      rw [readAddress_ok hr]
  -- Whether it is absent or null, the path builds its own container.
  have hbuilt : updated found path v = .ok (Value.buildPath path v) := by
    rcases hfound with rfl | rfl
    · rfl
    · rw [updated, Value.writePath, Value.writeAt_of_orObject_eq_nil rfl]
      rfl
  unfold saveAddress
  rw [if_neg (by simp [not_readOnly_of_home hhome]), hpath]
  simp only [hself, hbuilt]
  exact writeAddress_eq hhome _

end Machine

/-! ## Main results

The laws for saving at a path, and that a save that fails has changed nothing. -/

namespace Value

/-- The laws of writing at a path. After a write that succeeds the value is at the path, whatever the path parts from is
as it was, and writing there again is the same as writing there in the first place. In nothing the path is built, and
so a part of a variable is saved in the same way where the variable is nothing and where there is no variable. -/
theorem writePath_lawful {σ : Type} (c v : Value) (path : String) :
    (∀ c', c.writePath path v = (c', none) →
      c'.readPath path = some v ∧
      (∀ other : String, Diverge (pathSegments path.toList) (pathSegments other.toList) c' →
        c'.readPath other = c.readPath other) ∧
      ∀ w, c'.writePath path w = c.writePath path w ∧ (c'.writePath path w).2 = none) ∧
    Value.null.writePath path v = (buildPath path v, none) ∧
    ∀ (m : Machine σ) (a : Address) (home : Home) (found : Option Value),
      a.path = some path → m.home? a = some home → found = none ∨ found = some .null →
      (m.readAddress a.container).2 = .ok found →
      m.saveAddress a v = (m.putAt (buildPath path v) home, .ok ()) := by
  refine ⟨fun c' h => ?_, writeAt_of_orObject_eq_nil rfl v _, fun m a home found hpath hhome hfound hread =>
    Machine.saveAddress_of_nothing v hpath hhome hfound hread⟩
  have hfine : (c.writePath path v).2 = none := by rw [h]
  have hresult : (c.writePath path v).1 = c' := by rw [h]
  subst hresult
  refine ⟨readPath_writePath hfine, fun other hother => readAt_writeAt_of_diverge hfine hother, fun w => ?_⟩
  -- The second write finds the path there, and replaces what the first one has put at its end.
  obtain ⟨htwice, hagain⟩ := writeAt_writeAt hfine w
  exact ⟨htwice, (congrArg Prod.snd htwice).trans hagain⟩

/-- An object with a list of one element in it. -/
def stock : Value := .obj [("items", .arr [.obj [("x", .num (.int 1))]]), ("note", .null)]

/-- A thread whose frame has a variable that is nothing. -/
def undecided : Machine Unit :=
  (World.new (.ofProperties []) (Request.new [] none) ()).enter.push "CHOOSE" [] [("choice", .null)]

/-- A second element is made for a field of it, and the first one is as before. -/
theorem writePath_lawful_stock : ∃ c', stock.writePath "items.1.y" (.bool true) = (c', none) ∧
    c'.readPath "items.1.y" = some (.bool true) ∧ c'.readPath "items.0.x" = some (.num (.int 1)) ∧
    c'.writePath "items.1.y" .null = stock.writePath "items.1.y" .null ∧
    undecided.saveAddress ⟨.current, "", "choice", some "items.1.y", true⟩ (.bool true) =
      (undecided.putAt (.obj [("items", .obj [("1", .obj [("y", .bool true)])])]) (.binding ⟨1, 0⟩ "choice"),
        .ok ()) := by
  obtain ⟨hwrite, -, hsave⟩ := writePath_lawful (σ := Unit) stock (.bool true) "items.1.y"
  obtain ⟨hread, hsame, hagain⟩ := hwrite _ rfl
  -- the two paths are the same as far as to the list, and go on to different positions of it
  have hparts : Diverge ["items", "1", "y"] ["items", "0", "x"] (stock.writePath "items.1.y" (.bool true)).1 :=
    ⟨_, rfl, .inr (by decide)⟩
  refine ⟨_, rfl, hread, hsame "items.0.x" hparts, (hagain .null).1, ?_⟩
  exact hsave undecided _ (.binding ⟨1, 0⟩ "choice") (some .null) rfl rfl (.inr rfl) rfl

/-- A write that fails leaves the value as it was. Nothing was made on the way: what refused a segment was there, at
the end of the segments before it. -/
theorem writePath_atomic {c c' v : Value} {path : String} {e : PathError} (h : c.writePath path v = (c', some e)) :
    c' = c ∧ ∃ before s after node, pathSegments path.toList = before ++ s :: after ∧
      readAt before c = some node ∧ node.obstacle? after.isEmpty s = some e := by
  have hfailure : (c.writePath path v).2 = some e := by rw [h]
  have hresult : (c.writePath path v).1 = c' := by rw [h]
  subst hresult
  exact writeAt_of_failure hfailure

/-- A number in the first element has no parts, and nothing comes of the objects that should have been made in it. -/
theorem writePath_atomic_stock :
    (stock.writePath "items.0.x.unit.name" .null).2 = some (.cannotDescend "a number" "unit") ∧
      (stock.writePath "items.0.x.unit.name" .null).1 = stock := by
  have h : stock.writePath "items.0.x.unit.name" .null =
      ((stock.writePath "items.0.x.unit.name" .null).1, some (.cannotDescend "a number" "unit")) := rfl
  exact ⟨rfl, (writePath_atomic h).1⟩

end Value
end Sequencer
