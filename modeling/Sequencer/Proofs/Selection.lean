import Sequencer.Proofs.Paths
import Sequencer.Proofs.Spacing

/-!
# Selection by an index

The text of an index is a dotted path: it is cut at its points, each part is trimmed, and blank parts are dropped. So
an index selects the field that has its name only if all of this leaves the name as it is. From a list it selects an
element of an element if its text has several parts, and the list itself if it has none.
-/

namespace Sequencer

/-! ## Names that are paths of themselves

The texts that are paths with themselves as their only part. -/

namespace Text

theorem splitAll_of_notMem {sep : Char} {s : List Char} (h : sep ∉ s) : splitAll sep s = [s] := by
  induction s with
  | nil => rfl
  | cons c r ih =>
    rw [List.mem_cons, not_or] at h
    rw [splitAll, if_neg (Ne.symm h.1), ih h.2]

/-- No part has a separator in it. -/
theorem notMem_of_mem_splitAll {sep : Char} {s part : List Char} (h : part ∈ splitAll sep s) : sep ∉ part := by
  induction s generalizing part with
  | nil =>
    rw [splitAll, List.mem_singleton] at h
    simp [h]
  | cons c r ih =>
    rw [splitAll] at h
    split_ifs at h with hc
    · rcases List.mem_cons.1 h with rfl | h
      · simp
      · exact ih h
    · split at h
      · rw [List.mem_singleton] at h
        simp [h, Ne.symm hc]
      · next first parts hparts =>
        rw [hparts] at ih
        rcases List.mem_cons.1 h with rfl | h
        · have hfirst := ih List.mem_cons_self
          simp [Ne.symm hc, hfirst]
        · exact ih (List.mem_cons_of_mem first h)

theorem mem_of_mem_trim {c : Char} {s : List Char} (h : c ∈ trim s) : c ∈ s := by
  obtain ⟨l, r, hs, -, -⟩ := exists_trim s
  rw [hs]
  simp [h]

end Text

open Text

/-- A name is the only segment of itself exactly if nothing is cut and nothing trimmed. -/
theorem pathSegments_eq_singleton_iff {k : String} :
    pathSegments k.toList = [k] ↔ k ≠ "" ∧ '.' ∉ k.toList ∧ trim k.toList = k.toList := by
  constructor
  · intro h
    have hsegment : k ∈ pathSegments k.toList := by simp [h]
    obtain ⟨part, hpart, hk⟩ := List.mem_map.1 hsegment
    obtain ⟨hpart, hne⟩ := List.mem_filter.1 hpart
    obtain ⟨whole, hwhole, rfl⟩ := List.mem_map.1 hpart
    have hlist : trim whole = k.toList := by rw [← hk, String.toList_ofList]
    -- A single segment is the trimmed text of a part between points, so there was no point.
    have hdot : '.' ∉ k.toList := by
      rw [← hlist]
      exact fun hmem => notMem_of_mem_splitAll hwhole (mem_of_mem_trim hmem)
    rw [splitAll_of_notMem hdot, List.mem_singleton] at hwhole
    subst hwhole
    refine ⟨?_, hdot, hlist⟩
    rintro rfl
    simp at hne
  · rintro ⟨hne, hdot, htrim⟩
    have hlist : k.toList ≠ [] := by simpa using hne
    simp [pathSegments, trimmedParts, splitAll_of_notMem hdot, htrim, hlist]

/-! ## What an index selects

An index finds what the path finds that its text is read as. -/

namespace Expr

open Value

variable {vars : Lookup} {e i : Expr}

theorem eval_index {v k : Value} (he : eval vars e = .ok v) (hi : eval vars i = .ok k) :
    eval vars (.index e i) = .ok (part v k.text) := by
  rw [eval, he]
  simp only [hi]

/-- A path leads nowhere in nothing, a truth value, a number or a text. -/
theorem readAt_of_leaf {v : Value} (h : ∀ s, v.child? s = none) {s : String} {rest : List String} :
    readAt (s :: rest) v = none := by
  rw [readAt, h, Option.bind_none]

/-- The path of a name that is not a path of itself misses a field of that name. -/
theorem readAt_single_field {k : String} {segments : List String}
    (h : readAt segments (.obj [(k, .bool true)]) = some (.bool true)) : segments = [k] := by
  cases segments with
  | nil => cases h
  | cons s rest =>
    rw [readAt] at h
    by_cases hs : s = k
    · subst hs
      have hchild : (Value.obj [(s, .bool true)]).child? s = some (.bool true) := child?_put [] s _
      rw [hchild, Option.bind_some] at h
      cases rest with
      | nil => rfl
      | cons t rest =>
        -- a second segment leads into the truth value
        rw [readAt_of_leaf fun _ => rfl] at h
        cases h
    · have hchild : (Value.obj [(k, .bool true)]).child? s = none := by
        simp [child?, Table.get?, Ne.symm hs]
      rw [hchild, Option.bind_none] at h
      cases h

/-- With this text as an index, every object gives its field of that name, or nothing if it has none. -/
def SelectsField (k : String) : Prop :=
  ∀ (vars : Lookup) (e i : Expr) (fields : List (String × Value)), eval vars e = .ok (.obj fields) →
    eval vars i = .ok (.str k) → eval vars (.index e i) = .ok ((Table.get? fields k).getD .null)

/-- With this value as an index, no list of this length gives anything. -/
def FindsNothing (n : Nat) (v : Value) : Prop :=
  ∀ (vars : Lookup) (e i : Expr) (items : List Value), items.length = n → eval vars e = .ok (.arr items) →
    eval vars i = .ok v → eval vars (.index e i) = .ok .null

theorem part_obj (fields : List (String × Value)) (k : String) :
    part (.obj fields) k = (readAt (pathSegments k.toList) (.obj fields)).getD .null := by
  simp [part, readPath]

theorem part_arr {k : String} (hk : k ≠ "length") (items : List Value) :
    part (.arr items) k = (readAt (pathSegments k.toList) (.arr items)).getD .null := by
  simp [part, readPath, hk]

theorem text_str (k : String) : (Value.str k).text = k := String.ofList_toList

/-- Only the one segment of a plain name selects the field with this name from every object. -/
theorem selectsField_iff_segments {k : String} : SelectsField k ↔ pathSegments k.toList = [k] := by
  constructor
  · intro h
    -- An object with this one field tells whether the text is read as its name.
    have heval := h (fun _ => none) (.lit (.obj [(k, .bool true)])) (.lit (.str k)) _ rfl rfl
    rw [eval_index (v := .obj [(k, .bool true)]) (k := .str k) rfl rfl, text_str, part_obj] at heval
    have hfield : Table.get? [(k, Value.bool true)] k = some (.bool true) := Table.get?_put_self [] k _
    rw [hfield] at heval
    cases hread : readAt (pathSegments k.toList) (.obj [(k, .bool true)]) with
    | none =>
      rw [hread] at heval
      cases heval
    | some v =>
      rw [hread] at heval
      cases heval
      exact readAt_single_field hread
  · intro hk vars e i fields he hi
    rw [eval_index he hi, text_str, part_obj, hk]
    show Except.ok ((((Table.get? fields k).bind (readAt []))).getD .null) = _
    cases Table.get? fields k <;> rfl

/-- A path gives nothing in every list of a length if it has a segment and its first names no position there. -/
theorem readAt_arr_eq_none_iff {n : Nat} {segments : List String} :
    (∀ items : List Value, items.length = n → (readAt segments (.arr items)).getD .null = .null) ↔
      ∃ s rest, segments = s :: rest ∧ ∀ p, position? s = some p → n ≤ p := by
  constructor
  · intro h
    match segments with
    | [] => exact absurd (h (List.replicate n .null) List.length_replicate) (by simp [readAt])
    | s :: rest =>
      refine ⟨s, rest, rfl, fun p hp => ?_⟩
      by_contra hlt
      -- every element has something at the end of the other segments
      have hread := h (List.replicate n (buildAt (.bool true) rest)) List.length_replicate
      have hchild : (Value.arr (List.replicate n (buildAt (.bool true) rest))).child? s =
          some (buildAt (.bool true) rest) := by
        simp [child?, hp, List.getElem?_replicate, Nat.lt_of_not_le hlt]
      rw [readAt_cons hchild, readAt_buildAt] at hread
      cases hread
  · rintro ⟨s, rest, rfl, hs⟩ items hlength
    have hchild : (Value.arr items).child? s = none := by
      cases hp : position? s with
      | none => simp [child?, hp]
      | some p =>
        have hle : items.length ≤ p := hlength ▸ hs p hp
        simp [child?, hp, hle]
    rw [readAt, hchild, Option.bind_none]
    rfl

theorem findsNothing_iff_segments {n : Nat} {v : Value} : FindsNothing n v ↔ v.text ≠ "length" ∧
    ∃ s rest, pathSegments v.text.toList = s :: rest ∧ ∀ p, position? s = some p → n ≤ p := by
  by_cases hlength : v.text = "length"
  · refine iff_of_false (fun h => ?_) (fun h => h.1 hlength)
    have heval := h (fun _ => none) (.lit (.arr (List.replicate n .null))) (.lit v) _ List.length_replicate rfl rfl
    rw [eval_index (v := .arr (List.replicate n .null)) (k := v) rfl rfl, hlength] at heval
    cases heval
  · rw [and_iff_right hlength, ← readAt_arr_eq_none_iff]
    constructor
    · intro h items hitems
      have heval := h (fun _ => none) (.lit (.arr items)) (.lit v) items hitems rfl rfl
      rw [eval_index (v := .arr items) (k := v) rfl rfl, part_arr hlength] at heval
      exact Except.ok.inj heval
    · intro h vars e i items hitems he hi
      rw [eval_index he hi, part_arr hlength, h items hitems]

/-- An index that is a text selects the field of its name from every object exactly if there is no point in it, no
blank around it and something in it. And a value as an index gives nothing in any list of a length exactly if its
text is not the name of the length and has a first segment that is no position in such a list. -/
theorem index_selects_iff (k : String) (n : Nat) (v : Value) :
    (SelectsField k ↔ k ≠ "" ∧ '.' ∉ k.toList ∧ trim k.toList = k.toList) ∧
    (FindsNothing n v ↔ v.text ≠ "length" ∧
      ∃ s rest, pathSegments v.text.toList = s :: rest ∧ ∀ p, position? s = some p → n ≤ p) :=
  ⟨selectsField_iff_segments.trans pathSegments_eq_singleton_iff, findsNothing_iff_segments⟩

/-- A field with a point in its name is missed, and nothing as an index gives the list itself. -/
theorem index_misses :
    (∃ fields, Table.get? fields "a.b" = some (.num (.int 1)) ∧
      eval (fun _ => none) (.index (.lit (.obj fields)) (.lit (.str "a.b"))) = .ok .null) ∧
    eval (fun _ => none) (.index (.lit (.arr [.bool true])) (.lit .null)) = .ok (.arr [.bool true]) := by
  refine ⟨⟨[("a.b", .num (.int 1))], rfl, ?_⟩, ?_⟩
  · rw [eval_index rfl rfl]
    rfl
  · rw [eval_index rfl rfl]
    rfl

end Expr
end Sequencer
