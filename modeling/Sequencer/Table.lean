/-!
# Tables

Maps from names to values that remember the order in which names were first put. Writing a name
that is present keeps its place, and erasing one closes the gap. Objects, scopes and every named
store of the library are tables.
-/

namespace Sequencer

/-- Names with their values, in the order of first insertion. -/
abbrev Table (α : Type) := List (String × α)

namespace Table

variable {α β : Type}

/-- The value of a name. -/
@[grind] def get? : Table α → String → Option α
  | [], _ => none
  | (k, v) :: t, key => if k = key then some v else get? t key

/-- Whether a name has a value. -/
def has (t : Table α) (key : String) : Bool := (t.get? key).isSome

/-- Gives a name a value: in its place if it is present, at the end if not. -/
@[grind] def put : Table α → String → α → Table α
  | [], key, value => [(key, value)]
  | (k, v) :: t, key, value => if k = key then (key, value) :: t else (k, v) :: put t key value

/-- Takes a name out. -/
def erase (t : Table α) (key : String) : Table α := t.filter fun (k, _) => k != key

/-- The names, in order. -/
def keys (t : Table α) : List String := t.map (·.1)

/-- The table after all the puts, in order. -/
def putAll (t : Table α) (entries : List (String × α)) : Table α :=
  entries.foldl (fun t (k, v) => t.put k v) t

/-- The table of a list of entries: a repeated name keeps its first place and its last value. -/
def ofEntries (entries : List (String × α)) : Table α := putAll [] entries

/-- The entries sorted by name. -/
def sorted (t : Table α) : Table α := t.mergeSort fun a b => decide (a.1 ≤ b.1)

/-! ## Laws -/

@[simp] theorem get?_nil (key : String) : get? ([] : Table α) key = none := rfl

@[simp] theorem get?_put_self (t : Table α) (key : String) (value : α) :
    (t.put key value).get? key = some value := by
  induction t with
  | nil => simp [put, get?]
  | cons e t ih => by_cases h : e.1 = key <;> simp [put, get?, h, ih]

theorem get?_put_of_ne (t : Table α) {key name : String} (value : α) (h : name ≠ key) :
    (t.put key value).get? name = t.get? name := by
  induction t with
  | nil => simp [put, get?, Ne.symm h]
  | cons e t ih =>
    obtain ⟨k, v⟩ := e
    by_cases hk : k = key
    · simp [put, get?, hk, Ne.symm h]
    · simp only [put, if_neg hk, get?, ih]

@[simp] theorem get?_erase_self (t : Table α) (key : String) : (t.erase key).get? key = none := by
  induction t with
  | nil => rfl
  | cons e t ih =>
    by_cases h : e.1 = key
    · simpa [erase, h] using ih
    · simpa [erase, get?, h] using ih

theorem get?_erase_of_ne (t : Table α) {key name : String} (h : name ≠ key) :
    (t.erase key).get? name = t.get? name := by
  induction t with
  | nil => rfl
  | cons e t ih =>
    by_cases he : e.1 = key
    · have hn : e.1 ≠ name := fun hn => h (hn.symm.trans he)
      simpa [erase, get?, he, Ne.symm h] using ih
    · by_cases hn : e.1 = name
      · subst hn; simp [erase, get?, he]
      · simpa [erase, get?, he, hn] using ih

/-- Putting what is there already changes nothing. -/
theorem put_of_get? {t : Table α} {key : String} {value : α} (h : t.get? key = some value) :
    t.put key value = t := by
  induction t with
  | nil => cases h
  | cons e t ih =>
    obtain ⟨k, v⟩ := e
    by_cases hk : k = key
    · simp only [get?, if_pos hk, Option.some.injEq] at h
      simp [put, hk, h]
    · simp only [get?, if_neg hk] at h
      simp [put, hk, ih h]

theorem put_put (t : Table α) (key : String) (v w : α) : (t.put key v).put key w = t.put key w := by
  induction t with
  | nil => simp [put]
  | cons e t ih => by_cases h : e.1 = key <;> simp [put, h, ih]

theorem erase_of_get?_eq_none {t : Table α} {key : String} (h : t.get? key = none) :
    t.erase key = t := by
  induction t with
  | nil => rfl
  | cons e t ih =>
    by_cases hk : e.1 = key
    · simp [get?, hk] at h
    · simp only [get?, if_neg hk] at h
      have hrest := ih h
      rw [erase] at hrest ⊢
      rw [List.filter_cons_of_pos (by simpa using hk), hrest]

theorem erase_put_self (t : Table α) (key : String) (value : α) :
    (t.put key value).erase key = t.erase key := by
  induction t with
  | nil => simp [put, erase]
  | cons e t ih =>
    by_cases h : e.1 = key
    · simp [put, erase, h]
    · simpa [put, erase, h] using ih

end Table
end Sequencer
