import Mathlib.Data.Multiset.AddSub
import Sequencer.Scope

/-!
# Who holds a scope

A scope is held by the frames, loops and requests that took a reference on it, and by the scopes inside
it. An arena is *balanced* for a multiset of holders if the count in each slot is the number of both.
Every operation on arenas changes the holders in one way: allocating and retaining add one, releasing
takes one away, and writing variables leaves them alone. A scope that loses its last holder hands its own
hold on the scope around it over to the release that goes on there, which is why the chain of releases
is a plain induction.
-/

namespace Sequencer

/-- A handle is an index with a generation. -/
theorem ScopeId.eq_of {id id' : ScopeId} (hi : id'.index = id.index)
    (hg : id'.generation = id.generation) : id' = id := by
  cases id
  cases id'
  cases hi
  cases hg
  rfl

/-- The scope around the one in a slot. -/
def Slot.parent? (s : Slot) : Option ScopeId := s.env.bind (·.parent)

/-- A slot with its variables forgotten. -/
def Slot.bare (s : Slot) : Slot := { s with env := s.env.map fun e => { e with vars := [] } }

@[simp] theorem Slot.parent?_bare (s : Slot) : s.bare.parent? = s.parent? := by
  obtain ⟨env, generation, refs⟩ := s
  cases env <;> rfl

@[simp] theorem Slot.isSome_bare (s : Slot) : s.bare.env.isSome = s.env.isSome := by
  simp [Slot.bare]

namespace Arena

/-- How many scopes lie directly inside a scope. -/
def children (a : Arena) (id : ScopeId) : Nat := a.slots.countP fun s => s.parent? = some id

/-- The references of an arena are those of the holders and of the scopes inside. -/
structure Balanced (a : Arena) (held : Multiset ScopeId) : Prop where
  refs : ∀ {id s}, a.slot? id = some s → s.refs = held.count id + a.children id
  positive : ∀ {id s}, a.slot? id = some s → 0 < s.refs
  held_live : ∀ {id}, id ∈ held → a.isLive id
  parent_live : ∀ {id p}, a.parent? id = some p → a.isLive p
  free_iff : ∀ i, i ∈ a.free ↔ ∃ s, a.slots[i]? = some s ∧ s.env = none
  free_nodup : a.free.Nodup
  live_eq : a.live = a.slots.countP (·.env.isSome)
  /-- Scopes have ages: a scope is younger than the one around it. -/
  aged : ∃ (age : ScopeId → Nat) (now : Nat),
    (∀ id, a.isLive id → age id < now) ∧ ∀ id p, a.parent? id = some p → age p < age id

/-- The free slots are the empty ones, each once, the number of scopes is right, and no scope is without a
reference. This much is true however an arena is used. -/
structure Tidy (a : Arena) : Prop where
  positive : ∀ {id s}, a.slot? id = some s → 0 < s.refs
  free_iff : ∀ i, i ∈ a.free ↔ ∃ s, a.slots[i]? = some s ∧ s.env = none
  free_nodup : a.free.Nodup
  live_eq : a.live = a.slots.countP (·.env.isSome)

/-- A balanced arena is tidy, whoever its holders are. -/
theorem Balanced.tidy {a : Arena} {held : Multiset ScopeId} (h : a.Balanced held) : a.Tidy :=
  ⟨h.positive, h.free_iff, h.free_nodup, h.live_eq⟩

/-! ## Slots by handle -/

/-- A slot is found under a handle of its own generation, while it holds a scope. -/
theorem slot?_eq_some {a : Arena} {id : ScopeId} {s : Slot} :
    a.slot? id = some s ↔
      a.slots[id.index]? = some s ∧ s.generation = id.generation ∧ s.env.isSome := by
  simp [slot?, Option.filter_eq_some_iff]

/-- A scope lives if its handle finds a slot. -/
theorem isLive_iff {a : Arena} {id : ScopeId} : a.isLive id ↔ ∃ s, a.slot? id = some s := by
  constructor
  · intro h
    obtain ⟨env, he⟩ := Option.isSome_iff_exists.1 h
    obtain ⟨s, hs, -⟩ := Option.bind_eq_some_iff.1 he
    exact ⟨s, hs⟩
  · rintro ⟨s, hs⟩
    simp [isLive, env?, hs, (slot?_eq_some.1 hs).2.2]

/-- The parent is read from the slot. -/
theorem parent?_eq (a : Arena) (id : ScopeId) : a.parent? id = (a.slot? id).bind Slot.parent? := by
  unfold parent? env? Slot.parent?
  cases a.slot? id <;> rfl

theorem parent?_of_slot? {a : Arena} {id : ScopeId} {s : Slot} (h : a.slot? id = some s) :
    a.parent? id = s.parent? := by
  rw [parent?_eq, h]
  rfl

/-- Only a living scope has a parent. -/
theorem isLive_of_parent? {a : Arena} {id p : ScopeId} (h : a.parent? id = some p) : a.isLive id := by
  rw [parent?_eq] at h
  obtain ⟨s, hs, -⟩ := Option.bind_eq_some_iff.1 h
  exact isLive_iff.2 ⟨s, hs⟩

/-- Two handles on the same slot that are both good are one. -/
theorem eq_of_slot? {a : Arena} {id id' : ScopeId} {s s' : Slot} (h : a.slot? id = some s)
    (h' : a.slot? id' = some s') (hi : id'.index = id.index) : id' = id := by
  obtain ⟨hs, hg, -⟩ := slot?_eq_some.1 h
  obtain ⟨hs', hg', -⟩ := slot?_eq_some.1 h'
  have he : s' = s := by
    rw [hi, hs] at hs'
    exact (Option.some.inj hs').symm
  exact ScopeId.eq_of hi (hg'.symm.trans ((congrArg Slot.generation he).trans hg))

/-- The number of scopes inside a scope is positive as soon as there is one. -/
theorem children_pos_iff {a : Arena} {p : ScopeId} : 0 < a.children p ↔ ∃ id, a.parent? id = some p := by
  unfold children
  rw [Array.countP_pos_iff]
  constructor
  · rintro ⟨s, hs, hp⟩
    obtain ⟨i, hi⟩ := Array.mem_iff_getElem?.1 hs
    have hp' : s.parent? = some p := of_decide_eq_true hp
    have he : s.env.isSome := by
      obtain ⟨e, he, -⟩ := Option.bind_eq_some_iff.1 hp'
      simp [he]
    refine ⟨⟨i, s.generation⟩, ?_⟩
    rw [parent?_of_slot? (slot?_eq_some.2 ⟨hi, rfl, he⟩), hp']
  · rintro ⟨id, h⟩
    rw [parent?_eq] at h
    obtain ⟨s, hs, hp⟩ := Option.bind_eq_some_iff.1 h
    exact ⟨s, Array.mem_of_getElem? (slot?_eq_some.1 hs).1, decide_eq_true hp⟩

/-! ## Changing one slot

`setSlot` at the slot of a good handle changes what that handle finds, and nothing that another good
handle finds. A scope that stays in its slot keeps its handle; a slot that is emptied loses it. -/

/-- One slot changes, and the others stay. -/
theorem getElem?_setSlot {a : Arena} {i : Nat} {s : Slot} (h : a.slots[i]? = some s) (t : Slot)
    (j : Nat) : (a.setSlot i t).slots[j]? = if j = i then some t else a.slots[j]? := by
  have hi : i < a.slots.size := (Array.getElem?_eq_some_iff.1 h).1
  unfold setSlot
  rw [Array.getElem?_setIfInBounds]
  by_cases hj : i = j
  · subst hj
    simp [hi]
  · rw [if_neg hj, if_neg (fun hji => hj hji.symm)]

/-- A slot counts for itself, so that a count over all slots changes by what the one has become. -/
theorem countP_setSlot {a : Arena} {i : Nat} {s : Slot} (h : a.slots[i]? = some s) (t : Slot)
    (p : Slot → Bool) :
    (a.setSlot i t).slots.countP p + (if p s then 1 else 0) =
      a.slots.countP p + if p t then 1 else 0 := by
  obtain ⟨hi, hs⟩ := Array.getElem?_eq_some_iff.1 h
  have hpos : p s = true → 0 < a.slots.countP p := fun hp =>
    Array.countP_pos_iff.2 ⟨s, Array.mem_of_getElem? h, hp⟩
  unfold setSlot
  rw [Array.setIfInBounds_def, dif_pos hi, Array.countP_set, hs]
  split_ifs with hp hp' hp'
  · have := hpos hp
    omega
  · have := hpos hp
    omega
  · rfl
  · rfl

/-- The scopes inside of another one are counted in this way. -/
theorem children_setSlot {a : Arena} {i : Nat} {s : Slot} (h : a.slots[i]? = some s) (t : Slot)
    (p : ScopeId) :
    (a.setSlot i t).children p + (if s.parent? = some p then 1 else 0) =
      a.children p + if t.parent? = some p then 1 else 0 := by
  have := countP_setSlot h t fun s => s.parent? = some p
  simpa only [children, decide_eq_true_eq] using this

/-- A scope that stays in its slot. -/
theorem slot?_setSlot {a : Arena} {id : ScopeId} {s t : Slot} (h : a.slot? id = some s)
    (hg : t.generation = s.generation) (ht : t.env.isSome) (id' : ScopeId) :
    (a.setSlot id.index t).slot? id' = if id' = id then some t else a.slot? id' := by
  obtain ⟨hs, hsg, -⟩ := slot?_eq_some.1 h
  by_cases hid : id' = id
  · subst hid
    rw [if_pos rfl, slot?_eq_some, getElem?_setSlot hs, if_pos rfl]
    exact ⟨rfl, hg.trans hsg, ht⟩
  · rw [if_neg hid]
    unfold slot?
    rw [getElem?_setSlot hs]
    split_ifs with hi
    · -- the slot is the same, so that the other handle is one of another generation
      have hne : s.generation ≠ id'.generation := fun hs' =>
        hid (ScopeId.eq_of hi (hs'.symm.trans hsg))
      rw [hi, hs]
      simp [Option.filter, hg, hne]
    · rfl

/-- A slot that gets vacant is found no more, and the others still are. -/
theorem slot?_vacate {a : Arena} {id : ScopeId} {s : Slot} (h : a.slot? id = some s) (id' : ScopeId) :
    (a.vacate id.index s).slot? id' = if id' = id then none else a.slot? id' := by
  obtain ⟨hs, hsg, -⟩ := slot?_eq_some.1 h
  have hget := getElem?_setSlot hs ⟨none, s.generation + 1, 0⟩ id'.index
  have hvac : (a.vacate id.index s).slot? id' =
      (if id'.index = id.index then some (⟨none, s.generation + 1, 0⟩ : Slot)
        else a.slots[id'.index]?).filter fun t => t.generation = id'.generation && t.env.isSome :=
    congrArg _ hget
  rw [hvac]
  by_cases hi : id'.index = id.index
  · rw [if_pos hi]
    split_ifs with hid
    · simp [Option.filter]
    · have hne : s.generation ≠ id'.generation := fun hs' =>
        hid (ScopeId.eq_of hi (hs'.symm.trans hsg))
      unfold slot?
      rw [hi, hs]
      simp [Option.filter, hne]
  · rw [if_neg hi, if_neg (fun hid => hi (congrArg ScopeId.index hid))]
    rfl

/-! ### The same scope with another count -/

section Recount

variable {a : Arena} {id : ScopeId} {s t : Slot}

/-- The scope lives on under another count. -/
theorem isLive_setSlot (h : a.slot? id = some s) (hg : t.generation = s.generation) (ht : t.env = s.env)
    (id' : ScopeId) : (a.setSlot id.index t).isLive id' ↔ a.isLive id' := by
  rw [isLive_iff, isLive_iff, slot?_setSlot h hg (ht ▸ (slot?_eq_some.1 h).2.2)]
  split_ifs with hid
  · subst hid
    exact ⟨fun _ => ⟨s, h⟩, fun _ => ⟨t, rfl⟩⟩
  · rfl

/-- Its parent stays. -/
theorem parent?_setSlot (h : a.slot? id = some s) (hg : t.generation = s.generation)
    (ht : t.env = s.env) (id' : ScopeId) : (a.setSlot id.index t).parent? id' = a.parent? id' := by
  rw [parent?_eq, parent?_eq, slot?_setSlot h hg (ht ▸ (slot?_eq_some.1 h).2.2)]
  split_ifs with hid
  · subst hid
    rw [h]
    exact congrArg (fun e => Option.bind e Environment.parent) ht
  · rfl

/-- Nothing comes in or goes out. -/
theorem children_setSlot_of_env (h : a.slot? id = some s) (ht : t.env = s.env) (p : ScopeId) :
    (a.setSlot id.index t).children p = a.children p := by
  have hpt : t.parent? = s.parent? := congrArg (fun e => Option.bind e Environment.parent) ht
  have hcount := children_setSlot (slot?_eq_some.1 h).1 t p
  rw [hpt] at hcount
  exact Nat.add_right_cancel hcount

end Recount

/-! ### A scope less -/

section Vacate

variable {a : Arena} {id : ScopeId} {s : Slot}

/-- A scope less is alive. -/
theorem isLive_vacate (h : a.slot? id = some s) (id' : ScopeId) :
    (a.vacate id.index s).isLive id' ↔ id' ≠ id ∧ a.isLive id' := by
  rw [isLive_iff, isLive_iff, slot?_vacate h]
  split_ifs with hid
  · simp [hid]
  · simp [hid]

/-- The others still have their parents. -/
theorem parent?_vacate (h : a.slot? id = some s) {id' p : ScopeId}
    (hp : (a.vacate id.index s).parent? id' = some p) : id' ≠ id ∧ a.parent? id' = some p := by
  rw [parent?_eq, slot?_vacate h] at hp
  rw [parent?_eq]
  split_ifs at hp with hid
  · cases hp
  · exact ⟨hid, hp⟩

/-- The parent has one scope less inside. -/
theorem children_vacate (h : a.slot? id = some s) (p : ScopeId) :
    (a.vacate id.index s).children p + (if s.parent? = some p then 1 else 0) = a.children p :=
  children_setSlot (slot?_eq_some.1 h).1 ⟨none, s.generation + 1, 0⟩ p

end Vacate

/-! ## Tidy arenas -/

namespace Tidy

variable {a : Arena} {id : ScopeId} {s : Slot}

/-- A slot that is in use is not free. -/
theorem not_mem_free (h : a.Tidy) (hs : a.slot? id = some s) : id.index ∉ a.free := by
  obtain ⟨hslot, -, hsome⟩ := slot?_eq_some.1 hs
  rw [h.free_iff]
  rintro ⟨s', hs', hnone⟩
  rw [hslot] at hs'
  cases hs'
  rw [hnone] at hsome
  cases hsome

/-- There are no more scopes than slots. -/
theorem live_le_size (h : a.Tidy) : a.live ≤ a.slots.size := by
  rw [h.live_eq]
  exact Array.countP_le_size

/-- Where a slot is taken, the number of scopes is not zero. -/
theorem live_pos (h : a.Tidy) (hs : a.slot? id = some s) : 0 < a.live := by
  rw [h.live_eq, Array.countP_pos_iff]
  obtain ⟨hslot, -, hsome⟩ := slot?_eq_some.1 hs
  exact ⟨s, Array.mem_of_getElem? hslot, hsome⟩

/-- A slot keeps a scope, with another count or other variables. -/
theorem setSlot (h : a.Tidy) {t : Slot} (hs : a.slot? id = some s) (hg : t.generation = s.generation)
    (ht : t.env.isSome) (hpos : 0 < t.refs) : (a.setSlot id.index t).Tidy := by
  obtain ⟨hslot, -, hsome⟩ := slot?_eq_some.1 hs
  constructor
  case positive =>
    intro id' s' hs'
    rw [slot?_setSlot hs hg ht] at hs'
    split_ifs at hs' with hid
    · cases hs'
      exact hpos
    · exact h.positive hs'
  case free_iff =>
    intro i
    rw [getElem?_setSlot hslot]
    split_ifs with hi
    · rw [hi]
      constructor
      · intro hmem
        exact absurd hmem (h.not_mem_free hs)
      · rintro ⟨t', ht', hnone⟩
        cases ht'
        rw [hnone] at ht
        cases ht
    · exact h.free_iff i
  case free_nodup => exact h.free_nodup
  case live_eq =>
    have := countP_setSlot hslot t fun s => s.env.isSome
    rw [if_pos ht, if_pos hsome] at this
    exact h.live_eq.trans (Nat.add_right_cancel this).symm

/-- A slot loses its scope. -/
theorem vacate (h : a.Tidy) (hs : a.slot? id = some s) : (a.vacate id.index s).Tidy := by
  obtain ⟨hslot, -, hsome⟩ := slot?_eq_some.1 hs
  constructor
  case positive =>
    intro id' s' hs'
    rw [slot?_vacate hs] at hs'
    split_ifs at hs' with hid
    exact h.positive hs'
  case free_iff =>
    intro i
    have hget : (a.vacate id.index s).slots[i]? =
        if i = id.index then some ⟨none, s.generation + 1, 0⟩ else a.slots[i]? :=
      getElem?_setSlot hslot _ i
    show i ∈ id.index :: a.free ↔ _
    rw [hget, List.mem_cons, h.free_iff]
    split_ifs with hi
    · simp [hi]
    · simp [hi]
  case free_nodup =>
    show (id.index :: a.free).Nodup
    exact List.nodup_cons.2 ⟨h.not_mem_free hs, h.free_nodup⟩
  case live_eq =>
    have := countP_setSlot hslot ⟨none, s.generation + 1, 0⟩ fun s => s.env.isSome
    simp only [hsome, if_true, Option.isSome_none, Bool.false_eq_true, if_false] at this
    show a.live - 1 = (a.setSlot id.index ⟨none, s.generation + 1, 0⟩).slots.countP _
    rw [h.live_eq]
    omega

/-- A reference more does no harm to what is tidy. -/
theorem retain (h : a.Tidy) (id : ScopeId) : (a.retain id).Tidy := by
  unfold Arena.retain
  cases hs : a.slot? id with
  | none => exact h
  | some s => exact h.setSlot (t := { s with refs := s.refs + 1 }) hs rfl (slot?_eq_some.1 hs).2.2 (Nat.succ_pos _)

/-- Nor do other variables. -/
theorem modifyVars (h : a.Tidy) (id : ScopeId) (f : Table Value → Table Value) : (a.modifyVars id f).Tidy := by
  unfold Arena.modifyVars
  cases hs : a.slot? id with
  | none => exact h
  | some s =>
    let t : Slot := { s with env := s.env.map fun e => { e with vars := f e.vars } }
    have ht : t.env.isSome := by simpa [t] using (slot?_eq_some.1 hs).2.2
    exact h.setSlot (t := t) hs rfl ht (h.positive (s := s) hs)

/-- The induction is along the chain of releases. -/
theorem releaseChain (h : a.Tidy) (fuel : Nat) (o : Option ScopeId) : (a.releaseChain fuel o).Tidy := by
  induction fuel generalizing a o with
  | zero => exact h
  | succ fuel ih =>
    cases o with
    | none => exact h
    | some id =>
      rw [Arena.releaseChain]
      cases hs : a.slot? id with
      | none => exact h
      | some s =>
        show Tidy (if s.refs > 1 then _ else _)
        split_ifs with hmany
        · exact h.setSlot (t := { s with refs := s.refs - 1 }) hs rfl (slot?_eq_some.1 hs).2.2 (Nat.sub_pos_of_lt hmany)
        · exact ih (h.vacate hs) _

/-- Releasing a scope leaves the arena tidy. -/
theorem release (h : a.Tidy) (id : ScopeId) : (a.release id).Tidy := h.releaseChain _ _

end Tidy

/-! ## More and fewer holders -/

/-- One more hold, if there is anything to hold. -/
theorem count_elim_cons (o : Option ScopeId) (held : Multiset ScopeId) (id : ScopeId) :
    (o.elim held (· ::ₘ held)).count id = held.count id + if o = some id then 1 else 0 := by
  cases o with
  | none => simp
  | some p => simp only [Option.elim_some, Multiset.count_cons, Option.some.injEq, eq_comm]

namespace Balanced

variable {a : Arena} {held : Multiset ScopeId}

/-- What is held is found. -/
theorem isLive (h : a.Balanced held) {id : ScopeId} (hid : id ∈ held) : ∃ s, a.slot? id = some s :=
  isLive_iff.1 (h.held_live hid)

/-- Nobody knows of a scope that is not live: it has neither a holder nor a scope inside. -/
theorem unknown (h : a.Balanced held) {id : ScopeId} (hid : ¬a.isLive id) :
    held.count id = 0 ∧ a.children id = 0 := by
  constructor
  · rw [Multiset.count_eq_zero]
    intro hm
    exact hid (h.held_live hm)
  · by_contra hpos
    obtain ⟨c, hc⟩ := children_pos_iff.1 (Nat.pos_of_ne_zero hpos)
    exact hid (h.parent_live hc)

/-- Another count at one scope, for holders that differ there alone. -/
theorem recount (h : a.Balanced held) {held' : Multiset ScopeId} {id : ScopeId} {s t : Slot}
    (hs : a.slot? id = some s) (hg : t.generation = s.generation) (ht : t.env = s.env)
    (hpos : 0 < t.refs) (hrefs : t.refs = held'.count id + a.children id)
    (hother : ∀ id', id' ≠ id → held'.count id' = held.count id') :
    (a.setSlot id.index t).Balanced held' := by
  obtain ⟨hslot, -, hsome⟩ := slot?_eq_some.1 hs
  have hfind := slot?_setSlot hs hg (ht ▸ hsome)
  have hlive := isLive_setSlot hs hg ht
  -- The slots in use are the same ones, and so are the free ones.
  have htidy := h.tidy.setSlot hs hg (ht ▸ hsome) hpos
  constructor
  case refs =>
    intro id' s' hs'
    rw [hfind] at hs'
    rw [children_setSlot_of_env hs ht]
    split_ifs at hs' with hid
    · cases hs'
      rw [hid]
      exact hrefs
    · -- Elsewhere neither the references nor their holders have changed.
      rw [hother id' hid]
      exact h.refs hs'
  case positive => exact htidy.positive
  case held_live =>
    intro id' hmem
    rw [hlive]
    by_cases hid : id' = id
    · rw [hid]
      exact isLive_iff.2 ⟨s, hs⟩
    · apply h.held_live
      rw [← Multiset.count_pos, ← hother id' hid]
      exact Multiset.count_pos.2 hmem
  case parent_live =>
    intro id' p hp
    rw [parent?_setSlot hs hg ht] at hp
    exact (hlive p).2 (h.parent_live hp)
  case free_iff => exact htidy.free_iff
  case free_nodup => exact htidy.free_nodup
  case live_eq => exact htidy.live_eq
  case aged =>
    obtain ⟨age, now, hnow, hage⟩ := h.aged
    refine ⟨age, now, fun id' hl => hnow id' ((hlive id').1 hl), fun id' p hp => hage id' p ?_⟩
    rw [← parent?_setSlot hs hg ht]
    exact hp

/-- Taking a reference on a scope makes one more holder. -/
theorem retain (h : a.Balanced held) {id : ScopeId} (hid : a.isLive id) :
    (a.retain id).Balanced (id ::ₘ held) := by
  obtain ⟨s, hs⟩ := isLive_iff.1 hid
  have he : a.retain id = a.setSlot id.index { s with refs := s.refs + 1 } := by
    unfold Arena.retain
    rw [hs]
  rw [he]
  refine h.recount hs rfl rfl (Nat.succ_pos _) ?_ fun id' hne => Multiset.count_cons_of_ne hne _
  rw [Multiset.count_cons_self]
  have := h.refs hs
  simp only
  omega

/-- The last holder of a scope is gone: the scope leaves its slot, and what it held is held by whoever
goes on releasing. -/
theorem vacate {id : ScopeId} {s : Slot} (h : a.Balanced (id ::ₘ held)) (hs : a.slot? id = some s)
    (hlast : s.refs ≤ 1) :
    (a.vacate id.index s).Balanced (s.parent?.elim held (· ::ₘ held)) := by
  obtain ⟨hslot, -, hsome⟩ := slot?_eq_some.1 hs
  have hrefs := h.refs hs
  rw [Multiset.count_cons_self] at hrefs
  have hcount : held.count id = 0 := by omega
  have hnone : a.children id = 0 := by omega
  have hfind := slot?_vacate hs
  have hlive := isLive_vacate hs
  have htidy := h.tidy.vacate hs
  -- A scope inside of `id` would count among its children, of which there are none.
  have hne : ∀ {id' p}, a.parent? id' = some p → p ≠ id := by
    rintro id' p hp rfl
    have := children_pos_iff.2 ⟨id', hp⟩
    omega
  constructor
  case refs =>
    intro id' s' hs'
    rw [hfind] at hs'
    split_ifs at hs' with hid
    have h1 := h.refs hs'
    rw [Multiset.count_cons_of_ne hid] at h1
    have h2 := children_vacate hs id'
    rw [count_elim_cons]
    omega
  case positive => exact htidy.positive
  case held_live =>
    intro id' hmem
    have hold : id' ∈ held → id' ≠ id ∧ a.isLive id' := by
      intro hm
      refine ⟨?_, h.held_live (Multiset.mem_cons_of_mem hm)⟩
      rintro rfl
      exact Multiset.count_eq_zero.1 hcount hm
    rw [hlive]
    cases hp : s.parent? with
    | none =>
      rw [hp] at hmem
      exact hold hmem
    | some p =>
      rw [hp] at hmem
      have hpar : a.parent? id = some p := (parent?_of_slot? hs).trans hp
      rcases Multiset.mem_cons.1 hmem with rfl | hm
      · exact ⟨hne hpar, h.parent_live hpar⟩
      · exact hold hm
  case parent_live =>
    intro id' p hp
    obtain ⟨-, hp⟩ := parent?_vacate hs hp
    exact (hlive p).2 ⟨hne hp, h.parent_live hp⟩
  case free_iff => exact htidy.free_iff
  case free_nodup => exact htidy.free_nodup
  case live_eq => exact htidy.live_eq
  case aged =>
    obtain ⟨age, now, hnow, hage⟩ := h.aged
    exact ⟨age, now, fun id' hl => hnow id' ((hlive id').1 hl).2,
      fun id' p hp => hage id' p (parent?_vacate hs hp).2⟩

/-- There are no more scopes than slots. -/
theorem live_le_size (h : a.Balanced held) : a.live ≤ a.slots.size := h.tidy.live_le_size

/-- A chain of releases takes the first holder away. The induction is on the fuel, which the number of
scopes bounds: each turn but the last empties a slot. -/
theorem releaseChain {fuel : Nat} {o : Option ScopeId} (h : a.Balanced (o.elim held (· ::ₘ held)))
    (hfuel : a.live < fuel) : (a.releaseChain fuel o).Balanced held := by
  induction fuel generalizing a o with
  | zero => exact absurd hfuel (Nat.not_lt_zero _)
  | succ fuel ih =>
    cases o with
    | none => exact h
    | some id =>
      obtain ⟨s, hs⟩ := h.isLive (Multiset.mem_cons_self id held)
      have hrefs := h.refs hs
      simp only [Option.elim_some, Multiset.count_cons_self] at hrefs
      rw [Arena.releaseChain, hs]
      show Balanced (if s.refs > 1 then _ else _) held
      split_ifs with hmany
      · refine h.recount hs rfl rfl (Nat.sub_pos_of_lt hmany) ?_ fun id' hne =>
          (Multiset.count_cons_of_ne hne _).symm
        simp only
        omega
      · have hpos := h.tidy.live_pos hs
        apply ih (h.vacate hs (Nat.le_of_not_lt hmany))
        show a.live - 1 < fuel
        omega

/-- Releasing a scope makes one holder fewer. -/
theorem release {id : ScopeId} (h : a.Balanced (id ::ₘ held)) : (a.release id).Balanced held :=
  releaseChain (o := some id) h (Nat.lt_succ_of_le h.live_le_size)

end Balanced

/-! ## New scopes -/

/-- Puts a scope into a free slot, or into a new one if there is none. -/
def place (a : Arena) (env : Environment) : Arena × ScopeId :=
  match a.free with
  | index :: free =>
    let generation := match a.slots[index]? with
      | some s => s.generation
      | none => 0
    ({ slots := a.slots.setIfInBounds index ⟨some env, generation, 1⟩, free, live := a.live + 1 },
      ⟨index, generation⟩)
  | [] =>
    ({ slots := a.slots.push ⟨some env, 0, 1⟩, free := [], live := a.live + 1 }, ⟨a.slots.size, 0⟩)

/-- A scope with a parent is placed once its parent has been retained. -/
theorem alloc_eq_place (a : Arena) (parent : Option ScopeId) (vars : Table Value) :
    a.alloc parent vars = (parent.elim a a.retain).place ⟨vars, parent⟩ := by
  cases parent <;> rfl

/-- What `place` does, in the same words for a slot that is used again and for a new one. -/
structure Placed (a : Arena) (env : Environment) (b : Arena) (id : ScopeId) : Prop where
  slots : ∀ j, b.slots[j]? = if j = id.index then some ⟨some env, id.generation, 1⟩ else a.slots[j]?
  empty : ∀ s, a.slots[id.index]? = some s → s.env = none
  count : ∀ p : Slot → Bool, (∀ s, s.env = none → p s = false) →
    b.slots.countP p = a.slots.countP p + if p ⟨some env, id.generation, 1⟩ then 1 else 0
  free : ∀ j, j ∈ b.free ↔ j ≠ id.index ∧ j ∈ a.free
  nodup : b.free.Nodup
  live : b.live = a.live + 1

/-- In a tidy arena the new scope gets a handle that nobody had. -/
theorem Tidy.placed {a : Arena} (h : a.Tidy) (env : Environment) :
    Placed a env (a.place env).1 (a.place env).2 := by
  unfold place
  cases hfree : a.free with
  | nil =>
    constructor
    case slots =>
      intro j
      show (a.slots.push _)[j]? = _
      rw [Array.getElem?_push]
    case empty =>
      intro s hs
      simp at hs
    case count =>
      intro p _
      exact Array.countP_push
    case free =>
      intro j
      simp [hfree]
    case nodup => exact List.nodup_nil
    case live => rfl
  | cons index free =>
    -- the first free slot is taken, which is empty
    obtain ⟨s, hs, hempty⟩ := (h.free_iff index).1 (hfree ▸ List.mem_cons_self)
    have hnd : (index :: free).Nodup := hfree ▸ h.free_nodup
    simp only [hs]
    constructor
    case slots => exact getElem?_setSlot hs _
    case empty =>
      intro s' hs'
      rw [hs] at hs'
      cases hs'
      exact hempty
    case count =>
      intro p hp
      have := countP_setSlot hs ⟨some env, s.generation, 1⟩ p
      rw [hp s hempty] at this
      exact this
    case free =>
      intro j
      constructor
      · intro hj
        refine ⟨?_, hfree ▸ List.mem_cons_of_mem _ hj⟩
        rintro rfl
        exact (List.nodup_cons.1 hnd).1 hj
      · rintro ⟨hne, hj⟩
        exact (List.mem_cons.1 (hfree ▸ hj)).resolve_left hne
    case nodup => exact (List.nodup_cons.1 hnd).2
    case live => rfl

/-- The same in a balanced one. -/
theorem Balanced.placed {a : Arena} {held : Multiset ScopeId} (h : a.Balanced held) (env : Environment) :
    Placed a env (a.place env).1 (a.place env).2 := h.tidy.placed env

namespace Placed

variable {a b : Arena} {env : Environment} {id : ScopeId}

/-- Under the new handle there is the new scope with one reference, and under the others what was there. -/
theorem slot? (h : Placed a env b id) (id' : ScopeId) :
    b.slot? id' = if id' = id then some ⟨some env, id.generation, 1⟩ else a.slot? id' := by
  unfold Arena.slot?
  rw [h.slots]
  by_cases hi : id'.index = id.index
  · rw [if_pos hi]
    split_ifs with hid
    · rw [hid]
      simp [Option.filter]
    · have hne : id.generation ≠ id'.generation := fun hg => hid (ScopeId.eq_of hi hg.symm)
      rw [hi]
      cases hs : a.slots[id.index]? with
      | none => simp [Option.filter, hne]
      | some s => simp [Option.filter, hne, h.empty s hs]
  · rw [if_neg hi, if_neg (fun hid => hi (congrArg ScopeId.index hid))]

/-- The handle is a new one. -/
theorem not_isLive (h : Placed a env b id) : ¬a.isLive id := by
  rw [isLive_iff]
  rintro ⟨s, hs⟩
  obtain ⟨hslot, -, hsome⟩ := slot?_eq_some.1 hs
  rw [h.empty s hslot] at hsome
  cases hsome

/-- One scope more is alive. -/
theorem isLive_iff (h : Placed a env b id) (id' : ScopeId) :
    b.isLive id' ↔ id' = id ∨ a.isLive id' := by
  rw [Arena.isLive_iff, Arena.isLive_iff, h.slot?]
  split_ifs with hid
  · simp [hid]
  · simp [hid]

/-- Its parent is the one that it was given, and the others keep theirs. -/
theorem parent? (h : Placed a env b id) (id' : ScopeId) :
    b.parent? id' = if id' = id then env.parent else a.parent? id' := by
  rw [parent?_eq, parent?_eq, h.slot?]
  split_ifs <;> rfl

/-- That parent has one scope more inside. -/
theorem children (h : Placed a env b id) (p : ScopeId) :
    b.children p = a.children p + if env.parent = some p then 1 else 0 := by
  have hc := h.count (fun s => s.parent? = some p) fun s hs => by simp [Slot.parent?, hs]
  have he : (⟨some env, id.generation, 1⟩ : Slot).parent? = env.parent := rfl
  simpa only [Arena.children, decide_eq_true_eq, he] using hc

/-- What was tidy is tidy with the new scope. -/
theorem tidy (h : Placed a env b id) (ha : a.Tidy) : b.Tidy := by
  constructor
  case positive =>
    intro id' s' hs'
    rw [h.slot?] at hs'
    split_ifs at hs' with hid
    · cases hs'
      exact Nat.one_pos
    · exact ha.positive hs'
  case free_iff =>
    intro i
    rw [h.free, ha.free_iff, h.slots]
    split_ifs with hi
    · simp [hi]
    · simp [hi]
  case free_nodup => exact h.nodup
  case live_eq =>
    have := h.count (fun s => s.env.isSome) fun s hs => by simp [hs]
    rw [h.live, this, ha.live_eq]
    rfl

/-- The new scope is the youngest, so that ages stay ages. -/
theorem aged (h : Placed a env b id) (hmem : ∀ {p}, env.parent = some p → a.isLive p)
    (hlive : ∀ {id p}, a.parent? id = some p → a.isLive p)
    (haged : ∃ (age : ScopeId → Nat) (now : Nat),
      (∀ id, a.isLive id → age id < now) ∧ ∀ id p, a.parent? id = some p → age p < age id) :
    ∃ (age : ScopeId → Nat) (now : Nat),
      (∀ id, b.isLive id → age id < now) ∧ ∀ id p, b.parent? id = some p → age p < age id := by
  obtain ⟨age, now, hnow, hage⟩ := haged
  have hne : ∀ {id'}, a.isLive id' → id' ≠ id := by
    rintro id' hl rfl
    exact h.not_isLive hl
  refine ⟨fun id' => if id' = id then now else age id', now + 1, ?_, ?_⟩
  · intro id' hl
    show (if id' = id then now else age id') < now + 1
    rcases (h.isLive_iff id').1 hl with hid | hl
    · rw [if_pos hid]
      omega
    · rw [if_neg (hne hl)]
      have := hnow id' hl
      omega
  · intro id' p hpar
    show (if p = id then now else age p) < if id' = id then now else age id'
    rw [h.parent?] at hpar
    split_ifs at hpar with hid
    · rw [if_neg (hne (hmem hpar)), if_pos hid]
      exact hnow p (hmem hpar)
    · rw [if_neg (hne (hlive hpar)), if_neg hid]
      exact hage id' p hpar

end Placed

/-- A new scope has one holder, and takes over a hold on the scope around it. -/
theorem Balanced.place {a : Arena} {held : Multiset ScopeId} {env : Environment}
    (h : a.Balanced (env.parent.elim held (· ::ₘ held))) :
    (a.place env).1.Balanced ((a.place env).2 ::ₘ held) := by
  have hp := h.placed env
  generalize (a.place env).1 = b at hp
  generalize (a.place env).2 = id at hp
  have htidy := hp.tidy h.tidy
  have hmem : ∀ {p}, env.parent = some p → a.isLive p := by
    intro p he
    rw [he] at h
    exact h.held_live (Multiset.mem_cons_self p held)
  have hold : ∀ {id'}, id' ∈ held → a.isLive id' := by
    intro id' hm
    apply h.held_live
    cases env.parent with
    | none => exact hm
    | some p => exact Multiset.mem_cons_of_mem hm
  constructor
  case refs =>
    intro id' s' hs'
    rw [hp.slot?] at hs'
    rw [hp.children]
    split_ifs at hs' with hid
    · cases hs'
      subst hid
      -- the new scope is held once, by whoever made it, and has no children yet
      have ⟨h1, h2⟩ := h.unknown hp.not_isLive
      rw [count_elim_cons] at h1
      rw [Multiset.count_cons_self]
      show 1 = _
      omega
    · -- the hold on the parent goes over to the new scope
      rw [Multiset.count_cons_of_ne hid]
      have := h.refs hs'
      rw [count_elim_cons] at this
      omega
  case positive => exact htidy.positive
  case held_live =>
    intro id' hm
    rw [hp.isLive_iff]
    rcases Multiset.mem_cons.1 hm with rfl | hm
    · exact Or.inl rfl
    · exact Or.inr (hold hm)
  case parent_live =>
    intro id' p hpar
    rw [hp.parent?] at hpar
    rw [hp.isLive_iff]
    split_ifs at hpar with hid
    · exact Or.inr (hmem hpar)
    · exact Or.inr (h.parent_live hpar)
  case free_iff => exact htidy.free_iff
  case free_nodup => exact htidy.free_nodup
  case live_eq => exact htidy.live_eq
  case aged => exact hp.aged hmem h.parent_live h.aged

/-- The parent of a new scope gains no holder but the scope itself, and the new scope one. -/
theorem Balanced.alloc {a : Arena} {held : Multiset ScopeId} (h : a.Balanced held)
    {parent : Option ScopeId} (hp : ∀ p, parent = some p → a.isLive p) (vars : Table Value) :
    (a.alloc parent vars).1.Balanced ((a.alloc parent vars).2 ::ₘ held) := by
  rw [alloc_eq_place]
  apply Balanced.place
  cases parent with
  | none => exact h
  | some p => exact h.retain (hp p rfl)

/-- An arena without scopes has no holders. -/
theorem balanced_new : new.Balanced 0 := by
  have hnone : ∀ id, new.slot? id = none := fun id => rfl
  have hlive : ∀ id, ¬new.isLive id := by
    intro id hl
    obtain ⟨s, hs⟩ := isLive_iff.1 hl
    rw [hnone] at hs
    cases hs
  constructor
  case refs =>
    intro id s hs
    rw [hnone] at hs
    cases hs
  case positive =>
    intro id s hs
    rw [hnone] at hs
    cases hs
  case held_live =>
    intro id hm
    exact absurd hm (Multiset.notMem_zero id)
  case parent_live =>
    intro id p hp
    exact absurd (isLive_of_parent? hp) (hlive id)
  case free_iff =>
    intro i
    simp [new]
  case free_nodup => exact List.nodup_nil
  case live_eq => rfl
  case aged =>
    exact ⟨fun _ => 0, 0, fun id hl => absurd hl (hlive id),
      fun id p hp => absurd (isLive_of_parent? hp) (hlive id)⟩

end Arena
end Sequencer
