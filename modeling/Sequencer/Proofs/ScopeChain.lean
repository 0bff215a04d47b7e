import Sequencer.Proofs.ReferenceCounts

/-!
# The chain of scopes mirrors the stack

Each frame works inside of the scope of the frame below it, and the lowest one inside of the outermost scope,
whatever threads and copies of threads have done. So a number in front of the colon of a decorated name
counts frames: as many below the active one is the frame whose scope is meant. One more than the lowest
is the outermost scope, and there is nothing beyond.
-/

namespace Sequencer

variable {σ : Type}

/-! ## Going outwards

The scopes outwards from the active one are those of the frames, from the top to the bottom, and then the root scope.
-/

/-- The scopes of a stack, the active one first and the outermost one last. -/
def scopesOutwards (root : ScopeId) (fs : List Frame) : List ScopeId := fs.map (·.scope) ++ [root]

section Outwards

variable {root : ScopeId} {fs : List Frame} {n : Nat}

theorem scopesOutwards_frame {f : Frame} (hf : fs[n]? = some f) :
    (scopesOutwards root fs)[n]? = some f.scope := by
  obtain ⟨hlt, -⟩ := List.getElem?_eq_some_iff.1 hf
  unfold scopesOutwards
  rw [List.getElem?_append_left (by simpa using hlt), List.getElem?_map, hf]
  rfl

theorem scopesOutwards_length : (scopesOutwards root fs)[fs.length]? = some root := by
  unfold scopesOutwards
  rw [← List.length_map (f := fun f : Frame => f.scope), List.getElem?_append_right le_rfl, Nat.sub_self]
  rfl

theorem scopesOutwards_beyond (hn : fs.length < n) : (scopesOutwards root fs)[n]? = none := by
  unfold scopesOutwards
  apply List.getElem?_eq_none
  rw [List.length_append, List.length_map]
  exact hn

end Outwards

/-- Links lead through the scopes of a stack, and no further. -/
theorem Stacked.ancestor?_eq {a : Arena} {root : ScopeId} {fs : List Frame} {ds : List Driver}
    (h : Stacked a root fs ds) (hroot : a.parent? root = none) (n : Nat) :
    a.ancestor? (topScope root fs) n = (scopesOutwards root fs)[n]? := by
  -- Only the links are needed, and they are those of the frames below, too.
  have hlinked : ∀ {f below}, f :: below <:+ fs → a.parent? f.scope = some (topScope root below) := h.linked
  clear h
  induction n generalizing fs with
  | zero => cases fs <;> rfl
  | succ n ih =>
    cases fs with
    | nil =>
      show (a.parent? root).bind _ = _
      rw [hroot]
      rfl
    | cons f below =>
      have hbelow : ∀ {g rest}, g :: rest <:+ below → a.parent? g.scope = some (topScope root rest) :=
        fun hsuf => hlinked (hsuf.trans (List.suffix_cons f below))
      show (a.parent? f.scope).bind _ = _
      rw [hlinked List.suffix_rfl]
      exact ih hbelow

namespace Machine

/-! ## What an address means in a scope

With a number for a level, an address means the scope that many steps outwards, or lacks one. -/

/-- Reading an address whose variable is the one that a scope shows. -/
def readAt (m : Machine σ) (scope : ScopeId) (a : Address) :
    Machine σ × Except StorageError (Option Value) :=
  let found := m.lookupIn scope a.name
  (m, .ok (match a.path with | some path => found.bind (·.readPath path) | none => found))

/-- Saving under an address whose variable belongs to a scope. -/
def saveAt (m : Machine σ) (scope : ScopeId) (a : Address) (v : Value) :
    Machine σ × Except StorageError Unit :=
  match a.path with
  | none => (m.withScopes (·.set scope a.name v), .ok ())
  | some path =>
    match updated (m.lookupIn scope a.name) path v with
    | .ok c => (m.withScopes (·.set scope a.name c), .ok ())
    | .error e => (m, .error e)

/-- Deleting an address whose variable belongs to a scope. -/
def deleteAt (m : Machine σ) (scope : ScopeId) (a : Address) : Machine σ × Except StorageError Unit :=
  match a.path with
  | none => (m.withScopes (·.remove scope a.name), .ok ())
  | some path =>
    match m.lookupIn scope a.name with
    | none => (m, .ok ())
    | some c =>
      match c.removePath path with
      | (c, .ok _) => (m.withScopes (·.set scope a.name c), .ok ())
      | (_, .error reason) => (m, .error (.path path reason))

/-- A decorated name means a variable of a scope, for all three operations. -/
structure Resolves (m : Machine σ) (name : String) (a : Address) (scope : ScopeId) : Prop where
  read : m.read name = m.readAt scope a
  save (v : Value) : m.save name v = m.saveAt scope a v
  delete : m.delete name = m.deleteAt scope a

/-- A decorated name has too many links to mean anything, for all three operations. -/
structure Overshoots (m : Machine σ) (name : String) (n : Nat) : Prop where
  read : m.read name = (m, .error (.noAncestor n))
  save (v : Value) : m.save name v = (m, .error (.noAncestor n))
  delete : m.delete name = (m, .error (.noAncestor n))

/-- An operation has failed for want of scopes. -/
def LacksScope {α : Type} (r : Machine σ × Except StorageError α) : Prop := ∃ n, r.2 = .error (.noAncestor n)

section Ancestors

variable {m : Machine σ} {a : Address} {n : Nat} {scope : ScopeId}

theorem readOnly_of_ancestor (ha : a.level = .ancestor n) : a.readOnly = false := by
  unfold Address.readOnly
  rw [ha]

theorem fetch_of_ancestor (ha : a.level = .ancestor n)
    (hs : m.scopes.ancestor? m.currentScope n = some scope) : m.fetch a = .ok (m.lookupIn scope a.name) := by
  unfold fetch
  rw [ha]
  simp only
  rw [hs]

theorem change_of_ancestor (ha : a.level = .ancestor n)
    (hs : m.scopes.ancestor? m.currentScope n = some scope) (c : Change)
    (onProvider : Provider → Except ProviderError (Machine σ)) :
    m.change a c onProvider = .ok (m.withScopes fun scopes => c.onScope scopes scope) := by
  unfold change
  rw [ha]
  simp only
  rw [hs]

theorem fetch_of_overshoot (ha : a.level = .ancestor n)
    (hs : m.scopes.ancestor? m.currentScope n = none) : m.fetch a = .error (.noAncestor n) := by
  unfold fetch
  rw [ha]
  simp only
  rw [hs]

theorem change_of_overshoot (ha : a.level = .ancestor n)
    (hs : m.scopes.ancestor? m.currentScope n = none) (c : Change)
    (onProvider : Provider → Except ProviderError (Machine σ)) :
    m.change a c onProvider = .error (.noAncestor n) := by
  unfold change
  rw [ha]
  simp only
  rw [hs]

theorem readAddress_of_ancestor (ha : a.level = .ancestor n)
    (hs : m.scopes.ancestor? m.currentScope n = some scope) : m.readAddress a = m.readAt scope a := by
  unfold readAddress
  rw [fetch_of_ancestor ha hs]
  rfl

/-- The whole variable, which an address with a path is about first. -/
theorem readAddress_container_of_ancestor (ha : a.level = .ancestor n)
    (hs : m.scopes.ancestor? m.currentScope n = some scope) :
    m.readAddress a.container = (m, .ok (m.lookupIn scope a.name)) :=
  readAddress_of_ancestor (a := a.container) ha hs

theorem writeAddress_of_ancestor (ha : a.level = .ancestor n)
    (hs : m.scopes.ancestor? m.currentScope n = some scope) (v : Value) :
    m.writeAddress a v = (m.withScopes (·.set scope a.name v), .ok ()) := by
  unfold writeAddress put
  rw [change_of_ancestor ha hs]
  rfl

/-- With too many links the error names their number, whatever the name is. -/
theorem readAddress_of_overshoot (ha : a.level = .ancestor n)
    (hs : m.scopes.ancestor? m.currentScope n = none) :
    m.readAddress a = (m, .error (.noAncestor n)) := by
  unfold readAddress
  rw [fetch_of_overshoot ha hs]
  rfl

/-- A name with links resolves to the scope at their end. -/
theorem resolves_of_ancestor {name : String} (hname : Address.parse name.toList = .ok a)
    (ha : a.level = .ancestor n) (hs : m.scopes.ancestor? m.currentScope n = some scope) :
    m.Resolves name a scope := by
  -- a level that is a number is never read-only
  have hwritable : ¬ a.readOnly = true := by
    rw [readOnly_of_ancestor ha]
    exact Bool.false_ne_true
  constructor
  case read =>
    unfold read
    rw [hname]
    exact readAddress_of_ancestor ha hs
  case save =>
    intro v
    unfold save saveAddress saveAt
    rw [hname]
    simp only
    rw [if_neg hwritable]
    cases a.path with
    | none => exact writeAddress_of_ancestor ha hs v
    -- with a path, the container is read from the scope first and written back to the same one
    | some path =>
      simp only
      rw [readAddress_container_of_ancestor ha hs]
      simp only
      cases updated (m.lookupIn scope a.name) path v with
      | ok c => exact writeAddress_of_ancestor ha hs c
      | error e => rfl
  case delete =>
    unfold delete deleteAddress deleteAt
    rw [hname]
    simp only
    rw [if_neg hwritable]
    cases a.path with
    | none =>
      unfold erase
      simp only
      rw [change_of_ancestor ha hs]
      rfl
    | some path =>
      simp only
      rw [readAddress_container_of_ancestor ha hs]
      cases m.lookupIn scope a.name with
      | none => rfl
      | some c =>
        simp only
        -- what is taken out, and whether there was anything to take out, does not matter here
        generalize c.removePath path = removed
        obtain ⟨c, _ | _⟩ := removed
        · rfl
        · exact writeAddress_of_ancestor ha hs c

/-- A name with links that lead nowhere fails, and changes nothing. -/
theorem overshoots_of_ancestor {name : String} (hname : Address.parse name.toList = .ok a)
    (ha : a.level = .ancestor n) (hs : m.scopes.ancestor? m.currentScope n = none) :
    m.Overshoots name n := by
  have hwritable : ¬ a.readOnly = true := by
    rw [readOnly_of_ancestor ha]
    exact Bool.false_ne_true
  -- A part is saved and deleted through the whole variable, which is not found.
  have hcontainer : m.readAddress a.container = (m, .error (.noAncestor n)) :=
    readAddress_of_overshoot (a := a.container) ha hs
  constructor
  case read =>
    unfold read
    rw [hname]
    exact readAddress_of_overshoot ha hs
  case save =>
    intro v
    unfold save saveAddress writeAddress put
    rw [hname]
    simp only
    rw [if_neg hwritable, change_of_overshoot ha hs]
    cases a.path with
    | none => rfl
    | some path =>
      simp only
      rw [hcontainer]
  case delete =>
    unfold delete deleteAddress erase
    rw [hname]
    simp only
    rw [if_neg hwritable, change_of_overshoot ha hs]
    cases a.path with
    | none => rfl
    | some path =>
      simp only
      rw [hcontainer]

end Ancestors

/-! ### Names that mean a scope do not lack one

A name may fail for other reasons. For this one it fails exactly if the number is too large. -/

namespace Resolves

variable {m : Machine σ} {name : String} {a : Address} {scope : ScopeId}

/-- A name that means a scope may have no value there, but does not lack the scope. -/
theorem not_lacks_read (h : m.Resolves name a scope) : ¬ LacksScope (m.read name) := by
  rintro ⟨n, he⟩
  rw [h.read] at he
  cases he

theorem not_lacks_save (h : m.Resolves name a scope) (v : Value) : ¬ LacksScope (m.save name v) := by
  rintro ⟨n, he⟩
  rw [h.save] at he
  unfold saveAt updated at he
  split at he
  · cases he
  · split at he
    · cases he
    · next hu =>
      cases he
      split at hu
      · cases hu
      · split at hu <;> cases hu

theorem not_lacks_delete (h : m.Resolves name a scope) : ¬ LacksScope (m.delete name) := by
  rintro ⟨n, he⟩
  rw [h.delete] at he
  unfold deleteAt at he
  split at he
  · cases he
  · split at he
    · cases he
    · split at he <;> cases he

end Resolves

namespace Overshoots

variable {m : Machine σ} {name : String} {n : Nat}

theorem lacks_read (h : m.Overshoots name n) : LacksScope (m.read name) := ⟨n, by rw [h.read]⟩

theorem lacks_save (h : m.Overshoots name n) (v : Value) : LacksScope (m.save name v) := ⟨n, by rw [h.save]⟩

theorem lacks_delete (h : m.Overshoots name n) : LacksScope (m.delete name) := ⟨n, by rw [h.delete]⟩

end Overshoots
end Machine

/-! ## The whole picture

In any pool, for reading, saving and deleting. -/

namespace Pool

/-- Through all that can happen in a pool, the scopes of a thread are linked as its frames are stacked. A
decorated name with `n` links therefore means, to reading, saving and deleting alike, the scope of the `n`th
frame below the active one, or the outermost scope if there are just `n` frames; and each of the three
fails for want of scopes if and only if there are fewer. -/
theorem chain_mirrors_stack {p : Pool σ} (h : p.Reachable) {w : Worker σ} (hw : w ∈ p.workers) :
    (∀ f, w.thread.frames.getLast? = some f → p.scopes.parent? f.scope = some p.root) ∧
    (∀ k f g, w.thread.frames[k]? = some f → w.thread.frames[k + 1]? = some g →
      p.scopes.parent? f.scope = some g.scope) ∧
    ∀ name a n, Address.parse name.toList = .ok a → a.level = .ancestor n →
      (∀ f, w.thread.frames[n]? = some f → (p.machine w).Resolves name a f.scope) ∧
      (n = (p.machine w).depth → (p.machine w).Resolves name a p.root) ∧
      ((p.machine w).depth < n → (p.machine w).Overshoots name n) ∧
      (Machine.LacksScope ((p.machine w).read name) ↔ (p.machine w).depth < n) ∧
      (∀ v, Machine.LacksScope ((p.machine w).save name v) ↔ (p.machine w).depth < n) ∧
      (Machine.LacksScope ((p.machine w).delete name) ↔ (p.machine w).depth < n) := by
  have hst : Stacked p.scopes p.root w.thread.frames w.loops := h.sound.stacked w hw
  have hsplit : ∀ k f, w.thread.frames[k]? = some f → f :: w.thread.frames.drop (k + 1) <:+ w.thread.frames := by
    intro k f hk
    obtain ⟨hlt, rfl⟩ := List.getElem?_eq_some_iff.1 hk
    rw [← List.drop_eq_getElem_cons hlt]
    exact List.drop_suffix k _
  refine ⟨?_, ?_, ?_⟩
  · intro f hf
    obtain ⟨above, he⟩ := List.getLast?_eq_some_iff.1 hf
    have houtermost : [f] <:+ w.thread.frames := he ▸ List.suffix_append above [f]
    exact hst.linked houtermost
  · intro k f g hf hg
    have hbelow : topScope p.root (w.thread.frames.drop (k + 1)) = g.scope := by
      obtain ⟨hlt, rfl⟩ := List.getElem?_eq_some_iff.1 hg
      rw [List.drop_eq_getElem_cons hlt]
      rfl
    rw [hst.linked (hsplit k f hf), hbelow]
  · intro name a n hname ha
    -- the links lead down the stack, and from the last frame to the outermost scope
    have hlinks : (p.machine w).scopes.ancestor? (p.machine w).currentScope n =
        (scopesOutwards p.root w.thread.frames)[n]? := by
      rw [Machine.currentScope_eq]
      exact hst.ancestor?_eq h.parent?_root n
    have hframe : ∀ f, w.thread.frames[n]? = some f → (p.machine w).Resolves name a f.scope :=
      fun f hf => Machine.resolves_of_ancestor hname ha (hlinks.trans (scopesOutwards_frame hf))
    have houtermost : n = (p.machine w).depth → (p.machine w).Resolves name a p.root := by
      rintro rfl
      exact Machine.resolves_of_ancestor hname ha (hlinks.trans scopesOutwards_length)
    have hbeyond : (p.machine w).depth < n → (p.machine w).Overshoots name n :=
      fun hn => Machine.overshoots_of_ancestor hname ha (hlinks.trans (scopesOutwards_beyond hn))
    have hwithin : ¬ (p.machine w).depth < n → ∃ scope, (p.machine w).Resolves name a scope := by
      intro hn
      rcases Nat.lt_or_eq_of_le (not_lt.1 hn) with hlt | heq
      · exact ⟨_, hframe _ (List.getElem?_eq_getElem hlt)⟩
      · exact ⟨_, houtermost heq⟩
    refine ⟨hframe, houtermost, hbeyond, ?_, ?_, ?_⟩
    · refine ⟨fun hlacks => by_contra fun hn => ?_, fun hn => (hbeyond hn).lacks_read⟩
      obtain ⟨scope, hr⟩ := hwithin hn
      exact hr.not_lacks_read hlacks
    · refine fun v => ⟨fun hlacks => by_contra fun hn => ?_, fun hn => (hbeyond hn).lacks_save v⟩
      obtain ⟨scope, hr⟩ := hwithin hn
      exact hr.not_lacks_save v hlacks
    · refine ⟨fun hlacks => by_contra fun hn => ?_, fun hn => (hbeyond hn).lacks_delete⟩
      obtain ⟨scope, hr⟩ := hwithin hn
      exact hr.not_lacks_delete hlacks

/-- For the copy of the thread in the loop: it has two frames, so that two links lead to the outermost scope
and three nowhere. -/
theorem chain_mirrors_stack_midLoop :
    ∃ w ∈ midLoop.workers, w.loops = [] ∧ midLoop.scopes.parent? ⟨2, 0⟩ = some ⟨1, 0⟩ ∧
      midLoop.scopes.parent? ⟨1, 0⟩ = some midLoop.root ∧
      (midLoop.machine w).Resolves "1:x" ⟨.ancestor 1, "", "x", none, true⟩ ⟨1, 0⟩ ∧
      (midLoop.machine w).Resolves "2:x.y" ⟨.ancestor 2, "", "x", some "y", true⟩ midLoop.root ∧
      (midLoop.machine w).Overshoots "3:x" 3 := by
  let w := World.new (Store.ofProperties []) (Request.new [] none) ()
  let m := (w.enter.push "LOOP" [] []).disown.push "STEP" [] []
  let copy : Worker Unit := ⟨m.fork.2, []⟩
  let loop : Driver := ⟨0, ⟨"LOOP", 0, [], ⟨1, 0⟩, false, false, 0⟩⟩
  have hworkers : midLoop.workers = copy ::ₘ ⟨m.thread, [loop]⟩ ::ₘ 0 := rfl
  have hcopy : copy ∈ midLoop.workers := hworkers ▸ Multiset.mem_cons_self copy _
  obtain ⟨hlast, hnext, hnames⟩ := chain_mirrors_stack midLoop_reachable hcopy
  have hone : Address.parse "1:x".toList = .ok ⟨.ancestor 1, "", "x", none, true⟩ := by decide +kernel
  have htwo : Address.parse "2:x.y".toList = .ok ⟨.ancestor 2, "", "x", some "y", true⟩ := by decide +kernel
  have hthree : Address.parse "3:x".toList = .ok ⟨.ancestor 3, "", "x", none, true⟩ := by decide +kernel
  refine ⟨copy, hcopy, rfl, hnext 0 _ _ rfl rfl, hlast _ rfl, ?_, ?_, ?_⟩
  · exact (hnames _ _ 1 hone rfl).1 _ rfl
  · exact (hnames _ _ 2 htwo rfl).2.1 rfl
  · exact (hnames _ _ 3 hthree rfl).2.2.1 (by decide)

end Pool
end Sequencer
