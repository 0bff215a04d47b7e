import Sequencer.Proofs.Schedule

/-!
# One loop for all calls

A cycle is a flat loop over the stack. Calls are frames on it, and no call waits for the result of another
cycle. All the same a cycle does what a recursive interpreter would do: run the frames above any level to
their ends, and then go on from there. Fetching is the only place that looks at the level, and it only
asks whether a frame is left above it.
-/

namespace Sequencer
namespace Machine

variable {σ : Type}

/-! ## Taking a cycle apart

A cycle down to a lower level comes by each level in between, so that it can be cut there. -/

/-- Where no frame is above the upper level, there is nothing to run first. -/
theorem Cycles.split_of_le {e : Engine σ} {m n : Machine σ} {lower upper : Nat} {ok : Bool}
    (h : Cycles e m lower n ok) (hd : m.depth ≤ upper) :
    ∃ n' ok', Cycles e m upper n' ok' ∧
      if ok' then Cycles e n' lower n ok else n = n' ∧ ok = false := by
  cases ha : m.aborted with
  | false => exact ⟨m, true, .drained ha (nextStep_of_le hd), h⟩
  | true =>
    -- Whatever else the cycle could do begins with a request that is not aborted.
    cases h with
    | aborted => exact ⟨m, false, .aborted ha, rfl, rfl⟩
    | drained ha' => rw [ha] at ha'; cases ha'
    | exhausted ha' => rw [ha] at ha'; cases ha'
    | undecodable ha' => rw [ha] at ha'; cases ha'
    | forked ha' => rw [ha] at ha'; cases ha'
    | dispatched ha' => rw [ha] at ha'; cases ha'
    | failed ha' => rw [ha] at ha'; cases ha'

/-- A fetch above the upper level is the same fetch for the lower one. -/
theorem nextStep_upper {m : Machine σ} {lower upper : Nat} (hle : lower ≤ upper) (hd : ¬m.depth ≤ upper) :
    m.nextStep upper = m.nextStep lower :=
  nextStep_of_lt (Nat.lt_of_not_le hd) (hle.trans_lt (Nat.lt_of_not_le hd))

theorem nextStep_lower {m n : Machine σ} {lower upper : Nat} {step : Step} (hle : lower ≤ upper)
    (hs : m.nextStep upper = (n, step)) (hne : step ≠ .drained) : m.nextStep lower = (n, step) := by
  rw [← hs]
  by_cases hd : m.depth ≤ upper
  · rw [nextStep_of_le hd] at hs
    cases hs
    exact absurd rfl hne
  · exact (nextStep_upper hle hd).symm

theorem Cycles.split {e : Engine σ} : ∀ {m : Machine σ} {lower : Nat} {n : Machine σ} {ok : Bool},
    Cycles e m lower n ok → ∀ {upper : Nat}, lower ≤ upper →
      ∃ n' ok', Cycles e m upper n' ok' ∧ if ok' then Cycles e n' lower n ok else n = n' ∧ ok = false
  | m, _, _, _, .aborted ha, _, _ => ⟨m, false, .aborted ha, rfl, rfl⟩
  | m, _, _, _, .drained ha hs, upper, hle => by
    cases nextStep_cases hs with
    | drained hd => exact (Cycles.drained ha hs).split_of_le (hd.trans hle)
    | advanced _ _ _ _ hne => exact absurd rfl hne
  | m, _, _, _, .exhausted ha hs rest, upper, hle => by
    -- As long as there are frames above the upper level, both cycles take the same step; then the upper one is
    -- done.
    by_cases hd : m.depth ≤ upper
    · exact (Cycles.exhausted ha hs rest).split_of_le hd
    · obtain ⟨n', ok', h, h'⟩ := rest.split hle
      exact ⟨n', ok', .exhausted ha ((nextStep_upper hle hd).trans hs) h, h'⟩
  | m, _, n, _, .undecodable ha hs hdec, upper, hle => by
    by_cases hd : m.depth ≤ upper
    · exact (Cycles.undecodable ha hs hdec).split_of_le hd
    · exact ⟨n, false, .undecodable ha ((nextStep_upper hle hd).trans hs) hdec, rfl, rfl⟩
  | m, _, _, _, .forked ha hs hdec hp rest, upper, hle => by
    by_cases hd : m.depth ≤ upper
    · exact (Cycles.forked ha hs hdec hp rest).split_of_le hd
    · obtain ⟨n', ok', h, h'⟩ := rest.split hle
      exact ⟨n', ok', .forked ha ((nextStep_upper hle hd).trans hs) hdec hp h, h'⟩
  | m, _, _, _, .dispatched ha hs hdec hp step hgo rest, upper, hle => by
    by_cases hd : m.depth ≤ upper
    · exact (Cycles.dispatched ha hs hdec hp step hgo rest).split_of_le hd
    · obtain ⟨n', ok', h, h'⟩ := rest.split hle
      exact ⟨n', ok', .dispatched ha ((nextStep_upper hle hd).trans hs) hdec hp step hgo h, h'⟩
  | m, _, n, _, .failed ha hs hdec hp step hstop, upper, hle => by
    by_cases hd : m.depth ≤ upper
    · exact (Cycles.failed ha hs hdec hp step hstop).split_of_le hd
    · exact ⟨n, false, .failed ha ((nextStep_upper hle hd).trans hs) hdec hp step hstop, rfl, rfl⟩

/-! ## Putting a cycle together

Where one cycle has ended with success, another one may go on to a lower level. -/

/-- What runs above the upper level and then from where that ended runs above the lower level. -/
theorem Cycles.append {e : Engine σ} : ∀ {m : Machine σ} {upper : Nat} {n' : Machine σ} {ok' : Bool},
    Cycles e m upper n' ok' → ∀ {lower : Nat} {n : Machine σ} {ok : Bool}, lower ≤ upper →
      (if ok' then Cycles e n' lower n ok else n = n' ∧ ok = false) → Cycles e m lower n ok
  | _, _, _, _, .aborted ha, _, _, _, _, ⟨rfl, rfl⟩ => .aborted ha
  | m, _, _, _, .drained ha hs, lower, n, ok, hle, h' => by
    cases nextStep_cases hs with
    -- The upper cycle is done here, and the lower one goes on.
    | drained hd => exact h'
    | advanced _ _ _ _ hne => exact absurd rfl hne
  | m, upper, _, _, .exhausted ha hs rest, _, _, _, hle, h' =>
    .exhausted ha (nextStep_lower hle hs (by simp)) (rest.append hle h')
  | m, _, _, _, .undecodable ha hs hdec, _, _, _, hle, ⟨rfl, rfl⟩ =>
    .undecodable ha (nextStep_lower hle hs (by simp)) hdec
  | m, _, _, _, .forked ha hs hdec hp rest, _, _, _, hle, h' =>
    .forked ha (nextStep_lower hle hs (by simp)) hdec hp (rest.append hle h')
  | m, _, _, _, .dispatched ha hs hdec hp step hgo rest, _, _, _, hle, h' =>
    .dispatched ha (nextStep_lower hle hs (by simp)) hdec hp step hgo (rest.append hle h')
  | m, _, _, _, .failed ha hs hdec hp step hstop, _, _, _, hle, ⟨rfl, rfl⟩ =>
    .failed ha (nextStep_lower hle hs (by simp)) hdec hp step hstop

/-! ## Where a cycle ends

A cycle that has ended without failing is down at its level. -/

/-- A cycle that succeeds has drained the stack down to its level. -/
theorem Cycles.depth_le {e : Engine σ} : ∀ {m : Machine σ} {level : Nat} {n : Machine σ} {ok : Bool},
    Cycles e m level n ok → ok = true → n.depth ≤ level
  | _, _, _, _, .aborted _, hok => by cases hok
  | _, _, _, _, .undecodable _ _ _, hok => by cases hok
  | _, _, _, _, .failed _ _ _ _ _ _, hok => by cases hok
  | m, _, _, _, .drained _ hs, _ => by
    cases nextStep_cases hs with
    | drained hd => exact hd
    | advanced _ _ _ _ hne => exact absurd rfl hne
  | _, _, _, _, .exhausted _ _ rest, hok => rest.depth_le hok
  | _, _, _, _, .forked _ _ _ _ rest, hok => rest.depth_le hok
  | _, _, _, _, .dispatched _ _ _ _ _ _ rest, hok => rest.depth_le hok

/-- Only a request that is not aborted lets a cycle succeed. -/
theorem Cycles.not_aborted {e : Engine σ} : ∀ {m : Machine σ} {level : Nat} {n : Machine σ} {ok : Bool},
    Cycles e m level n ok → ok = true → n.aborted = false
  | _, _, _, _, .aborted _, hok => nomatch hok
  | _, _, _, _, .drained ha hs, _ => by
    cases nextStep_cases hs with
    | drained _ => exact ha
    | advanced _ _ _ _ hne => exact absurd rfl hne
  | _, _, _, _, .exhausted _ _ rest, hok => rest.not_aborted hok
  | _, _, _, _, .undecodable _ _ _, hok => nomatch hok
  | _, _, _, _, .forked _ _ _ _ rest, hok => rest.not_aborted hok
  | _, _, _, _, .dispatched _ _ _ _ _ _ rest, hok => rest.not_aborted hok
  | _, _, _, _, .failed _ _ _ _ _ _, hok => nomatch hok

/-- A cycle leaves what is below its level standing. -/
theorem Cycles.rests {e : Engine σ} : ∀ {m : Machine σ} {level : Nat} {n : Machine σ} {ok : Bool},
    Cycles e m level n ok → ∀ {base : List Frame}, base.length = level → RestsOn m.frames base →
      RestsOn n.frames base
  | _, _, _, _, .aborted _, _, _, hb => hb
  | m, _, _, _, .drained _ hs, _, _, hb => by
    cases nextStep_cases hs with
    | drained hd => exact hb
    | advanced _ _ _ _ hne => exact absurd rfl hne
  | m, _, _, _, @Cycles.exhausted _ _ _ _ n _ _ _ hs rest, base, hlen, hb => by
    obtain ⟨hc, -, hd⟩ := nextStep_calm hs (by simp)
    -- What returns is above the level, and so above the frames that have to stay.
    have hfloor : base.length ≤ n.depth - 1 := hlen.trans_le (Nat.le_sub_one_of_lt hd)
    have ht : Turn base.length n [] (n.returnFrame none).1 [] := .returnFrame none hfloor
    exact rest.rests hlen (ht.rests le_rfl (hb.congr hc.frames))
  | m, _, _, _, .undecodable _ hs _, base, _, hb => by
    obtain ⟨hc, -, -⟩ := nextStep_calm hs (by simp)
    exact hb.congr hc.frames
  | m, _, _, _, .forked _ hs _ _ rest, base, hlen, hb => by
    obtain ⟨hc, -, -⟩ := nextStep_calm hs (by simp)
    exact rest.rests hlen (hb.congr hc.frames)
  | m, _, _, _, .dispatched _ hs _ _ step _ rest, base, hlen, hb => by
    obtain ⟨hc, -, hd⟩ := nextStep_calm hs (by simp)
    have hfloor : base.length ≤ _ - 1 := hlen.trans_le (Nat.le_sub_one_of_lt hd)
    exact rest.rests hlen (step.leads (.of_rests (hb.congr hc.frames)) hfloor).1.stance.rests
  | m, _, _, _, .failed _ hs _ _ step _, base, hlen, hb => by
    obtain ⟨hc, -, hd⟩ := nextStep_calm hs (by simp)
    have hfloor : base.length ≤ _ - 1 := hlen.trans_le (Nat.le_sub_one_of_lt hd)
    exact (step.leads (.of_rests (hb.congr hc.frames)) hfloor).1.stance.rests

/-- A cycle with a barrier of its own ends at its level if it succeeds, and at or above it if it fails. -/
theorem RunsCycle.depth {e : Engine σ} {m n : Machine σ} {level : Nat} {ok : Bool}
    (h : RunsCycle e m level n ok) (hd : level ≤ m.depth) :
    (ok = true → n.depth = level) ∧ (ok = false → level ≤ n.depth) := by
  obtain ⟨base, hlen, hb⟩ := exists_base hd
  cases h with
  | @closed _ _ o ok' p _ run jobs =>
    obtain ⟨hframes, -⟩ := jobs.stack
    have hle : level ≤ p.frames.length := by
      rw [← hlen, hframes]
      exact (run.rests hlen hb).length_le
    refine ⟨fun hok => Nat.le_antisymm ?_ hle, fun _ => hle⟩
    obtain ⟨rfl, -⟩ := Bool.and_eq_true_iff.1 hok
    show p.frames.length ≤ level
    rw [hframes]
    exact run.depth_le rfl

/-- What was called runs to its own end: when the frames above a stack are done, the stack is as it was, but
for what a break has marked. -/
theorem Cycles.core_of_push {e : Engine σ} {m n : Machine σ} {action : String} {results : List String}
    {params : Table Value} (h : Cycles e (m.push action results params) m.depth n true) :
    n.frames.map Frame.core = m.frames.map Frame.core := by
  have hr : RestsOn n.frames m.frames := h.rests rfl ((RestsOn.refl m.frames).cons _)
  have hle := h.depth_le rfl
  refine (List.IsSuffix.eq_of_length hr ?_).symm
  rw [List.length_map, List.length_map]
  exact Nat.le_antisymm hr.length_le hle

/-! ## The whole picture

A call, run to its own end, and the rest of the caller behind it. -/

/-- The flat loop is a recursive interpreter. A cycle does what a cycle from a higher level does, and then, if
that succeeds, what a cycle from there does. If the frame above the higher level was called, the called
action has then run to its end, and its caller is on top again. And a cycle ends at its level, or above
it if it fails. -/
theorem cycle_recursive (e : Engine σ) (m : Machine σ) (lower : Nat) :
    (∀ upper r, lower ≤ upper → ((∃ fuel, cycle e fuel m lower = some r) ↔
      ∃ n ok, (∃ fuel, cycle e fuel m upper = some (n, ok)) ∧
        if ok then ∃ fuel, cycle e fuel n lower = some r else r = (n, false))) ∧
    (∀ action results params r, lower ≤ m.depth →
      ((∃ fuel, cycle e fuel (m.push action results params) lower = some r) ↔
      ∃ n ok, (∃ fuel, cycle e fuel (m.push action results params) m.depth = some (n, ok)) ∧
        (ok = true → n.frames.map Frame.core = m.frames.map Frame.core) ∧
        if ok then ∃ fuel, cycle e fuel n lower = some r else r = (n, false))) ∧
    ∀ fuel n ok, lower ≤ m.depth → runCycle e fuel m lower = some (n, ok) →
      (ok = true → n.depth = lower) ∧ (ok = false → lower ≤ n.depth) := by
  -- a cycle down to a level is one down to any level above, and from there another
  have split : ∀ (m : Machine σ) upper r, lower ≤ upper → ((∃ fuel, cycle e fuel m lower = some r) ↔
      ∃ n ok, (∃ fuel, cycle e fuel m upper = some (n, ok)) ∧
        if ok then ∃ fuel, cycle e fuel n lower = some r else r = (n, false)) := by
    rintro m upper ⟨o, ok⟩ hle
    rw [cycle_iff]
    constructor
    · intro h
      obtain ⟨n, ok', h', hrest⟩ := h.split hle
      refine ⟨n, ok', cycle_iff.2 h', ?_⟩
      cases ok' with
      | true => exact cycle_iff.2 hrest
      | false => exact Prod.ext hrest.1 hrest.2
    · rintro ⟨n, ok', h', hrest⟩
      refine (cycle_iff.1 h').append hle ?_
      cases ok' with
      | true => exact cycle_iff.1 hrest
      | false => exact ⟨congrArg Prod.fst hrest, congrArg Prod.snd hrest⟩
  refine ⟨split m, ?_, ?_⟩
  · intro action results params r hle
    rw [split _ m.depth r hle]
    constructor
    · rintro ⟨n, ok, h, hrest⟩
      refine ⟨n, ok, h, ?_, hrest⟩
      rintro rfl
      exact (cycle_iff.1 h).core_of_push
    · rintro ⟨n, ok, h, -, hrest⟩
      exact ⟨n, ok, h, hrest⟩
  · intro fuel n ok hle h
    exact (runsCycle_of_runCycle fuel h).depth hle

/-- An engine that can call, with a command of the host program that does nothing. -/
def calling : Engine Unit :=
  ⟨[("call", .builtin .call), ("tick", .host ⟨false, fun _ _ => .ok fun _ => .simple () true⟩)],
    fun _ => .error .notFound⟩

/-- A thread in an activation of an action that calls a last one, as the inner action does that it is to call. -/
def outer : Machine Unit :=
  (World.new (Store.ofProperties
    [("OUTER_1", .str "call:\x7b\"action\":\"LAST\"\x7d"), ("INNER_1", .str "call:\x7b\"action\":\"LAST\"\x7d"),
      ("LAST_1", .str "tick:")]) (Request.new [] none) ()).enter.push "OUTER" [] []

/-- The inner action runs to its end with all that it calls, and then its caller does. -/
theorem cycle_recursive_outer : ∃ r : Machine Unit × Bool,
    r.1.world.journal.count (.prepared 0 "LAST_1") = 2 ∧
    (∃ fuel, cycle calling fuel (outer.push "INNER" [] []) 0 = some r) ∧
    (∃ n ok, (∃ fuel, cycle calling fuel (outer.push "INNER" [] []) 1 = some (n, ok)) ∧
      if ok then ∃ fuel, cycle calling fuel n 0 = some r else r = (n, false)) ∧
    (∃ n ok, (∃ fuel, cycle calling fuel (outer.push "INNER" [] []) outer.depth = some (n, ok)) ∧
      (ok = true → n.frames.map Frame.core = outer.frames.map Frame.core) ∧
      if ok then ∃ fuel, cycle calling fuel n 0 = some r else r = (n, false)) ∧
    ∃ n, runCycle calling 40 outer 0 = some (n, true) ∧ n.depth = 0 := by
  obtain ⟨hsplit, -, -⟩ := cycle_recursive calling (outer.push "INNER" [] []) 0
  obtain ⟨-, hcall, hdepth⟩ := cycle_recursive calling outer 0
  have hinner : (cycle calling 40 (outer.push "INNER" [] []) 0).map
      (fun r => r.1.world.journal.count (.prepared 0 "LAST_1")) = some 2 := by decide +kernel
  have houter : (runCycle calling 40 outer 0).map (·.2) = some true := by decide +kernel
  obtain ⟨r, hr, htwice⟩ := Option.map_eq_some_iff.1 hinner
  obtain ⟨⟨n, ok⟩, hn, hok⟩ := Option.map_eq_some_iff.1 houter
  obtain rfl : ok = true := hok
  refine ⟨r, htwice, ⟨40, hr⟩, (hsplit 1 r (Nat.zero_le 1)).1 ⟨40, hr⟩,
    (hcall "INNER" [] [] r (Nat.zero_le 1)).1 ⟨40, hr⟩, n, hn, ?_⟩
  exact (hdepth 40 n true (Nat.zero_le 1) hn).1 rfl

end Machine
end Sequencer
