import Sequencer.Engine
import Sequencer.Proofs.LoopNeutral
import Sequencer.Proofs.Moments

/-!
# Where no break is pending

A break is pending from the moment it is made until its loop takes it. Until then nothing is fetched: the break has
brought all frames to their ends that the cycle could still run. So no break is ever pending where an instruction
is about to run, and none is left when one has failed.
-/

namespace Sequencer

variable {σ : Type}

namespace Machine

variable {m n : Machine σ} {level : Nat}

/-! ## The states of a cycle

A cycle with a break pending has nothing left to fetch above its level. The states in which it can be say where the
mark was made. -/

/-- A cycle goes on: no break is pending, and there is no loop above its level. -/
structure Going (level : Nat) (m : Machine σ) : Prop where
  breakAt : m.thread.breakAt = none
  looping : ∀ f rest, f :: rest <:+ m.frames → level < rest.length → f.looping = false

/-- The states in which a cycle from a level upwards can be. -/
inductive InCycle (level : Nat) (m : Machine σ) : Prop
  | going (h : Going level m)
  /-- After a break, or the return of a frame that loops: no frame fetches anything more. -/
  | ending (he : ∀ f rest, f :: rest <:+ m.frames → level ≤ rest.length → f.exhausted = true)
  | stopped (ha : m.aborted = true)

theorem InCycle.congr (h : InCycle level m) (hf : n.frames = m.frames) (hb : n.thread.breakAt = m.thread.breakAt)
    (ha : m.aborted = true → n.aborted = true) : InCycle level n := by
  cases h with
  | going h => exact .going ⟨hb.trans h.breakAt, hf ▸ h.looping⟩
  | ending he => exact .ending (hf ▸ he)
  | stopped ha' => exact .stopped (ha ha')

namespace Going

/-- A cycle begins with one frame of its own at most. -/
theorem of_depth_le (hb : m.thread.breakAt = none) (hd : m.depth ≤ level + 1) : Going level m := by
  refine ⟨hb, fun f rest hsuf hlt => ?_⟩
  have hle : rest.length + 1 ≤ m.depth := hsuf.length_le
  omega

/-- Fewer frames. -/
theorem suffix (h : Going level m) (hf : n.frames <:+ m.frames) (hb : n.thread.breakAt = m.thread.breakAt) :
    Going level n :=
  ⟨hb.trans h.breakAt, fun f rest hsuf => h.looping f rest (hsuf.trans hf)⟩

theorem congr (h : Going level m) (hf : n.frames = m.frames) (hb : n.thread.breakAt = m.thread.breakAt) :
    Going level n := h.suffix (hf ▸ List.suffix_rfl) hb

/-- Another frame on top, as long as it does not loop. -/
theorem cons (h : Going level m) {f : Frame} {rest : List Frame} (hf : n.frames = f :: rest) (hr : rest <:+ m.frames)
    (hl : level < rest.length → f.looping = false) (hb : n.thread.breakAt = m.thread.breakAt) : Going level n := by
  refine ⟨hb.trans h.breakAt, fun g below hsuf hlt => ?_⟩
  rw [hf] at hsuf
  rcases List.suffix_cons_iff.1 hsuf with he | hsuf
  · cases he
    exact hl hlt
  · exact h.looping g below (hsuf.trans hr) hlt

/-- Fetching leaves a cycle going. -/
theorem fetch (h : Going level m) {l : Nat} {step : Step} (hs : m.nextStep l = (n, step)) : Going level n := by
  cases nextStep_cases hs with
  | drained hd => exact h
  | exhausted hd hf he => exact h
  | @advanced f rest _ _ hd hf he hq hne =>
    have hrest : rest <:+ m.frames := hf ▸ List.suffix_cons f rest
    exact h.cons hq.frames hrest (h.looping f rest (hf ▸ List.suffix_rfl)) hq.breakAt

theorem neutral (h : Going level m) (hn : Neutral m n) : InCycle level n := by
  cases ha : n.aborted with
  | false => exact .going (h.congr hn.frames ((hn.breakAt ha).trans h.breakAt.symm))
  | true => exact .stopped ha

end Going

/-- A return takes no more than the active frame off, and breaks nothing. -/
theorem suffix_returnFrame (m : Machine σ) (explicit : Option (List String)) :
    (m.returnFrame explicit).1.frames <:+ m.frames ∧
      (m.returnFrame explicit).1.thread.breakAt = m.thread.breakAt := by
  cases hf : m.frames with
  | nil =>
    rw [returnFrame_nil hf]
    exact ⟨hf ▸ List.suffix_rfl, rfl⟩
  | cons f rest =>
    obtain ⟨o, hq, he⟩ := returnFrame_eq hf explicit
    rw [frames_returnFrame hf explicit, he]
    exact ⟨List.suffix_cons f rest, hq.breakAt⟩

/-- A frame that a cycle could run, while it is ending. -/
theorem exhausted_top (he : ∀ f rest, f :: rest <:+ m.frames → level ≤ rest.length → f.exhausted = true) {f : Frame}
    {rest : List Frame} (hf : m.frames = f :: rest) (hd : level < m.depth) : f.exhausted = true := by
  exact he f rest (hf ▸ List.suffix_rfl) (le_length_of_lt_depth hf hd)

namespace InCycle

/-- Where there is still an instruction to run, the cycle goes on. -/
theorem instruction (h : InCycle level m) (ha : m.aborted = false) {key text : String}
    (hs : m.nextStep level = (n, .instruction key text)) : Going level n := by
  cases h with
  | going h => exact h.fetch hs
  | ending hex =>
    cases nextStep_cases hs with
    | advanced hd hf he hq hne =>
      rw [exhausted_top hex hf hd] at he
      cases he
  | stopped ha' =>
    rw [ha] at ha'
    cases ha'

/-- The return of an exhausted frame leads from each state to one of them. -/
theorem exhausted (h : InCycle level m) (ha : m.aborted = false) (hs : m.nextStep level = (n, .exhausted)) :
    InCycle level (n.returnFrame none).1 := by
  obtain ⟨hsuf, hb⟩ := suffix_returnFrame n none
  cases h with
  | going h => exact .going ((h.fetch hs).suffix hsuf hb)
  | ending hex =>
    cases nextStep_cases hs with
    | exhausted hd hf he => exact .ending fun f rest hr => hex f rest (hr.trans hsuf)
    | advanced hd hf he hq hne =>
      rw [exhausted_top hex hf hd] at he
      cases he
  | stopped ha' =>
    rw [ha] at ha'
    cases ha'

end InCycle

/-! ## One step of a cycle

Each step of the cycle leads from one of these states to another. -/

/-- What a break leaves on the stack from its loop upwards has come to its end. -/
theorem exhausted_of_breakInnermost {fs gs : List Frame} {i : Nat} (h : breakInnermost fs = some (gs, i))
    (hl : ∀ f rest, f :: rest <:+ fs → level < rest.length → f.looping = false) :
    ∀ f rest, f :: rest <:+ gs → level ≤ rest.length → f.exhausted = true := by
  induction fs generalizing gs with
  | nil => cases h
  | cons g below ih =>
    intro f rest hsuf hle
    unfold breakInnermost at h
    -- The innermost loop is at this frame, or further down.
    split_ifs at h with hloop
    · cases h
      rcases List.suffix_cons_iff.1 hsuf with he | hsuf
      · cases he
        rfl
      · -- The loop is no further up than at the level, and this frame is below it.
        have hlt : ¬level < below.length := fun hlt => by
          rw [hl g below List.suffix_rfl hlt] at hloop
          cases hloop
        have hlen := hsuf.length_le
        rw [List.length_cons] at hlen
        omega
    · obtain ⟨⟨gs', j⟩, hb, he⟩ := Option.map_eq_some_iff.1 h
      cases he
      rcases List.suffix_cons_iff.1 hsuf with he | hsuf
      · cases he
        rfl
      · exact ih hb (fun f' rest' hs => hl f' rest' (hs.trans (List.suffix_cons g below))) f rest hsuf hle

namespace Going

theorem breakLoop (h : Going level m) : InCycle level m.breakLoop.1 := by
  unfold Machine.breakLoop
  split
  · next hb => exact .ending (exhausted_of_breakInnermost hb h.looping)
  · exact .going h

/-- An early return either leaves a loop further down going, or ends the cycle of the loop itself. -/
theorem returnEarly (h : Going level m) (explicit : Option (List String)) :
    InCycle level (m.returnEarly explicit).1 := by
  cases hf : m.frames with
  | nil =>
    unfold Machine.returnEarly
    rw [hf]
    obtain ⟨hsuf, hb⟩ := suffix_returnFrame m explicit
    exact .going (h.suffix hsuf hb)
  | cons f rest =>
    obtain ⟨o, hq, he⟩ := returnEarly_cons hf explicit
    have hframes : o.frames = rest := hq.frames
    rw [he]
    cases hl : f.looping with
    | true =>
      -- A return out of a loop is only possible at the level of the cycle or below, and everything there is at its
      -- end.
      refine .ending fun g below hsuf hle => ?_
      have hlen : below.length < rest.length := hframes ▸ hsuf.length_le
      rw [h.looping f rest (hf ▸ List.suffix_rfl) (hle.trans_lt hlen)] at hl
      cases hl
    | false =>
      rw [hl] at hq
      exact .going (h.suffix (hf ▸ hframes ▸ List.suffix_cons f _) hq.breakAt)

theorem attempted {ok : Bool} (h : Going level m) (ha : Attempted m n ok) : InCycle level n := by
  cases ha with
  | kept hq hb hj => exact .going (h.congr hq.frames hq.breakAt)
  | called hq action results params =>
    exact .going ((h.congr hq.frames hq.breakAt).cons rfl List.suffix_rfl (fun _ => rfl) rfl)
  | returned hq explicit => exact (h.congr hq.frames hq.breakAt).returnEarly explicit
  | broke => exact h.breakLoop

end Going

/-! ## Attempts that fail

A command that fails has not broken anything. -/

theorem Performs.neutral {e : Engine σ} {invocation : Invocation σ} (h : Performs e m invocation n false)
    (hb : m.thread.breakAt = none) : Neutral m n := by
  generalize hok : false = ok at h
  cases h with
  | immediate hi => exact (immediate_cases (hok ▸ hi)).neutral hb
  | refused hl =>
    have he := entered_cases hl
    exact ⟨he.stays, fun _ => he.breakAt.trans hb⟩
  | looped hl run =>
    have he := entered_cases hl
    obtain ⟨f, hf, -, hlooping⟩ := he.frame
    obtain ⟨hframes, hbreak⟩ := run.neutral hf hlooping (he.breakAt.trans hb)
    exact ⟨hframes, hbreak⟩

/-! ## Instructions of a cycle

What an instruction comes to in such a cycle is again one of these states. -/

variable {e : Engine σ}

theorem Performs.inCycle {invocation : Invocation σ} {ok : Bool} (h : Performs e m invocation n ok)
    (hm : Going level m) : InCycle level n := by
  cases h with
  | immediate hi => exact hm.attempted (immediate_cases hi)
  | refused hl => exact hm.neutral (Performs.neutral (.refused hl : Performs e m _ n false) hm.breakAt)
  | looped hl run =>
    have he := entered_cases hl
    obtain ⟨f, hf, -, hlooping⟩ := he.frame
    obtain ⟨hframes, hbreak⟩ := run.neutral hf hlooping (he.breakAt.trans hm.breakAt)
    exact hm.neutral ⟨hframes, hbreak⟩

theorem Attempts.inCycle : ∀ {m : Machine σ} {invocation : Invocation σ} {key : String} {pause total : Int64}
    {n : Machine σ} {ok : Bool}, Attempts e m invocation key pause total n ok → Going level m → InCycle level n
  | _, _, _, _, _, _, _, .spent _, h => .going h
  | _, _, _, _, _, _, _, .succeeded _ run, h => run.inCycle (h.congr rfl rfl)
  | _, _, _, _, _, _, _, .gaveUp _ run _, h => run.inCycle (h.congr rfl rfl)
  | _, _, _, _, _, _, _, .retried _ run hl rest, h => by
    have hn := run.neutral h.breakAt
    have hb := hn.breakAt (not_aborted_of_lastAttempt hl)
    exact rest.inCycle (h.congr hn.frames (hb.trans h.breakAt.symm))

theorem Dispatches.inCycle {c : Command σ} {i : Instruction} {key : String} {ok : Bool}
    (h : Dispatches e m c i key n ok) (hm : Going level m) : InCycle level n := by
  cases h with
  | unprepared hp => exact .going (hm.congr (quiet_prepare hp).frames (quiet_prepare hp).breakAt)
  | prepared hp run => exact run.inCycle (hm.congr (quiet_prepare hp).frames (quiet_prepare hp).breakAt)

end Machine

/-! ## Whole runs

No run starts with a break pending, so that none ever dispatches with one. -/

namespace Moment

open Machine

variable {e : Engine σ} {s t : Moment σ}

/-- No break is pending but one that ends the cycle at work. -/
def Unbroken : Moment σ → Prop
  | .cycle m level => m.InCycle level
  | .runCycle m level => m.InCycle level
  | .dispatch m _ _ _ => m.thread.breakAt = none
  | .attempts m _ _ _ _ => m.thread.breakAt = none
  | .perform m _ => m.thread.breakAt = none
  | .drive m _ => ∃ f below, m.frames = f :: below ∧ f.looping = true ∧ m.thread.breakAt = none
  | .passes m _ f => ∃ g below, m.frames = g :: below ∧ g.looping = true ∧ f.looping = true ∧ m.thread.breakAt = none
  | .between m _ f => ∃ g below, m.frames = g :: below ∧ g.looping = true ∧ f.looping = true ∧ m.thread.breakAt = none
  | .join _ _ => True
  | .job _ _ => True

theorem Next.unbroken (h : s.Next e t) (hs : s.Unbroken) : t.Unbroken := by
  -- no break is pending before, so that one is only ever made by the step itself
  cases h with
  | exhausted ha hf => exact InCycle.exhausted hs ha hf
  | forked ha hf hd hp =>
    have hgoing := InCycle.instruction hs ha hf
    exact .going (hgoing.congr rfl rfl)
  | dispatched ha hf hd hp => exact (InCycle.instruction hs ha hf).breakAt
  | advanced ha hf hd hp step hgo => exact step.inCycle (InCycle.instruction hs ha hf)
  | opened => exact InCycle.congr hs rfl rfl id
  | joined run => trivial
  | prepared hp => exact (quiet_prepare hp).breakAt.trans hs
  | tried ht => exact hs
  -- what is tried again has failed, and so has broken nothing
  | retried ht run hl => exact (run.neutral hs).breakAt (not_aborted_of_lastAttempt hl)
  | looped hl =>
    have he := entered_cases hl
    obtain ⟨f, hf, -, hlooping⟩ := he.frame
    exact ⟨f, _, hf, hlooping, he.breakAt.trans hs⟩
  | @driven m _ _ _ hf =>
    obtain ⟨f, below, hm, hlooping, hb⟩ := hs
    rw [disown_of_cons hm] at hf ⊢
    cases hf
    exact ⟨_, _, rfl, hlooping, hlooping, hb⟩
  | passed hb =>
    obtain ⟨g, below, hm, -, -, hnone⟩ := hs
    have hq := quiet_beforePass hb
    have hd := hq.calm.depth
    exact .going (.of_depth_le (hq.breakAt.trans hnone) (by omega))
  -- the body may have broken its loop, but then there is no next pass
  | put hb run ht =>
    obtain ⟨g, below, hm, hg, hf, hnone⟩ := hs
    obtain ⟨ho, -, hgoing⟩ := run.inLoop (depth_pred_of_core hm rfl) (.beforePass hm hg hnone hb)
    rw [depth_pred_of_core hm rfl] at ht
    obtain ⟨-, hnone'⟩ := ho.unbroken (hgoing rfl) ht
    exact ⟨_, _, rfl, hf, hf, hnone'⟩
  | again hn =>
    obtain ⟨g, below, hm, hg, hf, hnone⟩ := hs
    have hq := quiet_afterPass hn
    exact ⟨g, below, hq.frames.trans hm, hg, hf, hq.breakAt.trans hnone⟩
  | begun hj => trivial
  | waited hj run => trivial
  | copied hc => rfl
  -- a copy begins without a mark
  | called hc step hgo => exact step.inCycle (.of_depth_le rfl (Nat.le_succ _))

/-- The run of an action for a request begins with no break pending. -/
theorem unbroken_start (w : World σ) (action : String) (results : List String) (params : Table Value) :
    (Moment.runCycle (w.enter.push action results params) 0).Unbroken := .going (.of_depth_le rfl le_rfl)

theorem Unbroken.later (hs : s.Unbroken) (h : Relation.ReflTransGen (Next e) s t) : t.Unbroken := by
  induction h with
  | refl => exact hs
  | tail _ hnext ih => exact hnext.unbroken ih

/-- Where an instruction is about to run, no break is pending. -/
theorem Unbroken.breakAt_eq_none {m : Machine σ} {c : Command σ} {i : Instruction} {key : String} (hs : s.Unbroken)
    (h : Relation.ReflTransGen (Next e) s (.dispatch m c i key)) : m.thread.breakAt = none := hs.later h

/-- Nor is one where its command is tried, for the first time or again. -/
theorem Unbroken.breakAt_of_perform {m : Machine σ} {invocation : Invocation σ} (hs : s.Unbroken)
    (h : Relation.ReflTransGen (Next e) s (.perform m invocation)) : m.thread.breakAt = none := hs.later h

end Moment

/-- A run of an action dispatches all of its instructions with no break pending, on whichever thread, and tries their
commands so. What holds of loops and of instructions on the side that begin without one holds of all that there are in
runs. -/
theorem Engine.unbroken_at_work (e : Engine σ) (w : World σ) (action : String) :
    (∀ m c i key, Relation.ReflTransGen (Moment.Next e)
        (.runCycle (w.enter.push action (splitNames actionResult) []) 0) (.dispatch m c i key) →
      m.thread.breakAt = none) ∧
    ∀ m invocation, Relation.ReflTransGen (Moment.Next e)
        (.runCycle (w.enter.push action (splitNames actionResult) []) 0) (.perform m invocation) →
      m.thread.breakAt = none := by
  have hs := Moment.unbroken_start w action (splitNames actionResult) []
  exact ⟨fun _ _ _ _ h => hs.breakAt_eq_none h, fun _ _ h => hs.breakAt_of_perform h⟩

end Sequencer
