import Sequencer.Proofs.Breaks
import Sequencer.Proofs.Footprint
import Sequencer.Proofs.Levels
import Sequencer.Proofs.Splitting

/-!
# The body of a loop, one instruction after the other

What the frame of a loop does in one pass, told without a flat loop over the stack and without marks: it
fetches its next instruction, runs it, and runs what this has called to its own end, until it has no more
instructions, has broken the loop or has returned. This is what a cycle does from the level of the frame,
but that a cycle also takes the frame off the stack at its end.
-/

namespace Sequencer
namespace Machine

variable {σ : Type}

/-! ## Bodies

A body runs to one of a few ends: it has no instructions left, it has failed, it has returned or broken, and what is
left of its frame depends on which. -/

/-- How the body of a loop has ended. -/
inductive Ending where
  /-- It has no more instructions, and its frame is still there. -/
  | finished
  /-- It has broken the loop, or has returned. -/
  | stopped
  | failed
  deriving DecidableEq

/-- Whether an ending is a good one. -/
def Ending.ok : Ending → Bool
  | .failed => false
  | _ => true

/-- Whether the active frame is one that a loop repeats. A break makes it one no longer. -/
def repeating (m : Machine σ) : Bool :=
  match m.frames with
  | f :: _ => f.looping
  | [] => false

/-- The body of a loop whose frame has `level` frames below it, from its next instruction on. -/
inductive Body (e : Engine σ) (level : Nat) : Machine σ → Machine σ → Ending → Prop
  | returned {m} (hd : m.depth ≤ level) : Body e level m m .stopped
  | finished {m n} (hs : m.nextStep level = (n, .exhausted)) (hl : n.repeating = true) : Body e level m n .finished
  /-- After a break the frame returns like any other. -/
  | broke {m n} (hs : m.nextStep level = (n, .exhausted)) (hl : n.repeating = false) :
      Body e level m (n.returnFrame none).1 .stopped
  | undecodable {m n key text} (hs : m.nextStep level = (n, .instruction key text))
      (hd : n.decode e text = none) : Body e level m n .failed
  /-- An instruction on the side is left for later. -/
  | forked {m n key text i c o ending} (hs : m.nextStep level = (n, .instruction key text))
      (hd : n.decode e text = some (i, c)) (hp : (i.parallel && !c.isAsync) = true)
      (rest : Body e level (n.forkInstruction i key) o ending) : Body e level m o ending
  | failed {m n key text i c n' ok} (hs : m.nextStep level = (n, .instruction key text))
      (hd : n.decode e text = some (i, c)) (hp : (i.parallel && !c.isAsync) = false)
      (step : Dispatches e n c i key n' ok) (hstop : (ok || !i.strict) = false) : Body e level m n' .failed
  /-- What an instruction has called fails. -/
  | sunk {m n key text i c n' ok o} (hs : m.nextStep level = (n, .instruction key text))
      (hd : n.decode e text = some (i, c)) (hp : (i.parallel && !c.isAsync) = false)
      (step : Dispatches e n c i key n' ok) (hgo : (ok || !i.strict) = true)
      (called : Cycles e n' (level + 1) o false) : Body e level m o .failed
  | next {m n key text i c n' ok o p ending} (hs : m.nextStep level = (n, .instruction key text))
      (hd : n.decode e text = some (i, c)) (hp : (i.parallel && !c.isAsync) = false)
      (step : Dispatches e n c i key n' ok) (hgo : (ok || !i.strict) = true)
      (called : Cycles e n' (level + 1) o true) (rest : Body e level o p ending) : Body e level m p ending

/-! ## Bodies and cycles

A cycle is a body and what is done behind it. So every cycle can be cut at the end of its body, and put together
again. -/

/-- What a cycle does after the end of a body: it takes the frame off, if this is still there. -/
def leave (m : Machine σ) : Ending → Machine σ
  | .finished => (m.returnFrame none).1
  | _ => m

section

variable {e : Engine σ} {m n : Machine σ} {level : Nat} {ok : Bool} {ending : Ending}

theorem alive_of_returnFrame (ha : (m.returnFrame none).1.aborted = false) : m.aborted = false := by
  have ht : Turn 0 m [] (m.returnFrame none).1 [] := .returnFrame none (Nat.zero_le _)
  exact alive_of ht.onward.aborted ha

theorem alive_of_nextStep {step : Step} (hs : m.nextStep level = (n, step)) (hne : step ≠ .drained)
    (ha : n.aborted = false) : m.aborted = false := by
  obtain ⟨hc, -, -⟩ := nextStep_calm hs hne
  exact alive_of hc.aborted ha

theorem alive_of_leave (ha : (m.leave ending).aborted = false) : m.aborted = false := by
  cases ending with
  | finished => exact alive_of_returnFrame ha
  | stopped => exact ha
  | failed => exact ha

/-- A cycle for an aborted request does nothing. -/
theorem Cycles.alive (h : Cycles e m level n ok) (ha : n.aborted = false) : m.aborted = false := by
  cases h with
  | aborted hm => exact ha
  | drained hm | exhausted hm | undecodable hm | forked hm | dispatched hm | failed hm => exact hm

theorem Dispatches.alive {c : Command σ} {i : Instruction} {key : String} (h : Dispatches e m c i key n ok)
    (ha : n.aborted = false) : m.aborted = false := by
  exact alive_of (h.leads (.free m) (Nat.zero_le _)).1.above.onward.aborted ha

/-- A body that ends without an abort had none at its start. -/
theorem Body.alive (h : Body e level m n ending) (ha : n.aborted = false) : m.aborted = false := by
  induction h with
  | returned hd => exact ha
  | finished hs hl => exact alive_of_nextStep hs (by simp) ha
  | broke hs hl => exact alive_of_nextStep hs (by simp) (alive_of_returnFrame ha)
  | undecodable hs hd => exact alive_of_nextStep hs (by simp) ha
  | forked hs hd hp rest ih => exact alive_of_nextStep hs (by simp) (ih ha)
  | failed hs hd hp step hstop => exact alive_of_nextStep hs (by simp) (step.alive ha)
  | sunk hs hd hp step hgo called => exact alive_of_nextStep hs (by simp) (step.alive (called.alive ha))
  | next hs hd hp step hgo called rest ih =>
    exact alive_of_nextStep hs (by simp) (step.alive (called.alive (ih ha)))

/-- Where there is nothing to run, a cycle ends at once. -/
theorem Cycles.of_depth_le (h : Cycles e m level n ok) (hd : m.depth ≤ level) (ha : n.aborted = false) :
    n = m ∧ ok = true := by
  have hnext : m.nextStep level = (m, .drained) := nextStep_of_le hd
  cases h with
  | aborted hm =>
    rw [ha] at hm
    cases hm
  | drained hm hs =>
    rw [hnext] at hs
    cases hs
    exact ⟨rfl, rfl⟩
  | exhausted hm hs | undecodable hm hs | forked hm hs | dispatched hm hs | failed hm hs =>
    rw [hnext] at hs
    cases hs

/-- The frame of a loop is taken off the stack by its last return. -/
theorem depth_of_exhausted (hs : m.nextStep level = (n, .exhausted)) (hd : m.depth ≤ level + 1) :
    (n.returnFrame none).1.depth ≤ level := by
  obtain ⟨hc, -, -⟩ := nextStep_calm hs (by simp)
  rw [depth_returnFrame, hc.depth]
  omega

end

/-- A cycle runs what is above the frame of a loop, and then the body from there. -/
def Embodies (e : Engine σ) (level : Nat) (m n : Machine σ) (ok : Bool) : Prop :=
  ∃ o ok', Cycles e m (level + 1) o ok' ∧
    if ok' then ∃ p ending, Body e level o p ending ∧ n = p.leave ending ∧ ok = ending.ok else n = o ∧ ok = false

section

variable {e : Engine σ} {m n : Machine σ} {level : Nat} {ok : Bool}

/-- Where the frame of the loop is the active one, all that is left to tell is the body. -/
theorem Embodies.of_body (ha : m.aborted = false) (hd : m.depth ≤ level + 1) {p : Machine σ} {ending : Ending}
    (h : Body e level m p ending) (hn : n = p.leave ending) (hok : ok = ending.ok) : Embodies e level m n ok :=
  ⟨m, true, .drained ha (nextStep_of_le hd), p, ending, h, hn, hok⟩

/-- The frame of the loop has no more instructions: it is taken off, and the cycle ends. -/
theorem Embodies.of_exhausted (ha : m.aborted = false) (hd : m.depth ≤ level + 1) {q : Machine σ}
    (hs : m.nextStep level = (q, .exhausted)) (rest : Cycles e (q.returnFrame none).1 level n ok)
    (hn : n.aborted = false) : Embodies e level m n ok := by
  obtain ⟨rfl, rfl⟩ := rest.of_depth_le (depth_of_exhausted hs hd) hn
  cases hl : q.repeating with
  | true => exact .of_body ha hd (.finished hs hl) rfl rfl
  | false => exact .of_body ha hd (.broke hs hl) rfl rfl

/-- An instruction on the side puts nothing on the stack. -/
theorem Embodies.of_forked (ha : m.aborted = false) (hd : m.depth ≤ level + 1) {q : Machine σ} {key text : String}
    {i : Instruction} {c : Command σ} (hs : m.nextStep level = (q, .instruction key text))
    (hdec : q.decode e text = some (i, c)) (hp : (i.parallel && !c.isAsync) = true)
    (h : Embodies e level (q.forkInstruction i key) n ok) (hn : n.aborted = false) : Embodies e level m n ok := by
  have hdepth : (q.forkInstruction i key).depth ≤ level + 1 := by
    obtain ⟨hc, -, -⟩ := nextStep_calm hs (by simp)
    exact hc.depth.trans_le hd
  obtain ⟨o, ok', h, h'⟩ := h
  cases ok' with
  -- The fork has pushed no frame here, so the upper cycle has nothing to do.
  | true =>
    obtain ⟨rfl, -⟩ := h.of_depth_le hdepth (h.not_aborted rfl)
    obtain ⟨p, ending, hbody, hp', hok⟩ := h'
    exact .of_body ha hd (.forked hs hdec hp hbody) hp' hok
  | false =>
    obtain ⟨rfl, rfl⟩ := h'
    obtain ⟨-, hok⟩ := h.of_depth_le hdepth hn
    cases hok

end

/-- The induction is on the cycle, whose steps are all at one level: those above the frame of the loop belong to
what the last instruction has called. -/
theorem Cycles.embodies {e : Engine σ} : ∀ {m : Machine σ} {level : Nat} {n : Machine σ} {ok : Bool},
    Cycles e m level n ok → n.aborted = false → Embodies e level m n ok
  | m, _, _, _, .aborted ha, hn => by
    rw [ha] at hn
    cases hn
  | m, level, _, _, .drained ha hs, _ => by
    cases nextStep_cases hs with
    | drained hd => exact .of_body ha (hd.trans (Nat.le_succ level)) (.returned hd) rfl rfl
    | advanced _ _ _ _ hne => exact absurd rfl hne
  | m, level, _, _, .exhausted ha hs rest, hn => by
    -- either the frame of the loop is the active one, or this is a step of what it has called
    by_cases hd : m.depth ≤ level + 1
    · exact .of_exhausted ha hd hs rest hn
    · obtain ⟨o, ok', h, h'⟩ := rest.embodies hn
      exact ⟨o, ok', .exhausted ha ((nextStep_upper (Nat.le_succ level) hd).trans hs) h, h'⟩
  | m, level, n, _, .undecodable ha hs hdec, hn => by
    by_cases hd : m.depth ≤ level + 1
    · exact .of_body ha hd (.undecodable hs hdec) rfl rfl
    · exact ⟨n, false, .undecodable ha ((nextStep_upper (Nat.le_succ level) hd).trans hs) hdec, rfl, rfl⟩
  | m, level, n, _, .forked ha hs hdec hp rest, hn => by
    by_cases hd : m.depth ≤ level + 1
    · exact .of_forked ha hd hs hdec hp (rest.embodies hn) hn
    · obtain ⟨o, ok', h, h'⟩ := rest.embodies hn
      exact ⟨o, ok', .forked ha ((nextStep_upper (Nat.le_succ level) hd).trans hs) hdec hp h, h'⟩
  | m, level, n, _, .dispatched ha hs hdec hp step hgo rest, hn => by
    obtain ⟨o, ok', h, h'⟩ := rest.embodies hn
    by_cases hd : m.depth ≤ level + 1
    · cases ok' with
      | true =>
        obtain ⟨p, ending, hbody, hp', hok⟩ := h'
        exact .of_body ha hd (.next hs hdec hp step hgo h hbody) hp' hok
      | false =>
        obtain ⟨rfl, rfl⟩ := h'
        exact .of_body ha hd (.sunk hs hdec hp step hgo h) rfl rfl
    · exact ⟨o, ok', .dispatched ha ((nextStep_upper (Nat.le_succ level) hd).trans hs) hdec hp step hgo h, h'⟩
  | m, level, n, _, .failed ha hs hdec hp step hstop, hn => by
    by_cases hd : m.depth ≤ level + 1
    · exact .of_body ha hd (.failed hs hdec hp step hstop) rfl rfl
    · exact ⟨n, false, .failed ha ((nextStep_upper (Nat.le_succ level) hd).trans hs) hdec hp step hstop, rfl, rfl⟩

section

variable {e : Engine σ} {m n : Machine σ} {level : Nat} {ok : Bool}

/-- From where a step has left the stack a cycle goes on like the body. -/
theorem Body.cycles {ending : Ending} (h : Body e level m n ending) (hd : m.depth ≤ level + 1)
    (ha : (n.leave ending).aborted = false) : Cycles e m level (n.leave ending) ending.ok := by
  have hm := h.alive (alive_of_leave ha)
  induction h with
  | returned hle => exact .drained hm (nextStep_of_le hle)
  -- The last frame above the level has returned, and the cycle sees it with its next fetch.
  | finished hs hl => exact .exhausted hm hs (.drained ha (nextStep_of_le (depth_of_exhausted hs hd)))
  | broke hs hl => exact .exhausted hm hs (.drained ha (nextStep_of_le (depth_of_exhausted hs hd)))
  | undecodable hs hdec => exact .undecodable hm hs hdec
  | forked hs hdec hp rest ih =>
    obtain ⟨hc, -, -⟩ := nextStep_calm hs (by simp)
    exact .forked hm hs hdec hp (ih (hc.depth.trans_le hd) ha (rest.alive (alive_of_leave ha)))
  | failed hs hdec hp step hstop => exact .failed hm hs hdec hp step hstop
  | sunk hs hdec hp step hgo called =>
    exact .dispatched hm hs hdec hp step hgo (called.append (Nat.le_succ level) ⟨rfl, rfl⟩)
  | next hs hdec hp step hgo called rest ih =>
    have hrest := ih (called.depth_le rfl) ha (rest.alive (alive_of_leave ha))
    exact .dispatched hm hs hdec hp step hgo (called.append (Nat.le_succ level) hrest)

/-- Where the frame of a loop is the active one, a cycle is the body and the last return. -/
theorem cycles_iff_body (hd : m.depth ≤ level + 1) (ha : n.aborted = false) :
    Cycles e m level n ok ↔ ∃ p ending, Body e level m p ending ∧ n = p.leave ending ∧ ok = ending.ok := by
  constructor
  · intro h
    obtain ⟨o, ok', habove, hbody⟩ := h.embodies ha
    cases ok' with
    | true =>
      obtain ⟨rfl, -⟩ := habove.of_depth_le hd (habove.not_aborted rfl)
      exact hbody
    | false =>
      obtain ⟨rfl, -⟩ := hbody
      obtain ⟨-, hok⟩ := habove.of_depth_le hd ha
      cases hok
  · rintro ⟨p, ending, hbody, rfl, rfl⟩
    exact hbody.cycles hd ha

end

/-! ## The frame of the loop

While the body runs the frame of its loop stays below. What the frame has become when the body ends says how it has
ended. -/

/-- What an instruction of the active frame does to the stack: this frame stays, or it is taken off, which breaks the
loop that it was the frame of. -/
def Keeping (m n : Machine σ) : Prop :=
  RestsOn n.frames m.frames ∨ ∃ f, m.frames = f :: n.frames ∧ (f.looping = true → n.thread.breakAt = some n.depth)

section

variable {e : Engine σ} {m n : Machine σ} {ok : Bool} {invocation : Invocation σ}

theorem Keeping.of_frames (h : n.frames = m.frames) : Keeping m n := by
  left
  rw [h]
  exact .refl m.frames

theorem Keeping.congr {m' : Machine σ} (h : Keeping m' n) (hf : m'.frames = m.frames) : Keeping m n := by
  unfold Keeping at h
  rw [hf] at h
  exact h

/-- An attempt may push frames, but keeps what was there. -/
theorem Attempted.keeping (h : Attempted m n ok) : Keeping m n := by
  cases h with
  | kept hq hb hj => exact .of_frames hq.frames
  | called hq action results params =>
    left
    show RestsOn (_ :: _) m.frames
    rw [hq.frames]
    exact (RestsOn.refl m.frames).cons _
  | @returned o hq explicit =>
    refine Keeping.congr ?_ hq.frames
    cases hf : o.frames with
    | nil =>
      refine .of_frames ?_
      rw [returnEarly_nil hf]
    | cons f rest =>
      obtain ⟨o', hq', he⟩ := returnEarly_cons hf explicit
      have hframes : o'.frames = rest := hq'.frames
      -- An early return takes the top frame, and marks it if it loops.
      refine .inr ⟨f, ?_, fun hl => ?_⟩
      · rw [he, hf]
        exact congrArg (f :: ·) hframes.symm
      · rw [if_pos hl] at hq'
        rw [he]
        refine hq'.breakAt.trans (congrArg some ?_)
        exact congrArg List.length hframes.symm
  | broke => exact .inl ((RestsOn.refl m.frames).congr (breakLoop_calm m).frames)

/-- A loop that runs inside of the body keeps the frames below it. -/
theorem Performs.keeping (h : Performs e m invocation n ok) (hb : m.thread.breakAt = none) : Keeping m n := by
  cases h with
  | immediate hi => exact (immediate_cases hi).keeping
  | refused hl => exact .of_frames (entered_cases hl).stays
  | looped hl run =>
    -- A loop in the body takes off all that it has put on the stack.
    have he := entered_cases hl
    obtain ⟨f, hf, -, hlooping⟩ := he.frame
    exact .of_frames (run.neutral hf hlooping (he.breakAt.trans hb)).1

/-- Attempts that fail and are followed by another have left the stack as it was. -/
theorem Attempts.keeping : ∀ {m : Machine σ} {invocation : Invocation σ} {key : String} {pause total : Int64}
    {n : Machine σ} {ok : Bool}, Attempts e m invocation key pause total n ok → m.thread.breakAt = none → Keeping m n
  | m, _, _, _, _, _, _, .spent _, _ => .of_frames rfl
  | m, _, _, _, _, _, _, .succeeded _ run, hb => (run.keeping hb).congr rfl
  | m, _, _, _, _, _, _, .gaveUp _ run _, hb => (run.keeping hb).congr rfl
  | m, _, _, _, _, _, _, .retried _ run hl rest, hb => by
    have hneutral := run.neutral hb
    have hnone := hneutral.breakAt (not_aborted_of_lastAttempt hl)
    exact (rest.keeping hnone).congr hneutral.frames

theorem Dispatches.keeping {c : Command σ} {i : Instruction} {key : String} (h : Dispatches e m c i key n ok)
    (hb : m.thread.breakAt = none) : Keeping m n := by
  cases h with
  | unprepared hp => exact .of_frames (quiet_prepare hp).frames
  | prepared hp run =>
    have hq := quiet_prepare hp
    exact (run.keeping (hq.breakAt.trans hb)).congr hq.frames

end

/-- The frame of a loop above a stack is the active one, and the loop goes on. -/
structure Atop (f : Frame) (below : List Frame) (m : Machine σ) : Prop where
  frames : ∃ g, m.frames = g :: below ∧ g.core = f.core ∧ g.looping = true
  breakAt : m.thread.breakAt = none

/-- In the middle of the body of a loop above a stack: the frame of the loop is there, or has returned. -/
structure Underway (f : Frame) (below : List Frame) (m : Machine σ) : Prop where
  inLoop : InLoop below m
  standing : RestsOn m.frames (f :: below) ∨ m.frames = below ∧ m.thread.breakAt = some below.length

/-- Where a body may leave the frame of its loop. -/
def Ending.Leaves (f : Frame) (below : List Frame) (m : Machine σ) : Ending → Prop
  | .finished => Atop f below m
  | .stopped => m.frames = below ∧ m.thread.breakAt = some below.length
  | .failed => True

section

variable {e : Engine σ} {m n : Machine σ} {ok : Bool} {f : Frame} {below : List Frame}

theorem Atop.congr (h : Atop f below m) (hf : n.frames = m.frames) (hb : n.thread.breakAt = m.thread.breakAt) :
    Atop f below n := ⟨hf ▸ h.frames, hb.trans h.breakAt⟩

theorem Atop.repeating (h : Atop f below m) : m.repeating = true := by
  obtain ⟨g, hf, -, hl⟩ := h.frames
  unfold Machine.repeating
  rw [hf]
  exact hl

theorem Atop.looping (h : Atop f below m) : Looping below m := by
  obtain ⟨g, hf, -, hl⟩ := h.frames
  exact ⟨⟨[], g, hf, nofun, hl⟩, h.breakAt⟩

theorem Atop.underway (h : Atop f below m) : Underway f below m := by
  obtain ⟨g, hf, hcore, -⟩ := h.frames
  refine ⟨.looping h.looping, .inl ?_⟩
  have hm : m.frames.map Frame.core = (f :: below).map Frame.core := by
    rw [hf, List.map_cons, List.map_cons, hcore]
  exact (RestsOn.refl (f :: below)).congr hm

/-- A loop that goes on has its frame on top if no other frame is there. -/
theorem Looping.atop (h : Looping below m) (hr : RestsOn m.frames (f :: below)) (hd : m.depth ≤ below.length + 1) :
    Atop f below m := by
  obtain ⟨above, g, hf, -, hl⟩ := h.frames
  have habove : above = [] := by
    unfold depth at hd
    rw [hf, List.length_append, List.length_cons] at hd
    exact List.eq_nil_of_length_eq_zero (by omega)
  subst habove
  refine ⟨⟨g, hf, ?_, hl⟩, h.breakAt⟩
  unfold RestsOn at hr
  rw [hf] at hr
  have heq := List.IsSuffix.eq_of_length hr (by simp)
  exact (List.cons_eq_cons.1 heq).1.symm

namespace Underway

/-- Where there is still an instruction to run, the frame of the loop is there. -/
theorem instruction (h : Underway f below m) (hd : m.depth ≤ below.length + 1) (ha : m.aborted = false)
    {key text : String} (hs : m.nextStep below.length = (n, .instruction key text)) : Atop f below n := by
  obtain ⟨hc, -, hlt⟩ := nextStep_calm hs (by simp)
  refine (h.inLoop.instruction le_rfl ha hs).atop ?_ (hc.depth.trans_le hd)
  rcases h.standing with hr | ⟨hf, -⟩
  · exact hr.congr hc.frames
  · exact absurd (hc.depth.trans (congrArg List.length hf)) hlt.ne'

/-- What an instruction has called runs to its own end. -/
theorem called (h : Underway f below m) (hrun : Cycles e m (below.length + 1) n ok) (ha : n.aborted = false) :
    Underway f below n := by
  rcases h.standing with hr | ⟨hf, hb⟩
  · exact ⟨(hrun.inLoop (Nat.le_succ _) h.inLoop).1, .inl (hrun.rests rfl hr)⟩
  · have hd : m.depth ≤ below.length + 1 := by
      unfold depth
      rw [hf]
      exact Nat.le_succ _
    obtain ⟨rfl, -⟩ := hrun.of_depth_le hd ha
    exact h

end Underway

/-- An instruction of the body leaves the frame of the loop in its place, or returns from it. -/
theorem Atop.dispatched (h : Atop f below m) {c : Command σ} {i : Instruction} {key : String}
    (hrun : Dispatches e m c i key n ok) : Underway f below n := by
  refine ⟨(hrun.inLoop h.looping).1, ?_⟩
  obtain ⟨g, hf, hcore, hl⟩ := h.frames
  -- Only the frame of the loop itself can have gone, and then it has left the mark of the loop.
  rcases hrun.keeping h.breakAt with hr | ⟨g', hg, hb⟩
  · refine .inl (hr.trans ?_)
    rcases h.underway.standing with hr | ⟨hf', -⟩
    · exact hr
    · rw [hf] at hf'
      exact absurd hf' (List.cons_ne_self g below)
  · rw [hf] at hg
    obtain ⟨rfl, hframes⟩ := List.cons_eq_cons.1 hg
    refine .inr ⟨hframes.symm, (hb hl).trans ?_⟩
    unfold depth
    rw [← hframes]

/-- The frame of the loop has no more instructions, because it has come to its end or because of a break. -/
theorem Underway.exhausted (h : Underway f below m) (hd : m.depth ≤ below.length + 1) (ha : m.aborted = false)
    (hs : m.nextStep below.length = (n, .exhausted)) :
    (n.repeating = true ∧ Atop f below n) ∨
      (n.repeating = false ∧ ∃ g, n.frames = g :: below ∧ n.thread.breakAt = some below.length) := by
  obtain ⟨hc, -, hlt⟩ := nextStep_calm hs (by simp)
  rw [hc.depth] at hlt
  cases h.inLoop with
  | looping hl =>
    left
    rcases h.standing with hr | ⟨hf, -⟩
    · have hatop : Atop f below n := (hl.fetch hs).atop (hr.congr hc.frames) (hc.depth.trans_le hd)
      exact ⟨hatop.repeating, hatop⟩
    · exact absurd (congrArg List.length hf) hlt.ne'
  | @ending above hf hex hb =>
    right
    -- After a break only the frame of the loop is left above the stack, and it is exhausted.
    obtain ⟨g, rfl⟩ : ∃ g, above = [g] := by
      rw [← List.length_eq_one_iff]
      unfold depth at hd hlt
      rw [hf, List.length_append] at hd hlt
      omega
    obtain ⟨hl, hexhausted⟩ := hex g List.mem_cons_self
    cases nextStep_cases hs with
    | exhausted hd' hf' he =>
      refine ⟨?_, g, hf, hb⟩
      unfold repeating
      rw [hf]
      exact hl
    | advanced hd' hf' he hq hne =>
      rw [hf] at hf'
      cases hf'
      rw [hexhausted] at he
      cases he
  | ended hf hb => exact absurd (congrArg List.length hf) hlt.ne'
  | stopped hf ha' =>
    rw [ha] at ha'
    cases ha'

/-- Where a body ends, by induction on it: the frame of the loop stands until it returns, and a break or a return
leaves the mark of this loop and of no other. -/
theorem Body.leaves {ending : Ending} (h : Body e below.length m n ending) (hu : Underway f below m)
    (hd : m.depth ≤ below.length + 1) (ha : n.aborted = false) : ending.Leaves f below n := by
  -- The flag is never taken back, so it was not set at any earlier moment.
  have hm := h.alive ha
  induction h with
  | returned hle =>
    rcases hu.standing with hr | hreturned
    · have hlen := hr.length_le
      exact absurd hle (Nat.not_le.2 hlen)
    · exact hreturned
  | finished hs hl =>
    rcases hu.exhausted hd hm hs with ⟨-, hatop⟩ | ⟨hl', -⟩
    · exact hatop
    · rw [hl] at hl'
      cases hl'
  | broke hs hl =>
    rcases hu.exhausted hd hm hs with ⟨hl', -⟩ | ⟨-, g, hf, hb⟩
    · rw [hl] at hl'
      cases hl'
    · obtain ⟨o, hq, he⟩ := returnFrame_eq hf none
      rw [he]
      exact ⟨hq.frames, hq.breakAt.trans hb⟩
  | undecodable hs hdec => trivial
  | failed hs hdec hp step hstop => trivial
  | sunk hs hdec hp step hgo called => trivial
  -- A fork changes neither the frames nor the mark of its parent.
  | @forked m q key text i c o ending hs hdec hp rest ih =>
    obtain ⟨hc, -, -⟩ := nextStep_calm hs (by simp)
    have hatop : Atop f below (q.forkInstruction i key) := (hu.instruction hd hm hs).congr rfl rfl
    exact ih hatop.underway (hc.depth.trans_le hd) ha (rest.alive ha)
  | next hs hdec hp step hgo called rest ih =>
    have hrest := rest.alive ha
    exact ih (((hu.instruction hd hm hs).dispatched step).called called hrest) (called.depth_le rfl) ha hrest

end

end Machine
end Sequencer
