import Sequencer.Proofs.Schedule
import Sequencer.Proofs.Snapshots

/-!
# How deep the stack is

A task that is done leaves the stack of its thread at a depth that whoever waits for the task can go on from: a cycle
does not come below its level and ends there if it succeeds, an attempt takes off one frame at most and none if it
fails, and a loop takes off its own. This is a matter of what each step does to the depth, and holds at every point of
a run.
-/

namespace Sequencer

variable {σ : Type}

/-! ## Depths

How high the stack is after each operation. -/

namespace Machine

/-- To return takes one frame off the stack, if there is one. -/
theorem depth_returnFrame (m : Machine σ) (explicit : Option (List String)) :
    (m.returnFrame explicit).1.depth = m.depth - 1 := by
  unfold depth
  cases hf : m.frames with
  | nil =>
    rw [returnFrame_nil hf]
    exact congrArg List.length hf
  | cons f below =>
    rw [frames_returnFrame hf]
    rfl

theorem depth_setLooping (m : Machine σ) (looping : Bool) : (m.setLooping looping).depth = m.depth :=
  (setLooping_calm m looping).depth

/-- A loop begins with its frame on top of the stack. -/
theorem depth_entered {m o : Machine σ} (h : m.Quiet o) (body : String) (results : List String)
    (values : Table Value) : ((o.push body results values).setLooping true).depth = m.depth + 1 :=
  (depth_setLooping _ _).trans (congrArg (· + 1) h.calm.depth)

theorem depth_disown (m : Machine σ) : m.disown.depth = m.depth := by
  unfold disown
  split
  · next f below hf =>
    unfold depth
    rw [hf]
    rfl
  · rfl

theorem depth_of_nextStep {m n : Machine σ} {level : Nat} {step : Step} (h : m.nextStep level = (n, step))
    (hs : step ≠ .drained) : n.depth = m.depth ∧ level < m.depth := by
  obtain ⟨hc, -, hlt⟩ := nextStep_calm h hs
  exact ⟨hc.depth, hc.depth ▸ hlt⟩

/-- An attempt that fails leaves the stack as deep as it was, and any other takes off one frame at most. -/
def Within (ok : Bool) (before after : Nat) : Prop := if ok then before ≤ after + 1 else after = before

theorem within_self (ok : Bool) (d : Nat) : Within ok d d := by
  cases ok with
  | true => exact Nat.le_succ d
  | false => exact rfl

/-- A command without a loop pushes one frame at most, and none if it fails. -/
theorem within_of_immediate {m n : Machine σ} {invocation : Invocation σ} {ok : Bool}
    (h : m.immediate invocation = some (n, ok)) : Within ok m.depth n.depth := by
  cases covers_quiet.tried_immediate h with
  | @kept o hq works =>
    have hd : o.depth = m.depth := congrArg List.length hq.frames
    show Within ok m.depth o.depth
    rw [hd]
    exact within_self ok _
  | @called o hq action results params =>
    have hd : o.depth = m.depth := congrArg List.length hq.frames
    show m.depth ≤ o.depth + 1 + 1
    omega
  | @returned o hq explicit =>
    have hd : o.depth = m.depth := congrArg List.length hq.frames
    cases hf : o.frames with
    | nil =>
      rw [returnEarly_nil hf]
      exact hd
    | cons f below =>
      obtain ⟨q, -, he⟩ := returnEarly_cons hf explicit
      have hdepth : (o.returnEarly explicit).1.depth = below.length :=
        congrArg List.length (frames_returnEarly hf explicit)
      have hlen : o.depth = below.length + 1 := congrArg List.length hf
      have hok : (o.returnEarly explicit).2 = true := by rw [he]
      rw [hok]
      show m.depth ≤ _ + 1
      omega
  | broke =>
    rw [(breakLoop_calm m).depth]
    exact within_self _ _

end Machine

open Machine

/-! ## Levels of callers

Those who wait remember the levels that they have begun on. They are in order, from the innermost outwards. -/

/-- The level that the stack may not come below, for whoever waits. -/
def floor : List (Caller σ) → Nat
  | [] => 0
  | .cycle level _ :: _ => level
  | .pass level _ _ :: _ => level
  | .release level _ :: _ => level
  | .started base :: _ => base
  | .waiting _ _ :: _ => 0
  | .joiner :: _ => 0
  | .opened _ :: outer => floor outer
  | .closing _ _ :: outer => floor outer
  | .attempts _ _ _ _ :: outer => floor outer
  | .job _ :: outer => floor outer

/-- How deep the stack is, at least, where an instruction is at work: a cycle has fetched it above its level. -/
def ground : List (Caller σ) → Nat
  | [] => 0
  | .cycle level _ :: _ => level + 1
  | .pass level _ _ :: _ => level + 1
  | .release level _ :: _ => level + 1
  | .started base :: _ => base
  | .waiting _ _ :: _ => 0
  | .joiner :: _ => 0
  | .opened _ :: outer => ground outer
  | .closing _ _ :: outer => ground outer
  | .attempts _ _ _ _ :: outer => ground outer
  | .job _ :: outer => ground outer

/-- The number of frames that the thread at work has begun with. -/
def base : List (Caller σ) → Nat
  | [] => 0
  | .started base :: _ => base
  | .waiting _ _ :: _ => 0
  | .joiner :: _ => 0
  | .cycle _ _ :: outer => base outer
  | .pass _ _ _ :: outer => base outer
  | .opened _ :: outer => base outer
  | .closing _ _ :: outer => base outer
  | .attempts _ _ _ _ :: outer => base outer
  | .release _ _ :: outer => base outer
  | .job _ :: outer => base outer

/-- The levels of those who wait for one another do not fall, and rise where a loop begins. A loop that waits for its
body holds the scope of its frame. -/
def Layered : List (Caller σ) → Prop
  | [] => True
  | .cycle level _ :: outer => floor outer ≤ level ∧ Layered outer
  | .pass level _ f :: outer => (∃ rest, outer = .release level f :: rest) ∧ Layered outer
  | .release level _ :: outer => ground outer ≤ level ∧ Layered outer
  | .job base :: outer => floor outer = base ∧ Layered outer
  | .started _ :: outer => Layered outer
  | .waiting _ _ :: outer => Layered outer
  | .joiner :: outer => Layered outer
  | .opened _ :: outer => Layered outer
  | .closing _ _ :: outer => Layered outer
  | .attempts _ _ _ _ :: outer => Layered outer

/-- The ground lies above the floor, or is the same. -/
theorem floor_le_ground (callers : List (Caller σ)) : floor callers ≤ ground callers := by
  induction callers with
  | nil => exact Nat.le_refl 0
  | cons caller outer ih =>
    cases caller with
    | cycle level strict => exact Nat.le_succ level
    | pass level loop f => exact Nat.le_succ level
    | release level f => exact Nat.le_succ level
    | started level => exact Nat.le_refl level
    | waiting thread failed => exact Nat.le_refl 0
    | joiner => exact Nat.le_refl 0
    | _ => exact ih

theorem Layered.base_le_floor {callers : List (Caller σ)} (h : Layered callers) : base callers ≤ floor callers := by
  induction callers with
  | nil => exact Nat.le_refl 0
  | cons caller outer ih =>
    cases caller with
    | cycle level strict => exact (ih h.2).trans h.1
    | pass level loop f =>
      obtain ⟨⟨rest, rfl⟩, houter⟩ := h
      exact ih houter
    | release level f => exact (ih h.2).trans ((floor_le_ground outer).trans h.1)
    | job level => exact ih h.2
    | started level => exact Nat.le_refl level
    | waiting thread failed => exact Nat.le_refl 0
    | joiner => exact Nat.le_refl 0
    | opened _ => exact ih h
    | closing _ _ => exact ih h
    | attempts _ _ _ _ => exact ih h

/-! ## Loops among those who wait

The loops among them are the drivers that hold scopes. -/

/-- The loops that the thread at work is in, the innermost first. -/
def loops : List (Caller σ) → List Driver
  | [] => []
  | .release level f :: outer => ⟨level, f⟩ :: loops outer
  | .started _ :: _ => []
  | .waiting _ _ :: _ => []
  | .joiner :: _ => []
  | .cycle _ _ :: outer => loops outer
  | .pass _ _ _ :: outer => loops outer
  | .opened _ :: outer => loops outer
  | .closing _ _ :: outer => loops outer
  | .attempts _ _ _ _ :: outer => loops outer
  | .job _ :: outer => loops outer

/-- A loop has begun at the floor or below it, and below the ground that instructions stand on. -/
theorem Layered.level_le {callers : List (Caller σ)} (h : Layered callers) {d : Driver} (hd : d ∈ loops callers) :
    d.level ≤ floor callers ∧ d.level < ground callers := by
  induction callers with
  | nil => cases hd
  | cons caller outer ih =>
    cases caller with
    | cycle level strict =>
      have hle := (ih h.2 hd).1.trans h.1
      exact ⟨hle, Nat.lt_succ_of_le hle⟩
    | pass level loop f =>
      obtain ⟨⟨rest, rfl⟩, houter⟩ := h
      exact ih houter hd
    | release level f =>
      -- The loop itself, or one that waits further out.
      rcases List.mem_cons.1 hd with rfl | hd
      · exact ⟨Nat.le_refl _, Nat.lt_succ_self _⟩
      · have hlt := (ih h.2 hd).2.trans_le h.1
        exact ⟨hlt.le, Nat.lt_succ_of_lt hlt⟩
    | job base => exact ih h.2 hd
    | started base => cases hd
    | waiting thread failed => cases hd
    | joiner => cases hd
    | opened b => exact ih h hd
    | closing b ok => exact ih h hd
    | attempts invocation key pause total => exact ih h hd

theorem base_le {ds : List Driver} {level : Nat} (h : ∀ d ∈ ds, d.level ≤ level) : Driver.base ds ≤ level := by
  cases ds with
  | nil => exact Nat.zero_le _
  | cons d ds => exact h d List.mem_cons_self

theorem Layered.base_loops_le {callers : List (Caller σ)} (h : Layered callers) :
    Driver.base (loops callers) ≤ floor callers :=
  base_le fun _ hd => (h.level_le hd).1

/-! ## What tasks and callers need

What a task needs of the stack when it begins, and what its caller can count on when it is done. -/

/-- A task can begin with a stack of some depth, for those who wait for it. -/
def Task.Ready (callers : List (Caller σ)) (d : Nat) : Task σ → Prop
  | .cycle level => floor callers ≤ level ∧ level ≤ d
  | .leave level => floor callers ≤ level ∧ level < d
  | .runCycle level => floor callers ≤ level ∧ level ≤ d
  | .dispatch _ _ _ => ground callers ≤ d
  | .attempts _ _ _ _ => ground callers ≤ d
  | .perform _ => ground callers ≤ d
  | .choose _ level => ground callers ≤ level ∧ d = level + 1
  | .drive _ => ground callers < d
  | .passes _ f => ∃ level rest, callers = .release level f :: rest ∧ d = level + 1
  | .between level _ f => (∃ rest, callers = .release level f :: rest) ∧ d = level + 1
  | .join _ => True
  | .done _ => True

/-- How deep a stack may be once a task is done, with success or without. -/
def Task.Yields (d : Nat) : Task σ → Nat → Bool → Prop
  | .cycle level, d', ok => level ≤ d' ∧ (ok = true → d' = level)
  | .leave level, d', ok => level ≤ d' ∧ (ok = true → d' = level)
  | .runCycle level, d', ok => level ≤ d' ∧ (ok = true → d' = level)
  | .dispatch _ _ _, d', ok => Within ok d d'
  | .attempts _ _ _ _, d', ok => Within ok d d'
  | .perform _, d', ok => Within ok d d'
  | .choose _ level, d', _ => d' = level
  | .drive _, d', _ => d' + 1 = d
  | .passes _ _, d', _ => d' + 1 = d
  | .between level _ _, d', _ => d' = level
  | .join _, d', ok => d' = d ∧ ok = true
  | .done ok', d', ok => d' = d ∧ ok = ok'

/-- Those who wait can go on with a stack of some depth. -/
def Accepts : List (Caller σ) → Nat → Bool → Prop
  | [], _, _ => True
  | .cycle level _ :: outer, d, _ =>
    level ≤ d ∧ ∀ d' ok, level ≤ d' → (ok = true → d' = level) → Accepts outer d' ok
  | .opened _ :: outer, d, ok => Accepts outer d ok ∧ Accepts outer d false
  | .closing _ ok' :: outer, d, _ => Accepts outer d ok' ∧ Accepts outer d false
  | .attempts _ _ _ _ :: outer, d, ok =>
    Accepts outer d ok ∧ (ok = false → ground outer ≤ d ∧ ∀ d' ok', Within ok' d d' → Accepts outer d' ok')
  | .release level _ :: outer, d, ok => d = level ∧ Accepts outer d ok
  | .pass level _ _ :: outer, d, ok => level ≤ d ∧ (ok = true → d = level) ∧ ∀ ok', Accepts outer level ok'
  | .job base :: outer, _, _ => ∀ d' ok', (ok' = true → d' ≤ base) → Accepts outer d' ok'
  | .started base :: outer, d, ok => (ok = true → d ≤ base) ∧ Accepts outer 0 ok
  | .waiting thread _ :: outer, _, _ => Accepts outer thread.frames.length true
  | .joiner :: _, _, _ => True

namespace Snapshot

/-- The stack is as deep as the task and those who wait for it need it to be. -/
structure Leveled (s : Snapshot σ) : Prop where
  layered : Layered s.callers
  ready : s.task.Ready s.callers s.machine.depth
  accepts : ∀ d ok, s.task.Yields s.machine.depth d ok → Accepts s.callers d ok

/-- Where a task is done, those who wait only have to go on from there. -/
theorem Leveled.of_done {m : Machine σ} {ok : Bool} {callers : List (Caller σ)} (h : Layered callers)
    (ha : Accepts callers m.depth ok) : Leveled ⟨m, .done ok, callers⟩ := by
  refine ⟨h, trivial, ?_⟩
  rintro d ok ⟨rfl, rfl⟩
  exact ha

end Snapshot

namespace Snapshot.Leveled

variable {e : Engine σ} {m n : Machine σ} {t : Task σ} {callers outer : List (Caller σ)}

/-- What a cycle begins with. Fetching leaves the depth of the stack as it is, and a frame is left only above the level
of the cycle. -/
theorem begins_cycle {level : Nat} (hs : Leveled ⟨m, .cycle level, outer⟩)
    (h : (Task.cycle level).Begins e m n t callers) : Leveled ⟨n, t, callers ++ outer⟩ := by
  obtain ⟨hlayered, hready, haccepts⟩ := hs
  cases h with
  | aborted ha => exact .of_done hlayered (haccepts _ _ ⟨hready.2, nofun⟩)
  | drained ha hn =>
    cases nextStep_cases hn with
    | drained hle => exact .of_done hlayered (haccepts _ _ ⟨hready.2, fun _ => Nat.le_antisymm hle hready.2⟩)
    | advanced _ _ _ _ hne => exact absurd rfl hne
  | exhausted ha hn =>
    obtain ⟨hd, hlt⟩ := depth_of_nextStep hn nofun
    exact ⟨hlayered, ⟨hready.1, hd ▸ hlt⟩, haccepts⟩
  | undecodable ha hn =>
    obtain ⟨hd, hlt⟩ := depth_of_nextStep hn nofun
    exact .of_done hlayered (haccepts _ _ ⟨hd ▸ hready.2, nofun⟩)
  | @forked _ n key text i c ha hn =>
    obtain ⟨hd, hlt⟩ := depth_of_nextStep hn nofun
    have hfork : (n.forkInstruction i key).depth = m.depth := hd
    exact ⟨hlayered, ⟨hready.1, hfork ▸ hready.2⟩, haccepts⟩
  | fetched ha hn =>
    obtain ⟨hd, hlt⟩ := depth_of_nextStep hn nofun
    -- The instruction may leave the stack at the level of the cycle, but not below it.
    refine ⟨⟨hready.1, hlayered⟩, hd ▸ hlt, fun d ok hy => ⟨?_, fun d' ok' hle hok => ?_⟩⟩
    rotate_left
    · exact haccepts d' ok' ⟨hle, hok⟩
    cases ok with
    | true => exact Nat.le_of_lt_succ (hlt.trans_le (hd ▸ hy))
    | false => exact hlt.le.trans (hd ▸ Nat.le_of_eq hy.symm)

/-- What a command begins with. The frame of a loop is one more than there were. -/
theorem begins_perform {invocation : Invocation σ} (hs : Leveled ⟨m, .perform invocation, outer⟩)
    (h : (Task.perform invocation).Begins e m n t callers) : Leveled ⟨n, t, callers ++ outer⟩ := by
  obtain ⟨hlayered, hready, haccepts⟩ := hs
  cases h with
  | immediate hi => exact .of_done hlayered (haccepts _ _ (within_of_immediate hi))
  | refused hl => exact .of_done hlayered (haccepts _ _ (covers_quiet.of_refused hl).calm.depth)
  | @looped c n loop hl =>
    obtain ⟨o, values, hq, rfl⟩ := covers_quiet.of_looped hl
    -- The loop starts with its frame on top of what was there.
    have hd := depth_entered hq c.body (splitNames c.result) values
    refine ⟨hlayered, hd ▸ Nat.lt_succ_of_le hready, fun d ok hy => haccepts d ok ?_⟩
    cases Nat.succ.inj (hy.trans hd)
    exact within_self ok _
  | rejected hl => exact .of_done hlayered (haccepts _ _ (covers_quiet.of_rejected hl).calm.depth)
  | ranged hl =>
    obtain ⟨o, values, hq, rfl⟩ := covers_quiet.of_ranged hl
    refine ⟨hlayered, ⟨hready, depth_entered hq _ _ values⟩, ?_⟩
    rintro d ok rfl
    exact haccepts _ _ (within_self ok _)

/-- What a loop begins with, which holds the scope of its frame. -/
theorem begins_drive {loop : Loop} (hs : Leveled ⟨m, .drive loop, outer⟩)
    (h : (Task.drive loop).Begins e m n t callers) : Leveled ⟨n, t, callers ++ outer⟩ := by
  obtain ⟨hlayered, hready, haccepts⟩ := hs
  have hd := depth_disown m
  have hlt : ground outer < m.depth := hready
  cases h with
  | frameless hf =>
    have hzero : m.depth = 0 := hd.symm.trans (congrArg List.length hf)
    rw [hzero] at hlt
    exact absurd hlt (Nat.not_lt_zero _)
  | @driven _ f below hf =>
    have hlen : m.disown.depth = below.length + 1 := congrArg List.length hf
    refine ⟨⟨?_, hlayered⟩, ⟨below.length, outer, rfl, hlen⟩, fun d ok hy => ⟨?_, haccepts d ok (hy.trans hd)⟩⟩
    · rw [← hd, hlen] at hlt
      exact Nat.le_of_lt_succ hlt
    · exact Nat.succ.inj (hy.trans hlen)

/-- What the passes of a loop begin with, where its frame is the one on top. -/
theorem begins_passes {loop : Loop} {f : Frame} (hs : Leveled ⟨m, .passes loop f, outer⟩)
    (h : (Task.passes loop f).Begins e m n t callers) : Leveled ⟨n, t, callers ++ outer⟩ := by
  obtain ⟨hlayered, ⟨level, rest, hrest, hlevel⟩, haccepts⟩ := hs
  -- The frame of the loop is the only one above its level.
  have hpred : m.depth - 1 = level := Nat.sub_eq_of_eq_add hlevel
  cases h with
  | @finished _ _ o n ok hb hr =>
    have hd := depth_returnFrame (o.setLooping false) none
    rw [hr, depth_setLooping, (quiet_beforePass hb).calm.depth, hpred] at hd
    refine .of_done hlayered (haccepts _ _ ?_)
    show n.depth + 1 = m.depth
    rw [hd]
    exact hlevel.symm
  | @stopped _ _ n hb =>
    have hd : n.depth = level + 1 := (quiet_beforePass hb).calm.depth.trans hlevel
    rw [hpred]
    refine .of_done hlayered (haccepts _ _ ?_)
    show (n.unwind level).depth + 1 = m.depth
    rw [depth_unwind_of_le (hd ▸ Nat.le_succ level)]
    exact hlevel.symm
  | @passed _ _ n hb =>
    have hd : n.depth = level + 1 := (quiet_beforePass hb).calm.depth.trans hlevel
    rw [hpred]
    refine ⟨⟨⟨rest, hrest⟩, hlayered⟩, ⟨Nat.le_refl _, ?_⟩, fun d ok hy => ?_⟩
    · exact Nat.le_of_lt (hd ▸ Nat.lt_succ_self level)
    · exact ⟨hy.1, hy.2, fun ok' => haccepts _ ok' hlevel.symm⟩

/-- What the wait for jobs begins with. A job has a stack of its own. -/
theorem begins_join {failed : Nat} (hs : Leveled ⟨m, .join failed, outer⟩)
    (h : (Task.join failed).Begins e m n t callers) : Leveled ⟨n, t, callers ++ outer⟩ := by
  obtain ⟨hlayered, -, haccepts⟩ := hs
  cases h with
  | joined hj => exact .of_done hlayered (haccepts _ _ ⟨rfl, rfl⟩)
  | worked hj =>
    have hd := (jobs_of_nextJob hj).2.1.depth
    exact ⟨hlayered, trivial, fun d ok hy => haccepts d ok ⟨hy.1.trans hd, hy.2⟩⟩
  | unknown hj hc =>
    have hd := (jobs_of_nextJob hj).2.1.depth
    exact .of_done hlayered ⟨nofun, haccepts _ _ ⟨hd, rfl⟩⟩
  | started hj hc =>
    have hd := (jobs_of_nextJob hj).2.1.depth
    exact ⟨⟨rfl, hlayered⟩, Nat.le_refl _, fun d ok _ d' ok' hok => ⟨hok, haccepts _ _ ⟨hd, rfl⟩⟩⟩

end Snapshot.Leveled

/-- The stack is as deep as it has to be where a task has begun. -/
theorem Task.Begins.leveled {e : Engine σ} {m n : Machine σ} {task t : Task σ} {callers outer : List (Caller σ)}
    (h : task.Begins e m n t callers) (hs : Snapshot.Leveled ⟨m, task, outer⟩) :
    Snapshot.Leveled ⟨n, t, callers ++ outer⟩ := by
  have ⟨hlayered, hready, haccepts⟩ := hs
  cases task with
  | cycle => exact hs.begins_cycle h
  | perform => exact hs.begins_perform h
  | drive => exact hs.begins_drive h
  | passes => exact hs.begins_passes h
  | join => exact hs.begins_join h
  | leave level =>
    cases h
    refine ⟨hlayered, ⟨hready.1, ?_⟩, haccepts⟩
    rw [depth_returnFrame m none]
    exact Nat.le_sub_one_of_lt hready.2
  | runCycle =>
    cases h
    exact ⟨hlayered, hready, fun d ok hy => ⟨haccepts d ok hy, haccepts d false ⟨hy.1, nofun⟩⟩⟩
  | dispatch =>
    cases h with
    | unprepared hp => exact .of_done hlayered (haccepts _ _ (quiet_prepare hp).calm.depth)
    | prepared hp =>
      have hd := (quiet_prepare hp).calm.depth
      exact ⟨hlayered, hd ▸ hready, fun d ok hy => haccepts d ok (hd ▸ hy)⟩
  | attempts =>
    cases h with
    | spent ht => exact .of_done hlayered (haccepts _ _ rfl)
    | tried ht =>
      refine ⟨hlayered, hready, fun d ok hy => ⟨haccepts d ok hy, ?_⟩⟩
      -- after a failed attempt the next one begins with the same stack
      rintro rfl
      cases hy
      exact ⟨hready, haccepts⟩
  | choose c level =>
    cases h with
    | unreadable hr =>
      have hd : _ = level + 1 := (covers_quiet.of_read hr).calm.depth.trans hready.2
      exact .of_done hlayered (haccepts _ _ (depth_unwind_of_le (hd ▸ Nat.le_succ level)))
    | chosen hr =>
      have hd : _ = level + 1 := (covers_quiet.of_read hr).calm.depth.trans hready.2
      exact ⟨hlayered, hd ▸ Nat.lt_succ_of_le hready.1, fun d ok hy => haccepts d ok (Nat.succ.inj (hy.trans hd))⟩
  | between level =>
    cases h with
    | again hn =>
      have hd : _ = level + 1 := (quiet_afterPass hn).calm.depth.trans hready.2
      obtain ⟨⟨rest, hrest⟩, -⟩ := hready
      exact ⟨hlayered, ⟨level, rest, hrest, hd⟩, fun d ok hy => haccepts d ok (Nat.succ.inj (hy.trans hd))⟩
    | stuck hn =>
      have hd : _ = level + 1 := (quiet_afterPass hn).calm.depth.trans hready.2
      exact .of_done hlayered (haccepts _ _ (depth_unwind_of_le (hd ▸ Nat.le_succ level)))
  | done => cases h

/-- The stack is as deep as it has to be where those who wait go on. -/
theorem Caller.Resumes.leveled {m n : Machine σ} {ok : Bool} {caller : Caller σ} {t : Task σ}
    {callers outer : List (Caller σ)} (h : caller.Resumes m ok n t callers)
    (hs : Snapshot.Leveled ⟨m, .done ok, caller :: outer⟩) : Snapshot.Leveled ⟨n, t, callers ++ outer⟩ := by
  obtain ⟨hlayered, -, haccepts⟩ := hs
  have hgo := haccepts _ _ ⟨rfl, rfl⟩
  -- Each caller has said what it counts on when it began to wait, and gets it now.
  cases h with
  | advanced => exact ⟨hlayered.2, ⟨hlayered.1, hgo.1⟩, fun d ok hy => hgo.2 d ok hy.1 hy.2⟩
  | failed hstop => exact .of_done hlayered.2 (hgo.2 _ _ hgo.1 nofun)
  | joins =>
    refine ⟨hlayered, trivial, ?_⟩
    rintro d ok ⟨rfl, rfl⟩
    exact hgo
  | @closed _ outer' ok' =>
    refine .of_done hlayered ?_
    -- a cycle that has succeeded is down at its level, unless the request was aborted meanwhile
    cases ok' with
    | true =>
      cases hm : m.aborted with
      | true => exact hgo.2
      | false => exact hgo.1
    | false => exact hgo.2
  | succeeded => exact .of_done hlayered hgo.1
  | gaveUp hl => exact .of_done hlayered hgo.1
  | retried hl => exact ⟨hlayered, (hgo.2 rfl).1, (hgo.2 rfl).2⟩
  | released => exact .of_done hlayered.2 hgo.2
  -- behind a pass that has failed, the stack is cut down to the loop
  | @unwound level =>
    have hd : (m.unwind level).depth = level := depth_unwind_of_le hgo.1
    refine .of_done hlayered.2 ?_
    rw [hd]
    exact hgo.2.2 false
  | @broken level _ _ n hbreak =>
    have hd : n.depth = level := (depth_of_takeBreak hbreak).trans (depth_unwind_of_le hgo.1)
    exact .of_done hlayered.2 (hd ▸ hgo.2.2 true)
  | @put level _ f n hbreak =>
    have hd : n.depth = level := (depth_of_takeBreak hbreak).trans (depth_unwind_of_le hgo.1)
    -- before the next pass the frame of the loop is one above it
    refine ⟨hlayered.2, ⟨hlayered.1, congrArg (· + 1) hd⟩, ?_⟩
    rintro d ok rfl
    exact hgo.2.2 ok
  | @called _ base hd =>
    have hlt : base < m.depth := of_decide_eq_true (Bool.and_eq_true _ _ ▸ hd).2
    refine ⟨hlayered.2, ⟨Nat.le_of_eq hlayered.1, hlt.le⟩, fun d ok hy => ?_⟩
    exact hgo d ok fun h => Nat.le_of_eq (hy.2 h)
  | @simple _ base hd =>
    refine .of_done hlayered.2 (hgo _ _ ?_)
    rintro rfl
    exact Nat.le_of_not_lt (of_decide_eq_false hd)
  | finished =>
    refine .of_done hlayered ?_
    have hd : m.finish.depth = 0 := depth_unwind_of_le (Nat.zero_le _)
    exact hd ▸ hgo.2
  | waited =>
    refine ⟨hlayered, trivial, ?_⟩
    rintro d ok ⟨rfl, rfl⟩
    exact hgo

namespace Snapshot

/-- Levels keep their order in a step: those who wait on the inside have the higher ones. -/
theorem Step.leveled {e : Engine σ} {s t : Snapshot σ} (h : Step e s t) (hs : s.Leveled) : t.Leveled := by
  cases h with
  | begin hb outer => exact hb.leveled hs
  | resume hr outer => exact hr.leveled hs

/-- The stack stays as deep as it has to be along a run. -/
theorem Reaches.leveled {e : Engine σ} {s t : Snapshot σ} (h : Reaches e s t) (hs : s.Leveled) : t.Leveled := by
  induction h with
  | refl => exact hs
  | tail _ hstep ih => exact hstep.leveled ih

end Snapshot
end Sequencer
