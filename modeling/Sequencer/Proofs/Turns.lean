import Sequencer.Proofs.Handles
import Sequencer.Proofs.Nesting

/-!
# Threads in any order take turns

Whatever a thread of a scene does is one of the turns that the threads of a pool can take, so that the steps of a scene
are steps of a pool: a thread on the side is a fork, one that has been joined is dropped, and between the steps the scopes
stay where they are. The stack that the first thread stands on is held by it all the time, and what is held keeps its place.
-/

namespace Sequencer

open Machine

variable {σ : Type} {e : Engine σ}

/-! ## Some turns in a row

Several turns, in which loops may be entered and left, but not those that the thread began in. -/

/-- Loops inside of others hold more. -/
theorem heldBy_append_le (fs : List Frame) (inner ds : List Driver) : heldBy fs ds ≤ heldBy fs (inner ++ ds) := by
  unfold heldBy
  rw [List.map_append, ← Multiset.coe_add]
  exact add_le_add_right (Multiset.le_add_left _ _) _

/-- A thread takes some turns, in which it leaves what is below a floor alone. It is in some loops all the time, and in
others inside of those. -/
def Turns (floor : Nat) (ds : List Driver) (m : Machine σ) (inner : List Driver) (n : Machine σ) (inner' : List Driver) :
    Prop :=
  Relation.ReflTransGen (fun x y : Machine σ × List Driver =>
    Turn floor x.1 (x.2 ++ ds) y.1 (y.2 ++ ds) ∧ Driver.base (x.2 ++ ds) ≤ floor) (m, inner) (n, inner')

namespace Turns

variable {floor : Nat} {ds inner inner' : List Driver} {m n o : Machine σ}

theorem refl : Turns floor ds m inner m inner := Relation.ReflTransGen.refl

theorem turn (h : Turns floor ds m inner n inner) {inner' : List Driver}
    (ht : Turn floor n (inner ++ ds) o (inner' ++ ds)) (hds : Driver.base (inner ++ ds) ≤ floor) :
    Turns floor ds m inner o inner' :=
  Relation.ReflTransGen.tail h ⟨ht, hds⟩

theorem calm (h : Turns floor ds m inner n inner) (hc : n.Calm o) (hds : Driver.base (inner ++ ds) ≤ floor) :
    Turns floor ds m inner o inner :=
  h.turn (.calm hc) hds

/-- The turns of one thread are steps of a pool. What the thread stands on stays there, and is held. -/
theorem above (h : Turns floor ds m inner n inner') {base : List Frame} (hlen : base.length ≤ floor)
    (hb : RestsOn m.frames base) {held : Multiset ScopeId} {others : Multiset (Worker σ)}
    (hheld : held ≤ heldBy base ds + holders m.request.root others) :
    Pool.Above held (m.within (inner ++ ds) others) (n.within (inner' ++ ds) others) ∧ RestsOn n.frames base := by
  unfold Turns at h
  generalize hx : (m, inner) = x at h
  generalize hy : (n, inner') = y at h
  induction h generalizing n inner' with
  | refl =>
    cases hx
    cases hy
    exact ⟨.refl, hb⟩
  | @tail y z _ hstep ih =>
    obtain ⟨habove, hrests⟩ := ih rfl
    obtain ⟨ht, hds⟩ := hstep
    cases hx
    cases hy
    have hn : RestsOn n.frames base := ht.rests hlen hrests
    have hroot : n.request.root = m.request.root := ht.onward.root.trans habove.onward.root
    refine ⟨habove.trans (.single (.turn rfl (ht.mono hds)) ?_), hn⟩
    show held ≤ holders n.request.root (⟨n.thread, inner' ++ ds⟩ ::ₘ others)
    rw [holders_cons, hroot]
    -- What the base holds is held in between, too, since no turn comes below it.
    exact hheld.trans (add_le_add_left ((heldBy_le hn ds).trans (heldBy_append_le _ inner' ds)) _)

end Turns

/-! ## What one thread does

Each task does its work in a few turns. Which loops there are meanwhile can be read off those who wait. -/

/-- Where a loop is about to begin, its frame is on the stack and holds the scope. -/
def Actor.Owned (a : Actor σ) : Prop :=
  match a.task with
  | .choose _ _ => ∃ f below, a.thread.frames = f :: below ∧ f.ownsScope = true
  | .drive _ => ∃ f below, a.thread.frames = f :: below ∧ f.ownsScope = true
  | _ => True

theorem Actor.Owned.congr {t t' : Thread σ} {task : Task σ} {callers : List (Caller σ)} (h : Owned ⟨t, task, callers⟩)
    (hf : t'.frames = t.frames) : Owned ⟨t', task, callers⟩ := by
  unfold Owned at h ⊢
  rw [hf]
  exact h

/-- A thread begins no loop without a frame that has a scope of its own. -/
theorem Task.Begins.owned {m n : Machine σ} {task t : Task σ} {callers outer : List (Caller σ)}
    (h : task.Begins e m n t callers) (hs : Actor.Owned ⟨m.thread, task, outer⟩) :
    Actor.Owned ⟨n.thread, t, callers ++ outer⟩ := by
  cases h with
  | looped hl =>
    obtain ⟨o, values, -, rfl⟩ := covers_quiet.of_looped hl
    exact ⟨_, _, rfl, rfl⟩
  | ranged hl =>
    obtain ⟨o, values, -, rfl⟩ := covers_quiet.of_ranged hl
    exact ⟨_, _, rfl, rfl⟩
  | chosen hr =>
    obtain ⟨f, below, hf, hown⟩ := hs
    exact ⟨f, below, (covers_quiet.of_read hr).frames.trans hf, hown⟩
  | _ => trivial

/-- Going on takes scopes from no frame. -/
theorem Caller.Resumes.owned {m n : Machine σ} {ok : Bool} {caller : Caller σ} {t : Task σ}
    {callers outer : List (Caller σ)} (h : caller.Resumes m ok n t callers) :
    Actor.Owned ⟨n.thread, t, callers ++ outer⟩ := by
  cases h <;> trivial

/-- A floor that a thread does not go below in its next step. -/
structure Snapshot.Floor (fl : Nat) (ds : List Driver) (s : Snapshot σ) : Prop where
  floor : fl ≤ floor s.callers
  loops : Driver.base (loops s.callers ++ ds) ≤ fl
  /-- An instruction that is no loop may return. -/
  returns : ∀ invocation, s.task = .perform invocation → invocation.isLoop = false → fl ≤ s.machine.depth - 1
  /-- Where a thread is to give its stack up, it goes all the way down. -/
  started : ∀ b outer, s.callers = .started b :: outer → fl = 0 ∧ Sequencer.loops outer = []

section

variable {fl : Nat} {ds : List Driver}

section

variable {m n : Machine σ} {t : Task σ} {callers outer : List (Caller σ)}

/-- Fetching an instruction, or finding none, moves no scope. -/
theorem Task.Begins.turns_cycle {level : Nat} (h : (Task.cycle level).Begins e m n t callers)
    (hf : ¬Snapshot.Forks e ⟨m, .cycle level, outer⟩) (hds : Driver.base (loops outer ++ ds) ≤ fl) :
    Turns fl ds m (loops outer) n (loops (callers ++ outer)) := by
  cases h with
  | aborted => exact .refl
  | drained hm hn =>
    cases nextStep_cases hn with
    | drained => exact .refl
    | advanced _ _ _ _ hne => exact absurd rfl hne
  | exhausted hm hn => exact Turns.refl.calm (nextStep_calm hn nofun).1 hds
  | undecodable hm hn => exact Turns.refl.calm (nextStep_calm hn nofun).1 hds
  | forked hm hn hd hp => exact absurd ⟨_, rfl, hm, _, _, _, _, _, hn, hd, hp⟩ hf
  | fetched hm hn => exact Turns.refl.calm (nextStep_calm hn nofun).1 hds

/-- A command that is no loop may push a frame, or return from one above the floor. A loop pushes the one for its
passes. -/
theorem Task.Begins.turns_perform {invocation : Invocation σ} (h : (Task.perform invocation).Begins e m n t callers)
    (hds : Driver.base (loops outer ++ ds) ≤ fl) (hret : invocation.isLoop = false → fl ≤ m.depth - 1) :
    Turns fl ds m (loops outer) n (loops (callers ++ outer)) := by
  have calm {n : Machine σ} (hc : m.Calm n) : Turns fl ds m (loops outer) n (loops outer) := Turns.refl.calm hc hds
  have looped {o : Machine σ} (hq : m.Quiet o) (action : String) (results : List String) (params : Table Value) :
      Turns fl ds m (loops outer) ((o.push action results params).setLooping true) (loops outer) :=
    ((calm hq.calm).turn (.push action results params) hds).calm (setLooping_calm _ true) hds
  cases h with
  | immediate hi =>
    -- Only loops are looked at with the frame of a loop above the floor.
    have hloop : invocation.isLoop = false := by
      cases invocation with
      | loopFor c => cases hi
      | loopRange c => cases hi
      | _ => rfl
    cases immediate_cases hi with
    | @kept o b ok hq => exact calm (hq.calm.trans (.of_thread o rfl))
    | called hq action results params => exact (calm hq.calm).turn (.push action results params) hds
    | returned hq explicit =>
      exact (calm hq.calm).turn (.returnEarly explicit (hq.calm.depth.symm ▸ hret hloop)) hds
    | broke => exact calm (breakLoop_calm m)
  | refused hl => exact calm (covers_quiet.of_refused hl).calm
  | looped hl =>
    obtain ⟨o, values, hq, rfl⟩ := covers_quiet.of_looped hl
    exact looped hq _ _ _
  | rejected hl => exact calm (covers_quiet.of_rejected hl).calm
  | ranged hl =>
    obtain ⟨o, values, hq, rfl⟩ := covers_quiet.of_ranged hl
    exact looped hq _ _ _

/-- A loop takes the scope of its frame into its own hands. -/
theorem Task.Begins.turns_drive {loop : Loop} (h : (Task.drive loop).Begins e m n t callers)
    (ho : Actor.Owned ⟨m.thread, .drive loop, outer⟩) (hground : fl ≤ ground outer) (hready : ground outer < m.depth)
    (hds : Driver.base (loops outer ++ ds) ≤ fl) : Turns fl ds m (loops outer) n (loops (callers ++ outer)) := by
  cases h with
  | frameless => exact .refl
  | @driven _ f below hfr =>
    obtain ⟨g, rest, hg, hown⟩ := ho
    have hm := disown_of_cons hg
    obtain ⟨rfl, rfl⟩ := List.cons_eq_cons.1 ((congrArg Machine.frames hm).symm.trans hfr)
    have hdepth : m.depth = rest.length + 1 := congrArg List.length hg
    have hlt : ground outer < rest.length + 1 := hdepth ▸ hready
    show Turns fl ds m (loops outer) _ (⟨rest.length, { g with ownsScope := false }⟩ :: loops outer)
    exact Turns.refl.turn (.beginLoop hg hown (hground.trans (Nat.le_of_lt_succ hlt))) hds

/-- Before a pass a loop may be over: its frame returns, or it has failed and the frame is dropped. -/
theorem Task.Begins.turns_passes {loop : Loop} {f : Frame} (h : (Task.passes loop f).Begins e m n t callers)
    (hfl : fl ≤ floor outer) (hready : (Task.passes loop f).Ready outer m.depth)
    (hds : Driver.base (loops outer ++ ds) ≤ fl) : Turns fl ds m (loops outer) n (loops (callers ++ outer)) := by
  obtain ⟨level, rest, rfl, hlevel⟩ := hready
  have quiet {o : Machine σ} (hq : m.Quiet o) := Turns.refl.calm hq.calm hds
  cases h with
  | @finished _ _ o n ok hb hr =>
    have hq := quiet_beforePass hb
    -- The last return is that of the frame of the loop, right above its level.
    have hdepth : (o.setLooping false).depth = level + 1 :=
      ((setLooping_calm o false).depth.trans hq.calm.depth).trans hlevel
    have hreturn := ((quiet hq).calm (setLooping_calm o false) hds).turn
      (.returnFrame none (by rw [hdepth]; exact hfl)) hds
    rwa [hr] at hreturn
  | stopped hb =>
    have hdepth : m.depth - 1 = level := Nat.sub_eq_of_eq_add hlevel
    rw [hdepth]
    exact (quiet (quiet_beforePass hb)).turn (.unwind level hfl) hds
  | passed hb => exact quiet (quiet_beforePass hb)

end

/-- What a task begins with are turns of its thread. -/
theorem Task.Begins.turns {m n : Machine σ} {task t : Task σ} {callers outer : List (Caller σ)}
    (h : task.Begins e m n t callers) (hf : ¬Snapshot.Forks e ⟨m, task, outer⟩)
    (hj : ¬Snapshot.Awaits ⟨m, task, outer⟩) (hl : Snapshot.Leveled ⟨m, task, outer⟩)
    (ho : Actor.Owned ⟨m.thread, task, outer⟩) (hs : Snapshot.Floor fl ds ⟨m, task, outer⟩) :
    Turns fl ds m (loops outer) n (loops (callers ++ outer)) := by
  obtain ⟨hfl, hds, hret, -⟩ := hs
  have hready := hl.ready
  -- the floor is below all frames that the thread has pushed since
  have hground : fl ≤ ground outer := hfl.trans (floor_le_ground outer)
  have calm {n : Machine σ} (hc : m.Calm n) : Turns fl ds m (loops outer) n (loops outer) := Turns.refl.calm hc hds
  -- tasks that move frames or loops take a turn of their own, the others are calm
  cases task with
  | cycle => exact h.turns_cycle hf hds
  | perform invocation => exact h.turns_perform hds (hret invocation rfl)
  | drive => exact h.turns_drive ho hground hready hds
  | passes => exact h.turns_passes hfl hready hds
  | leave level =>
    cases h
    obtain ⟨hfloor, hlt⟩ := hready
    exact Turns.refl.turn (.returnFrame none ((hfl.trans hfloor).trans (Nat.le_sub_one_of_lt hlt))) hds
  | runCycle =>
    cases h
    exact calm (.of_thread m rfl)
  | dispatch =>
    cases h with
    | unprepared hp => exact calm (quiet_prepare hp).calm
    | prepared hp => exact calm (quiet_prepare hp).calm
  | attempts =>
    cases h with
    | spent => exact .refl
    | tried => exact calm (quiet_note m _).calm
  | choose c level =>
    cases h with
    | unreadable hr => exact (calm (covers_quiet.of_read hr).calm).turn (.unwind level (hground.trans hready.1)) hds
    | chosen hr => exact calm (covers_quiet.of_read hr).calm
  | between level =>
    obtain ⟨⟨rest, rfl⟩, -⟩ := hready
    cases h with
    | again hn => exact calm (quiet_afterPass hn).calm
    | stuck hn => exact (calm (quiet_afterPass hn).calm).turn (.unwind level hfl) hds
  | join =>
    cases h with
    | joined => exact .refl
    | worked hw =>
      obtain ⟨-, hc, -⟩ := jobs_of_nextJob hw
      exact calm ⟨hc.frames, hc.scopes, hc.root, hc.aborted⟩
    | unknown hn => exact absurd ⟨_, _, _, _, _, _, rfl, hn⟩ hj
    | started hn => exact absurd ⟨_, _, _, _, _, _, rfl, hn⟩ hj
  | done => cases h

/-- How a caller goes on are turns of its thread, unless it waits for another one. -/
theorem Caller.Resumes.turns {m n : Machine σ} {ok : Bool} {caller : Caller σ} {t : Task σ}
    {callers outer : List (Caller σ)} (h : caller.Resumes m ok n t callers)
    (hl : Snapshot.Leveled ⟨m, .done ok, caller :: outer⟩) (hs : Snapshot.Floor fl ds ⟨m, .done ok, caller :: outer⟩)
    (hwaiting : ∀ thread failed, caller ≠ .waiting thread failed) :
    Turns fl ds m (loops (caller :: outer)) n (loops (callers ++ outer)) := by
  obtain ⟨hfl, hds, -, hstarted⟩ := hs
  have hlayered := hl.layered
  have haccepts := hl.accepts _ _ ⟨rfl, rfl⟩
  cases h with
  | advanced => exact .refl
  | failed => exact .refl
  | joins => exact .refl
  | closed => exact Turns.refl.calm (.of_thread m rfl) hds
  | succeeded => exact .refl
  | gaveUp => exact .refl
  | retried => exact Turns.refl.calm (quiet_wait m _).calm hds
  | @released _ level f => exact Turns.refl.turn (.leaveLoop ⟨level, f⟩ haccepts.1) hds
  | @unwound level loop f => exact Turns.refl.turn (.unwind level hfl) hds
  | @broken level loop f _ ht => exact (Turns.refl.turn (.unwind level hfl) hds).calm (calm_of_takeBreak ht) hds
  -- the frame that is put back comes to stand where the loop has begun
  | @put level loop f o ht =>
    obtain ⟨⟨rest, rfl⟩, -⟩ := hlayered
    have hdepth : o.depth = level := (depth_of_takeBreak ht).trans (depth_unwind_of_le haccepts.1)
    exact ((Turns.refl.turn (.unwind level hfl) hds).calm (calm_of_takeBreak ht) hds).turn
      (.repush ⟨level, f⟩ hdepth) hds
  | called => exact .refl
  | simple => exact .refl
  -- a thread that is done gives up all frames of its copy
  | finished =>
    obtain ⟨hzero, hnone⟩ := hstarted _ _ rfl
    show Turns fl ds m [] _ (loops outer)
    rw [hnone]
    exact Turns.refl.turn (.unwind 0 hzero.le) hds
  | waited => exact absurd rfl (hwaiting _ _)

end

/-! ## Those who wait at the bottom

The first thread of a scene has the loops that it came with below all others. -/

/-- More that wait at the bottom are in no loop that the thread at work is in. -/
theorem loops_append {bottom : List (Caller σ)} (h : loops bottom = []) (callers : List (Caller σ)) :
    loops (callers ++ bottom) = loops callers := by
  induction callers with
  | nil => exact h
  | cons caller callers ih =>
    cases caller with
    | release level f => exact congrArg (⟨level, f⟩ :: ·) ih
    | started b => rfl
    | waiting thread failed => rfl
    | joiner => rfl
    | _ => exact ih

section

variable {origin a : Around} {place : Awaited} {outer : List (Caller σ)}

/-- A thread in the middle of a run has begun with as many frames as its bottom says. -/
theorem Waiting.base_append (h : Waiting origin place a outer) (bottom : List (Caller σ)) :
    base (outer ++ bottom) = base bottom := by
  induction h with
  | action => rfl
  | instruction => rfl
  | attempt => rfl
  | opened _ ih => exact ih
  | cycle _ ih => exact ih
  | attempts _ _ ih => exact ih
  | release _ _ ih => exact ih
  | pass _ _ _ ih => exact ih

theorem Snapshot.Nested.base_append {s : Snapshot σ} (h : s.Nested origin) (bottom : List (Caller σ)) :
    base (s.callers ++ bottom) = base bottom := by
  cases h with
  | runCycle h => exact h.base_append bottom
  | cycle h => exact h.base_append bottom
  | leave h => exact h.base_append bottom
  | dispatch h => exact h.base_append bottom
  | attempts h => exact h.base_append bottom
  | perform h => exact h.base_append bottom
  | choose h => exact h.base_append bottom
  | drive h => exact h.base_append bottom
  | passes h => exact h.base_append bottom
  | between h => exact h.base_append bottom
  | join h => exact h.base_append bottom
  | joined h => exact h.base_append bottom
  | done h => exact h.base_append bottom

/-- Inside of an instruction that is looked at by itself there is a cycle where others are at work. -/
theorem Waiting.floor_lt_ground {below : List Frame} (h : Waiting (.stack below) place a outer) (ha : a.Cyclic)
    (bottom : List (Caller σ)) : floor (outer ++ bottom) < ground (outer ++ bottom) := by
  induction h with
  | action ho => cases ho
  | instruction => exact ha.elim
  | attempt => exact ha.elim
  | opened _ ih => exact ih ha
  | cycle => exact Nat.lt_succ_self _
  | attempts _ _ ih => exact ih ha
  | release => exact Nat.lt_succ_self _
  | pass => exact Nat.lt_succ_self _

end

/-! ## One thread of a scene

Any thread of a scene, the first one or one on the side, takes its steps above a floor of its own. -/

/-- What the thread of an instruction that is looked at by itself stands on, as if a job had begun with it. -/
def standing (below : List Frame) : List (Caller σ) := [.job below.length, .started below.length]

theorem layered_standing (below : List Frame) : Layered (standing below : List (Caller σ)) := ⟨rfl, trivial⟩

/-- A thread goes on above the stack that an instruction is looked at on, if it is not on the side. -/
structure Actor.Stands (below : List Frame) (w : World σ) (a : Actor σ) : Prop where
  leveled : Snapshot.Leveled ⟨⟨w, a.thread⟩, a.task, a.callers ++ standing below⟩
  owned : a.Owned
  nested : a.isSide = false → (a.snapshot w).Nested (.stack below)

/-- What stands below a thread does not change by its own steps, and by no steps of others, since the frames are
its own. -/
theorem Scene.invariant_stands (below : List Frame) : Invariant e fun w a => a.Stands below w where
  act {s t} h hj hs := by
    obtain ⟨hl, ho, hn⟩ := hs
    refine ⟨(h.under _).leveled hl, ?_, ?_⟩
    · cases h with
      | begin hb outer => exact hb.owned ho
      | resume hr outer => exact hr.owned
    · intro hside
      cases h with
      | begin hb outer => exact hb.nested (hn (hb.isSide.symm.trans hside)) hj
      | resume hr outer => exact hr.nested (hn (hr.isSide.symm.trans hside))
  side w h hs := ⟨(invariant_leveled (layered_standing below)).side w h hs.leveled, trivial, nofun⟩
  joins failed' hs := by
    obtain ⟨hl, -, hn⟩ := hs
    refine ⟨(invariant_leveled (e := e) (layered_standing below)).joins failed' hl, trivial, fun hside => ?_⟩
    -- Whoever waits for a thread waits on, with its loops as they were.
    cases hn hside with
    | join h hm hfailed => exact .join h hm hfailed
  still hs hframes hbreak ha := by
    obtain ⟨hl, ho, hn⟩ := hs
    refine ⟨(invariant_leveled (e := e) (layered_standing below)).still hl hframes hbreak ha, ho.congr hframes,
      fun hside => ?_⟩
    exact (hn hside).congr hframes hbreak ha

/-- Only a thread on the side gives its stack up. -/
theorem Actor.Fits.of_started {t : Thread σ} {task : Task σ} {b : Nat} {outer : List (Caller σ)}
    (h : Fits ⟨t, task, .started b :: outer⟩) : outer = [.joiner] := by
  cases task with
  | cycle level =>
    obtain ⟨⟨_, _, he⟩, -⟩ := h
    cases he
  | leave level =>
    obtain ⟨⟨_, _, he⟩, -⟩ := h
    cases he
  | join failed =>
    obtain ⟨_, _, _, he, -⟩ := h
    cases he
  | done ok => exact h.plain_of_done nofun nofun
  | _ => exact h

namespace Actor.Stands

variable {s t : Snapshot σ} {below : List Frame} {ds : List Driver}

/-- A thread on the side stays above the innermost of its loops. -/
theorem floor_of_side (hs : s.actor.Stands below s.machine.world) (hfits : s.actor.Fits) (hside : s.actor.isSide = true) :
    Snapshot.Floor (Driver.base (loops s.callers)) [] ⟨s.machine, s.task, s.callers ++ standing below⟩ := by
  have hl : Snapshot.Leveled ⟨s.machine, s.task, s.callers ++ standing below⟩ := hs.leveled
  have hloops : loops (s.callers ++ standing below) = loops s.callers := loops_append rfl s.callers
  refine ⟨hloops ▸ hl.layered.base_loops_le, ?_, fun invocation ht _ => ?_, fun b outer he => ?_⟩
  · show Driver.base (loops (s.callers ++ standing below) ++ []) ≤ _
    rw [List.append_nil, hloops]
  · have hready := hl.ready
    simp only at ht
    rw [ht] at hready
    refine base_le fun d hd => Nat.le_sub_one_of_lt ?_
    exact (hl.layered.level_le (hloops ▸ hd)).2.trans_le hready
  · obtain ⟨m, task, callers⟩ := s
    cases callers with
    | nil => cases hside
    | cons caller rest =>
      obtain ⟨rfl, rfl⟩ := List.cons_eq_cons.1 he
      -- A thread on the side starts at its own copy, with nobody else's loop around it.
      cases hfits.of_started
      exact ⟨rfl, rfl⟩

/-- The first thread stays above the stack that it stands on. -/
theorem floor_of_first (hs : s.actor.Stands below s.machine.world) (hfits : s.actor.Fits) (hside : s.actor.isSide = false)
    (hds : Driver.base ds ≤ below.length) :
    Snapshot.Floor (max below.length (Driver.base (loops s.callers ++ ds))) ds
      ⟨s.machine, s.task, s.callers ++ standing below⟩ := by
  have hl : Snapshot.Leveled ⟨s.machine, s.task, s.callers ++ standing below⟩ := hs.leveled
  -- the callers of the first thread are those of a run on the stack below
  have hn : s.Nested (.stack below) := hs.nested hside
  have hloops : loops (s.callers ++ standing below) = loops s.callers := loops_append rfl s.callers
  have hlen : below.length ≤ floor (s.callers ++ standing below) :=
    (hn.base_append (standing below)).symm.le.trans hl.layered.base_le_floor
  have hdrivers : Driver.base (loops s.callers ++ ds) ≤ floor (s.callers ++ standing below) := by
    have hbase := hl.layered.base_loops_le
    rw [hloops] at hbase
    -- without loops of its own, the thread is above the loops that it came with
    cases hd : loops s.callers with
    | nil => exact hds.trans hlen
    | cons d inner =>
      rw [hd] at hbase
      exact hbase
  have hfl := max_le hlen hdrivers
  refine ⟨hfl, ?_, fun invocation ht hloop => ?_, fun b outer he => ?_⟩
  · show Driver.base (loops (s.callers ++ standing below) ++ ds) ≤ _
    rw [hloops]
    exact le_max_right _ _
  -- an attempt that may return from its frame is one of a cycle, and so above the level of the cycle
  · obtain ⟨m, task, callers⟩ := s
    cases ht
    cases hn with
    | perform h hi hm =>
      have hcyclic := hi.resolve_right (by simp [hloop])
      exact Nat.le_sub_one_of_lt ((hfl.trans_lt (h.floor_lt_ground hcyclic _)).trans_le hl.ready)
  · obtain ⟨m, task, callers⟩ := s
    cases callers with
    | nil => cases he
    | cons caller rest =>
      obtain ⟨rfl, -⟩ := List.cons_eq_cons.1 he
      cases hfits.of_started
      cases hside

/-- The turns that a thread takes in a step. -/
theorem turns (h : s.Step e t) (hf : ¬s.Forks e) (hj : ¬s.Awaits) (hs : s.actor.Stands below s.machine.world)
    (hfits : s.actor.Fits) {fl : Nat} (hfl : Snapshot.Floor fl ds ⟨s.machine, s.task, s.callers ++ standing below⟩) :
    Turns fl ds s.machine (loops s.callers) t.machine (loops t.callers) := by
  have hloops (callers : List (Caller σ)) : loops (callers ++ standing below) = loops callers := loops_append rfl callers
  rw [← hloops s.callers, ← hloops t.callers]
  cases h with
  | @begin m task n t callers hb outer =>
    have hl : Snapshot.Leveled ⟨m, task, outer ++ standing below⟩ := hs.leveled
    have hturns : Turns fl ds m _ n (loops (callers ++ (outer ++ standing below))) := hb.turns hf hj hl hs.owned hfl
    rwa [← List.append_assoc] at hturns
  | @resume m ok caller n t callers hr outer =>
    have hl : Snapshot.Leveled ⟨m, .done ok, caller :: (outer ++ standing below)⟩ := hs.leveled
    -- A thread waits for another one in a step of its own only.
    have hwaiting (thread : Thread σ) (failed : Nat) (he : caller = .waiting thread failed) : False := by
      subst he
      exact hfits.plain_of_done nofun nofun
    have hturns : Turns fl ds m _ n (loops (callers ++ (outer ++ standing below))) := hr.turns hl hfl hwaiting
    rwa [← List.append_assoc] at hturns

end Actor.Stands

/-! ## Scenes as pools

A scene has a pool in which each thread is a worker with its loops. A step of the scene is some steps of this pool. -/

theorem Machine.Sends.calm {m n : Machine σ} {level : Nat} {c : Command σ} {i : Instruction} {key : String}
    (h : m.Sends e level n c i key) : m.Calm n := by
  obtain ⟨-, ⟨text, hn, -⟩, -⟩ := h
  exact (nextStep_calm hn nofun).1

/-- A thread whose stack is empty holds nothing, and changes nothing when it is given up. -/
theorem Machine.finish_above {m : Machine σ} {ds : List Driver} {held : Multiset ScopeId} {others : Multiset (Worker σ)}
    {t : Thread σ} (ht : t.frames = []) (h : held ≤ (m.within ds (⟨t, []⟩ ::ₘ others)).held) :
    Pool.Above held (m.within ds (⟨t, []⟩ ::ₘ others)) (m.within ds others) ∧ held ≤ (m.within ds others).held := by
  have hworld : (⟨m.world, t⟩ : Machine σ).finish.world = m.world := by
    show ((⟨m.world, t⟩ : Machine σ).withScopes (releaseFrames · (t.frames.take _))).world = m.world
    rw [ht, List.take_nil]
    rfl
  -- A thread without frames holds nothing.
  have hheld : (m.within ds (⟨t, []⟩ ::ₘ others)).held = (m.within ds others).held := by
    show holders m.request.root (⟨m.thread, ds⟩ ::ₘ ⟨t, []⟩ ::ₘ others) =
      holders m.request.root (⟨m.thread, ds⟩ ::ₘ others)
    rw [Multiset.cons_swap, holders_cons]
    show heldBy t.frames [] + _ = _
    rw [ht]
    exact zero_add _
  rw [hheld] at h
  refine ⟨.single ?_ h, h⟩
  have hdrop : Pool.Step ⟨m.world, ⟨t, []⟩ ::ₘ ⟨m.thread, ds⟩ ::ₘ others⟩
      ⟨(⟨m.world, t⟩ : Machine σ).finish.world, ⟨m.thread, ds⟩ ::ₘ others⟩ :=
    @Pool.Step.drop σ _ ⟨t, []⟩ _ rfl rfl
  rw [hworld, Multiset.cons_swap] at hdrop
  exact hdrop

/-- A thread with the loops that it is in. One that is not on the side may have been in some from the beginning. -/
def Actor.worker (ds : List Driver) (a : Actor σ) : Worker σ :=
  ⟨a.thread, loops a.callers ++ if a.isSide then [] else ds⟩

/-- The pool of the threads of a scene, and of others that are not at work. -/
def Scene.pool (ds : List Driver) (idle : Multiset (Worker σ)) (s : Scene σ) : Pool σ :=
  ⟨s.world, s.actors.map (Actor.worker ds) + idle⟩

theorem Snapshot.pool_among (ds : List Driver) (idle : Multiset (Worker σ)) (s : Snapshot σ)
    (others : Multiset (Actor σ)) : (s.among others).pool ds idle =
      s.machine.within (loops s.callers ++ if s.actor.isSide then [] else ds) (others.map (Actor.worker ds) + idle) := by
  unfold Scene.pool Machine.within Snapshot.among
  rw [Multiset.map_cons, Multiset.cons_add]
  rfl

namespace Scene

/-- The first thread goes on above the stack that an instruction is looked at on, all others are on the side, and what is
held by that stack, by the loops that the thread was in before and by those who are not at work is to be held all the
time. -/
structure Stands (below : List Frame) (ds : List Driver) (held : Multiset ScopeId) (idle : Multiset (Worker σ))
    (s : Scene σ) : Prop where
  orderly : s.Orderly
  actors : ∀ a ∈ s.actors, a.Stands below s.world
  rests : ∀ a ∈ s.actors, a.isSide = false → RestsOn a.thread.frames below
  loops : Driver.base ds ≤ below.length
  held : held ≤ heldBy below ds + holders s.world.request.root idle

namespace Stands

variable {below : List Frame} {ds : List Driver} {held : Multiset ScopeId} {idle : Multiset (Worker σ)} {s t : Scene σ}

/-- Where the first thread is, all that is to be held is held. -/
theorem le_holders {a : Actor σ} {actors : Multiset (Actor σ)} {root : ScopeId}
    (hheld : held ≤ heldBy below ds + holders root idle) (ha : a ∈ actors) (hside : a.isSide = false)
    (hrests : RestsOn a.thread.frames below) : held ≤ holders root (actors.map (Actor.worker ds) + idle) := by
  obtain ⟨others, rfl⟩ := Multiset.exists_cons_of_mem ha
  have hworker : (a.worker ds).loops = Sequencer.loops a.callers ++ ds := by
    show _ ++ (if a.isSide = true then [] else ds) = _
    rw [if_neg (by simp [hside])]
  rw [Multiset.map_cons, Multiset.cons_add, holders_cons]
  refine hheld.trans (add_le_add ?_ (holders_le (Multiset.le_add_left idle _)))
  show _ ≤ heldBy a.thread.frames (a.worker ds).loops
  rw [hworker]
  exact (heldBy_le hrests ds).trans (heldBy_append_le _ _ ds)

theorem le_held (hs : Stands below ds held idle s) : held ≤ (s.pool ds idle).held := by
  obtain ⟨a, ha, hside⟩ := Multiset.countP_pos.1 (hs.orderly.one.symm ▸ Nat.one_pos)
  exact le_holders hs.held ha hside (hs.rests a ha hside)

/-- Steps that a thread takes by itself. -/
theorem act {u v : Snapshot σ} {others : Multiset (Actor σ)} (hs : Stands below ds held idle (u.among others))
    (h : u.Step e v) (hf : ¬u.Forks e) (hj : ¬u.Awaits) :
    Pool.Above held ((u.among others).pool ds idle) ((v.among others).pool ds idle) ∧
      ∀ a ∈ (v.among others).actors, a.isSide = false → RestsOn a.thread.frames below := by
  have hmem : u.actor ∈ (u.among others).actors := Multiset.mem_cons_self _ _
  have hactor := hs.actors _ hmem
  have hfits := (hs.orderly.actors _ hmem).fits
  have hgoes := (h.stays_orderly hf hj (hs.orderly.actors _ hmem)).2
  have hothers : ∀ a ∈ others, a.isSide = false → RestsOn a.thread.frames below :=
    (Multiset.forall_mem_cons.1 hs.rests).2
  rw [Snapshot.pool_among, Snapshot.pool_among, hgoes.isSide]
  cases hside : u.actor.isSide with
  | true =>
    -- the first thread is among the others
    obtain ⟨a, ha, hfirst⟩ := Multiset.countP_pos.1 (hs.orderly.one.symm ▸ Nat.one_pos)
    have hother : a ∈ others := by
      refine (Multiset.mem_cons.1 ha).resolve_left ?_
      rintro rfl
      cases hside.symm.trans hfirst
    have hheld : held ≤ heldBy [] [] + holders u.machine.request.root (others.map (Actor.worker ds) + idle) :=
      (zero_add (holders u.machine.request.root (others.map (Actor.worker ds) + idle))).symm ▸
        le_holders hs.held hother hfirst (hothers a hother hfirst)
    have hturns := hactor.turns h hf hj hfits (hactor.floor_of_side hfits hside)
    have hrests : RestsOn u.machine.frames [] := List.nil_suffix
    obtain ⟨habove, -⟩ := hturns.above (Nat.zero_le _) hrests hheld
    refine ⟨habove, Multiset.forall_mem_cons.2 ⟨fun hv => ?_, hothers⟩⟩
    cases (hgoes.isSide.trans hside).symm.trans hv
  | false =>
    have hheld : held ≤ heldBy below ds + holders u.machine.request.root (others.map (Actor.worker ds) + idle) :=
      hs.held.trans (add_le_add_right (holders_le (Multiset.le_add_left idle _)) _)
    have hturns := hactor.turns h hf hj hfits (hactor.floor_of_first hfits hside hs.loops)
    obtain ⟨habove, hrests⟩ := hturns.above (le_max_left _ _) (hs.rests _ hmem hside) hheld
    exact ⟨habove, Multiset.forall_mem_cons.2 ⟨fun _ => hrests, hothers⟩⟩

/-- A step of a scene is one of its pool, and what is to be held is held all the time. -/
theorem above (h : Step e s t) (hs : Stands below ds held idle s) : Pool.Above held (s.pool ds idle) (t.pool ds idle) ∧
    ∀ a ∈ t.actors, a.isSide = false → RestsOn a.thread.frames below := by
  cases h with
  | act hact hf hj others => exact hs.act hact hf hj
  -- The copy is a worker of the pool from the moment when it is made.
  | @fork m level n c i key hsends outer others =>
    obtain ⟨hparent, hothers⟩ := Multiset.forall_mem_cons.1 hs.rests
    have hheld := hs.le_held
    have hcalm := hsends.calm
    rw [Snapshot.pool_among] at hheld
    obtain ⟨hfetch, hheld⟩ := hcalm.above hheld
    obtain ⟨hfork, hheld⟩ := fork_above hheld
    obtain ⟨hset, -⟩ := (Calm.of_thread n.fork.1 (t := (n.forkInstruction i key).thread) rfl).above hheld
    refine ⟨?_, Multiset.forall_mem_cons.2 ⟨fun hside => ?_, Multiset.forall_mem_cons.2 ⟨nofun, hothers⟩⟩⟩
    · rw [Snapshot.pool_among, Snapshot.pool_among, Multiset.map_cons, Multiset.cons_add]
      exact hfetch.trans (hfork.trans hset)
    · exact (hparent hside).congr hcalm.frames
  -- a thread that cannot start is dropped again at once
  | @refuse m level n c i key hsends outer others =>
    obtain ⟨hparent, hothers⟩ := Multiset.forall_mem_cons.1 hs.rests
    have hcalm := hsends.calm
    have hheld := hs.le_held
    rw [Snapshot.pool_among] at hheld
    obtain ⟨hfetch, hheld⟩ := hcalm.above hheld
    obtain ⟨hfork, -⟩ := fork_above hheld
    refine ⟨?_, Multiset.forall_mem_cons.2 ⟨fun hside => ?_, hothers⟩⟩
    · rw [Snapshot.pool_among, Snapshot.pool_among]
      refine (hfetch.trans hfork).trans (.single ?_ hheld)
      unfold within
      rw [Multiset.cons_swap]
      exact @Pool.Step.drop σ _ ⟨n.fork.2, []⟩ _ rfl rfl
    · exact (hparent hside).congr hcalm.frames
  | @join m n failed id frames i key t ok hj hid outer others =>
    obtain ⟨hparent, hrest⟩ := Multiset.forall_mem_cons.1 hs.rests
    have hfits := (hs.orderly.actors _ (Multiset.mem_cons_of_mem (Multiset.mem_cons_self _ _))).fits
    -- the thread that is joined has left all frames, so that dropping it gives up nothing
    have ht : t.frames = [] := by
      rcases hfits with hplain | ⟨_, _, _, he, -⟩ | ⟨-, ht⟩
      · exact hplain.elim
      · cases he
      · exact ht
    obtain ⟨-, hcalm, -⟩ := jobs_of_nextJob hj
    have hheld := hs.le_held
    rw [Snapshot.pool_among, Multiset.map_cons, Multiset.cons_add] at hheld ⊢
    obtain ⟨hdrop, hheld⟩ := finish_above ht hheld
    obtain ⟨hnext, -⟩ := hcalm.above hheld
    rw [Snapshot.pool_among]
    refine ⟨hdrop.trans hnext, Multiset.forall_mem_cons.2 ⟨fun hside => ?_, (Multiset.forall_mem_cons.1 hrest).2⟩⟩
    exact (hparent hside).congr hcalm.frames
  -- a drift of the world is one between any two turns
  | @drift w v hdrift actors =>
    refine ⟨?_, hs.rests⟩
    obtain ⟨a, ha, -⟩ := Multiset.countP_pos.1 (hs.orderly.one.symm ▸ Nat.one_pos)
    obtain ⟨others, rfl⟩ := Multiset.exists_cons_of_mem ha
    have hcalm : (⟨w, a.thread⟩ : Machine σ).Calm ⟨v, a.thread⟩ := ⟨rfl, hdrift.scopes, hdrift.root, hdrift.aborted⟩
    have hheld := hs.le_held
    have hpool (w : World σ) : pool ds idle ⟨w, a ::ₘ others⟩ = _ := (a.snapshot w).pool_among ds idle others
    rw [hpool] at hheld
    rw [hpool, hpool]
    exact (hcalm.above hheld).1

/-- A step of a scene is a row of turns of its pool, and all that is held by others is still held. -/
theorem step (h : Step e s t) (hs : Stands below ds held idle s) : Stands below ds held idle t := by
  obtain ⟨habove, hrests⟩ := hs.above h
  refine ⟨h.stays_orderly hs.orderly, (invariant_stands below).step h hs.actors, hrests, hs.loops, ?_⟩
  have hroot : t.world.request.root = s.world.request.root := habove.onward.root
  exact hroot ▸ hs.held

/-- Whatever the threads of a scene come to, their pool comes to. -/
theorem reaches (h : Reaches e s t) (hs : Stands below ds held idle s) :
    Pool.Above held (s.pool ds idle) (t.pool ds idle) ∧ Stands below ds held idle t := by
  induction h with
  | refl => exact ⟨.refl, hs⟩
  | tail _ hstep ih => exact ⟨ih.1.trans (ih.2.above hstep).1, ih.2.step hstep⟩

end Stands
end Scene
end Sequencer
