import Mathlib.Data.Set.Card
import Mathlib.Order.Bounds.Basic
import Sequencer.Proofs.Forkless
import Sequencer.Proofs.Journal
import Sequencer.Proofs.Occupancy

/-!
# Memory follows depth

A run without forks has as many scopes at a time as it has frames, and one for the request. What may live longer than
its frame is the scope of a loop, between two passes; but nothing is fetched there. So the slots that a run has needed
in the end are those of its deepest stack.
-/

namespace Sequencer

open Machine

variable {σ : Type} {e : Engine σ}

/-! ## Steps

Each step of a thread by itself keeps account of all that lives. An arena grows only where a frame is pushed that is
deeper than any before. -/

variable {root : ScopeId}

theorem Machine.Sole.grows_trans {m o p n : Machine σ} (hmo : o.scopes.slots.size = m.scopes.slots.size)
    (h : Sole.Grows o p) (hpn : n.scopes.slots.size = p.scopes.slots.size) (hd : n.depth = p.depth) :
    Sole.Grows m n := by
  unfold Sole.Grows at h ⊢
  rw [hpn, h, hmo, hd]

/-- Every task begins with one scope for each frame again. A slot is taken only where a frame is pushed, and only
if none is free. -/
theorem Task.Begins.sole {m n : Machine σ} {task t : Task σ} {callers outer : List (Caller σ)}
    (h : task.Begins e m n t callers) (hf : ¬Snapshot.Forks e ⟨m, task, outer⟩)
    (ha : Snapshot.Alone ⟨m, task, outer⟩) (hl : Snapshot.Leveled ⟨m, task, outer⟩) (hs : Sole root m (loops outer)) :
    Sole root n (loops (callers ++ outer)) ∧ Sole.Grows m n := by
  have hlayered : Layered outer := hl.layered
  have hready := hl.ready
  have calm {n : Machine σ} (hc : m.Calm n) : Sole root n (loops outer) ∧ Sole.Grows m n := by
    obtain ⟨hn, hsize⟩ := hs.calm hc
    exact ⟨hn, hn.grows_of_eq hsize⟩
  have smaller {o n : Machine σ} (ho : o.scopes.slots.size = m.scopes.slots.size)
      (hn : Sole root n (loops outer) ∧ n.scopes.slots.size = o.scopes.slots.size) :
      Sole root n (loops outer) ∧ Sole.Grows m n := ⟨hn.1, hn.1.grows_of_eq (hn.2.trans ho)⟩
  -- the frames of all loops are on the stack where an instruction is at work
  have room (hg : ground outer ≤ m.depth) (d : Driver) (hd : d ∈ loops outer) : d.level < m.depth :=
    (hlayered.level_le hd).2.trans_le hg
  have looped {o : Machine σ} (hq : m.Quiet o) (hg : ground outer ≤ m.depth) (action : String) (results : List String)
      (params : Table Value) : Sole root ((o.push action results params).setLooping true) (loops outer) ∧
        Sole.Grows m ((o.push action results params).setLooping true) := by
    obtain ⟨ho, hsize⟩ := hs.calm hq.calm
    obtain ⟨hpush, hgrows⟩ := ho.push (hq.calm.depth.symm ▸ room hg) action results params
    obtain ⟨hset, hsize'⟩ := hpush.calm (setLooping_calm _ true)
    exact ⟨hset, Sole.grows_trans hsize hgrows hsize' (setLooping_calm _ true).depth⟩
  cases h with
  | aborted => exact calm (Quiet.refl m).calm
  | drained hm hn =>
    cases nextStep_cases hn with
    | drained => exact calm (Quiet.refl m).calm
    | advanced _ _ _ _ hne => exact absurd rfl hne
  | exhausted hm hn => exact calm (nextStep_calm hn nofun).1
  | @left level =>
    obtain ⟨hfloor, hlt⟩ := hready
    refine smaller rfl (hs.returnFrame none ?_)
    exact hlayered.base_loops_le.trans (hfloor.trans (Nat.le_sub_one_of_lt hlt))
  | undecodable hm hn => exact calm (nextStep_calm hn nofun).1
  | forked hm hn hd hp => exact absurd ⟨_, rfl, hm, _, _, _, _, _, hn, hd, hp⟩ hf
  | fetched hm hn => exact calm (nextStep_calm hn nofun).1
  | opened => exact calm (.of_thread m rfl)
  | unprepared hp => exact calm (quiet_prepare hp).calm
  | prepared hp => exact calm (quiet_prepare hp).calm
  | spent => exact calm (Quiet.refl m).calm
  | tried => exact calm (quiet_note m _).calm
  | immediate hi =>
    have hbase : Driver.base (loops outer) ≤ m.depth - 1 := base_le fun d hd => Nat.le_sub_one_of_lt (room hready d hd)
    cases immediate_cases hi with
    | @kept o b ok hq => exact calm (hq.calm.trans (.of_thread o rfl))
    | @called o hq action results params =>
      obtain ⟨ho, hsize⟩ := hs.calm hq.calm
      obtain ⟨hpush, hgrows⟩ := ho.push (hq.calm.depth.symm ▸ room hready) action results params
      exact ⟨hpush, Sole.grows_trans hsize hgrows rfl rfl⟩
    | @returned o hq explicit =>
      obtain ⟨ho, hsize⟩ := hs.calm hq.calm
      exact smaller hsize (ho.returnEarly explicit (hq.calm.depth.symm ▸ hbase))
    | broke => exact calm (breakLoop_calm m)
  | refused hl => exact calm (covers_quiet.of_refused hl).calm
  | looped hl =>
    obtain ⟨o, values, hq, rfl⟩ := covers_quiet.of_looped hl
    exact looped hq hready _ _ _
  | rejected hl => exact calm (covers_quiet.of_rejected hl).calm
  | ranged hl =>
    obtain ⟨o, values, hq, rfl⟩ := covers_quiet.of_ranged hl
    exact looped hq hready _ _ _
  | @unreadable c level o err hr =>
    obtain ⟨hground, hdepth⟩ := hready
    have hq := covers_quiet.of_read hr
    obtain ⟨ho, hsize⟩ := hs.calm hq.calm
    refine smaller hsize (ho.unwind level ?_ ?_)
    · exact base_le fun d hd => ((hlayered.level_le hd).2.trans_le hground).le
    · rw [hq.calm.depth]
      exact (Nat.le_succ level).trans (Nat.le_of_eq hdepth.symm)
  | chosen hr => exact calm (covers_quiet.of_read hr).calm
  | frameless => exact calm (Quiet.refl m).calm
  | @driven loop f below hfr =>
    have hlt : ground outer < m.depth := hready
    have hdepth : m.depth = below.length + 1 := (depth_disown m).symm.trans (congrArg List.length hfr)
    obtain ⟨hn, hsize⟩ := hs.beginLoop hfr fun d hd => by
      have := (hlayered.level_le hd).2
      omega
    exact ⟨hn, hn.grows_of_eq hsize⟩
  | @finished loop f o n ok hb hr =>
    obtain ⟨level, rest, rfl, hlevel⟩ := hready
    have hq := quiet_beforePass hb
    obtain ⟨ho, hsize⟩ := hs.calm (hq.calm.trans (setLooping_calm o false))
    have hdepth : (o.setLooping false).depth = level + 1 :=
      ((setLooping_calm o false).depth.trans hq.calm.depth).trans hlevel
    have hret := ho.returnFrame none (by rw [hdepth]; exact hlayered.base_loops_le)
    rw [hr] at hret
    exact smaller hsize hret
  | @stopped loop f o hb =>
    obtain ⟨level, rest, rfl, hlevel⟩ := hready
    have hq := quiet_beforePass hb
    obtain ⟨ho, hsize⟩ := hs.calm hq.calm
    have hdepth : m.depth - 1 = level := Nat.sub_eq_of_eq_add hlevel
    rw [hdepth]
    refine smaller hsize (ho.unwind level hlayered.base_loops_le ?_)
    rw [hq.calm.depth]
    exact (Nat.le_succ level).trans (Nat.le_of_eq hlevel.symm)
  | passed hb => exact calm (quiet_beforePass hb).calm
  | again hn => exact calm (quiet_afterPass hn).calm
  | @stuck level loop f o hn =>
    obtain ⟨⟨rest, rfl⟩, hdepth⟩ := hready
    have hq := quiet_afterPass hn
    obtain ⟨ho, hsize⟩ := hs.calm hq.calm
    refine smaller hsize (ho.unwind level hlayered.base_loops_le ?_)
    rw [hq.calm.depth]
    exact (Nat.le_succ level).trans (Nat.le_of_eq hdepth.symm)
  | joined => exact calm (Quiet.refl m).calm
  | worked hj =>
    obtain ⟨-, hc, -⟩ := jobs_of_nextJob hj
    exact calm ⟨hc.frames, hc.scopes, hc.root, hc.aborted⟩
  | unknown hj => cases (threadless_of_nextJob ha.jobs hj).1
  | started hj => cases (threadless_of_nextJob ha.jobs hj).1

/-- Whoever has waited goes on with one scope for each frame. -/
theorem Caller.Resumes.sole {m n : Machine σ} {ok : Bool} {caller : Caller σ} {t : Task σ}
    {callers outer : List (Caller σ)} (h : caller.Resumes m ok n t callers)
    (ha : Snapshot.Alone ⟨m, .done ok, caller :: outer⟩) (hl : Snapshot.Leveled ⟨m, .done ok, caller :: outer⟩)
    (hs : Sole root m (loops (caller :: outer))) : Sole root n (loops (callers ++ outer)) ∧ Sole.Grows m n := by
  have hlayered := hl.layered
  have haccepts := hl.accepts _ _ ⟨rfl, rfl⟩
  have hcaller := (List.forall_mem_cons.1 ha.callers).1
  -- Most returns do not touch the frames, and no scope comes or goes.
  have calm {n : Machine σ} {ds : List Driver} (hs : Sole root m ds) (hc : m.Calm n) :
      Sole root n ds ∧ Sole.Grows m n := by
    obtain ⟨hn, hsize⟩ := hs.calm hc
    exact ⟨hn, hn.grows_of_eq hsize⟩
  cases h with
  | advanced => exact calm hs (Quiet.refl m).calm
  | failed => exact calm hs (Quiet.refl m).calm
  | joins => exact calm hs (Quiet.refl m).calm
  | closed => exact calm hs (.of_thread m rfl)
  | succeeded => exact calm hs (Quiet.refl m).calm
  | gaveUp => exact calm hs (Quiet.refl m).calm
  | retried => exact calm hs (quiet_wait m _).calm
  | released =>
    obtain ⟨hn, hsize⟩ := Sole.leaveLoop hs haccepts.1
    exact ⟨hn, hn.grows_of_eq hsize⟩
  -- What a failed pass has left above the loop is unwound, scope by scope.
  | @unwound level loop f =>
    obtain ⟨⟨rest, rfl⟩, houter⟩ := hlayered
    obtain ⟨hn, hsize⟩ := hs.unwind level houter.base_loops_le haccepts.1
    exact ⟨hn, hn.grows_of_eq hsize⟩
  | @broken level loop f _ ht =>
    obtain ⟨⟨rest, rfl⟩, houter⟩ := hlayered
    obtain ⟨hu, hsize⟩ := hs.unwind level houter.base_loops_le haccepts.1
    obtain ⟨hn, hsize'⟩ := hu.calm (calm_of_takeBreak ht)
    exact ⟨hn, hn.grows_of_eq (hsize'.trans hsize)⟩
  -- The frame of the loop is put back on top for its next pass, with its own scope.
  | @put level loop f o ht =>
    obtain ⟨⟨rest, rfl⟩, houter⟩ := hlayered
    obtain ⟨hu, hsize⟩ := hs.unwind level houter.base_loops_le haccepts.1
    obtain ⟨ho, hsize'⟩ := hu.calm (calm_of_takeBreak ht)
    have hdepth : o.depth = level := (depth_of_takeBreak ht).trans (depth_unwind_of_le haccepts.1)
    have hn := Sole.repush ho hdepth fun d hd => (houter.2.level_le hd).2.trans_le houter.1
    exact ⟨hn, hn.grows_of_eq (hsize'.trans hsize)⟩
  -- The rest belongs to forks, and there are none.
  | called => exact hcaller.elim
  | simple => exact hcaller.elim
  | finished => exact hcaller.elim
  | waited => exact hcaller.elim

/-! ## Runs

A run is paid for if every fetch was at a depth that has its scopes. -/

/-- An instruction was fetched with one scope for each frame, and the outermost one. -/
def Event.Paid : Event → Prop
  | .fetched _ _ _ depth live => live = 1 + depth
  | _ => True

namespace Snapshot

/-- A run of one thread at some point. -/
structure Single (e : Engine σ) (root : ScopeId) (s : Snapshot σ) : Prop where
  forkFree : s.ForkFree e
  alone : s.Alone
  leveled : s.Leveled
  sole : Sole root s.machine (loops s.callers)

theorem Step.stays_single {s t : Snapshot σ} (h : Step e s t) (hs : s.Single e root) :
    t.Single e root ∧ Sole.Grows s.machine t.machine := by
  have hreach : Reaches e s t := .single h
  have ht : Sole root t.machine (loops t.callers) ∧ Sole.Grows s.machine t.machine := by
    cases h with
    | begin hb outer => exact hb.sole (hs.forkFree _ (.refl _)) hs.alone hs.leveled hs.sole
    | resume hr outer => exact hr.sole hs.alone hs.leveled hs.sole
  exact ⟨⟨hs.forkFree.reaches hreach, hreach.alone hs.forkFree hs.alone, hreach.leveled hs.leveled, ht.1⟩, ht.2⟩

/-- There are as many slots as at some time before, or as the deepest stack since then has needed. -/
theorem Reaches.stays_single {s t : Snapshot σ} (h : Reaches e s t) (hs : s.Single e root) : t.Single e root ∧
    s.machine.scopes.slots.size ≤ t.machine.scopes.slots.size ∧
    (t.machine.scopes.slots.size = s.machine.scopes.slots.size ∨
      ∃ c, Reaches e s c ∧ t.machine.scopes.slots.size = c.machine.depth + 1) := by
  induction h with
  | refl => exact ⟨hs, Nat.le_refl _, .inl rfl⟩
  | @tail t u hreach hstep ih =>
    obtain ⟨ht, hle, hsize⟩ := ih
    obtain ⟨hu, hgrows⟩ := hstep.stays_single ht
    unfold Sole.Grows at hgrows
    refine ⟨hu, hle.trans (hgrows ▸ le_max_left _ _), ?_⟩
    rcases max_choice t.machine.scopes.slots.size (u.machine.depth + 1) with hmax | hmax
    · rw [hgrows, hmax]
      exact hsize
    · exact .inr ⟨u, hreach.tail hstep, hgrows.trans hmax⟩

/-- Where an instruction is fetched, the frames of all loops are on the stack. -/
theorem Single.level_lt {s : Snapshot σ} (hs : s.Single e root) {level : Nat} (ht : s.task = .cycle level)
    (hlt : level < s.machine.depth) (d : Driver) (hd : d ∈ loops s.callers) : d.level < s.machine.depth := by
  have hready := hs.leveled.ready
  rw [ht] at hready
  exact ((hs.leveled.layered.level_le hd).1.trans hready.1).trans_lt hlt

/-- A step that fetches does so with all the scopes of its depth. -/
theorem Step.paid {s t : Snapshot σ} (h : Step e s t) (hs : s.Single e root) :
    s.machine.world.Records Event.Paid t.machine.world := by
  cases h with
  | begin hb outer =>
    refine hb.records.mono fun event hnote => ?_
    cases event with
    | fetched thread activation key depth live =>
      obtain ⟨level, f, below, rfl, -, hlt, -, -, -, -, rfl, rfl⟩ := hnote
      exact (hs.sole.live_eq (hs.level_lt rfl hlt)).trans (Nat.add_comm _ 1)
    | _ => exact trivial
  | resume hr outer =>
    refine hr.records.mono ?_
    rintro event (⟨thread, activation, action, rfl⟩ | ⟨thread, units, pause, total, rfl, hl⟩)
    · exact trivial
    · exact trivial

theorem Reaches.paid {s t : Snapshot σ} (h : Reaches e s t) (hs : s.Single e root) :
    s.machine.world.Records Event.Paid t.machine.world := by
  induction h with
  | refl => exact .refl _
  | tail hreach hstep ih => exact ih.trans (hstep.paid (Reaches.stays_single hreach hs).1)

end Snapshot

/-! ## Runs of an action

A fresh request has its root scope and no other, and comes back to it. -/

namespace Engine

open Snapshot

theorem sole_enter {w : World σ} {params : Table Value} {session : Option String}
    (hw : w.request = Request.new params session) : Sole w.request.root w.enter [] := by
  have hnone : ∀ p, none = some p → Arena.new.isLive p := nofun
  have hroot : w.request.root = (Arena.new.alloc none params).2 := by rw [hw]; rfl
  have hscopes : w.enter.scopes = (Arena.new.alloc none params).1 := by
    show w.request.scopes = _
    rw [hw]
    rfl
  refine ⟨⟨?_, Multiset.mem_singleton_self _, ⟨?_, ?_, nofun, List.Pairwise.nil, nofun⟩⟩, rfl, ?_, nofun⟩
  · rw [hscopes, hroot]
    exact Arena.balanced_new.alloc hnone params
  · intro f below hsuf
    cases List.suffix_nil.1 hsuf
  · intro f below hsuf
    cases List.suffix_nil.1 hsuf
  · rw [hscopes, hroot]
    exact Arena.balanced_new.tidy.parent?_alloc none params

/-- A fresh request has its outermost scope, and the action that it runs has one more. -/
theorem single_started {w : World σ} {params : Table Value} {session : Option String}
    (hw : w.request = Request.new params session) {action : String} (hf : (started w action).ForkFree e) :
    (started w action).Single e w.request.root ∧ (started w action).machine.scopes.slots.size = 2 := by
  obtain ⟨hs, hgrows⟩ := (sole_enter hw).push nofun action (splitNames actionResult) []
  refine ⟨⟨hf, alone_started w action, leveled_started w action, hs⟩, hgrows.trans ?_⟩
  have hsize : w.enter.scopes.slots.size = 1 := by
    show w.request.scopes.slots.size = 1
    rw [hw]
    rfl
  rw [hsize]
  rfl

/-- Memory follows the depth of the stack, and not the length of the run. Wherever an instruction is fetched there is
one scope for each frame, and the outermost one. When the run has ended only that one lives, and there are as many
slots as the deepest stack of the run has needed. -/
theorem memory_follows_depth {w : World σ} {params : Table Value} {session : Option String}
    (hw : w.request = Request.new params session) {action : String} (hf : (started w action).ForkFree e) :
    (∀ t level, Reaches e (started w action) t → t.task = .cycle level → level < t.machine.depth →
      t.machine.scopes.live = 1 + t.machine.depth ∧ {id | t.machine.scopes.isLive id}.ncard = 1 + t.machine.depth) ∧
    (∀ t, Reaches e (started w action) t → ∃ events, t.machine.world.journal = events ++ w.journal ∧
      ∀ thread activation key depth live, .fetched thread activation key depth live ∈ events → live = 1 + depth) ∧
    ∀ fuel w' ok, e.execute fuel w action = some (w', ok) →
      (∀ id, w'.request.scopes.isLive id ↔ id = w.request.root) ∧ w'.request.scopes.live = 1 ∧
      ∃ d, IsGreatest {d | ∃ t, Reaches e (started w action) t ∧ t.machine.depth = d} d ∧
        w'.request.scopes.slots.size = 1 + d := by
  obtain ⟨hs, hsize⟩ := single_started hw hf
  refine ⟨fun t level ht htask hlt => ?_, fun t ht => ?_, fun fuel w' ok hrun => ?_⟩
  · have hsingle := (ht.stays_single hs).1
    have hlevels := hsingle.level_lt htask hlt
    refine ⟨(hsingle.sole.live_eq hlevels).trans (Nat.add_comm _ 1), ?_⟩
    -- the scopes that are live are those on the stack and the outermost one
    have hset : {id | t.machine.scopes.isLive id} = (scopesOutwards w.request.root t.machine.frames).toFinset := by
      ext id
      rw [Finset.mem_coe, List.mem_toFinset]
      exact ⟨hsingle.sole.mem_of_isLive hlevels, hsingle.sole.isLive_of_mem⟩
    rw [hset, Set.ncard_coe_finset, List.toFinset_card_of_nodup hsingle.sole.nodup_outwards, Sole.length_outwards,
      Nat.add_comm]
  · have hstart : w.Records Event.Paid (started w action).machine.world :=
      ⟨id, ⟨[.entered w.threads w.activations action], rfl, List.forall_mem_singleton.2 trivial⟩, Nat.le_succ _⟩
    obtain ⟨events, hjournal, hpaid⟩ := (hstart.trans (ht.paid hs)).journal
    exact ⟨events, hjournal, fun thread activation key depth live hmem => hpaid _ hmem⟩
  · obtain ⟨n, hreach, rfl⟩ := reaches_of_execute hrun
    obtain ⟨hn, -, hpeak⟩ := hreach.stays_single hs
    obtain ⟨hfinish, hslots⟩ : Sole w.request.root n.finish [] ∧ n.finish.scopes.slots.size = n.scopes.slots.size :=
      hn.sole.unwind 0 (Nat.le_refl 0) (Nat.zero_le _)
    have hdepth : n.finish.depth = 0 := (depth_unwind n 0).trans (Nat.min_zero _)
    have hempty : n.finish.frames = [] := List.length_eq_zero_iff.1 hdepth
    refine ⟨fun id => ?_, (hfinish.live_eq nofun).trans (congrArg (· + 1) hdepth), ?_⟩
    · have hmem : n.finish.scopes.isLive id ↔ id ∈ scopesOutwards w.request.root n.finish.frames :=
        ⟨hfinish.mem_of_isLive nofun, hfinish.isLive_of_mem⟩
      rw [hempty] at hmem
      exact hmem.trans List.mem_singleton
    · -- the deepest stack so far is that of the beginning or of a later snapshot
      obtain ⟨c, hc, hcsize⟩ : ∃ c, Reaches e (started w action) c ∧
          n.scopes.slots.size = c.machine.depth + 1 := by
        rcases hpeak with hsame | hlater
        · exact ⟨_, .refl _, hsame.trans hsize⟩
        · exact hlater
      refine ⟨c.machine.depth, ⟨⟨c, hc, rfl⟩, ?_⟩, hslots.trans (hcsize.trans (Nat.add_comm _ 1))⟩
      rintro _ ⟨t, ht, rfl⟩
      -- no snapshot of the run is after its end, so that the arena has room for the stack of each
      have htn : Reaches e t ⟨n, .done ok, []⟩ := hreach.to_done ht
      have hsingle := (ht.stays_single hs).1
      have hle := hsingle.sole.lt_size.trans (htn.stays_single hsingle).2.1
      exact Nat.le_of_succ_le_succ (hle.trans (Nat.le_of_eq hcsize))

/-- An engine that can loop and call, with a command of the host program that does nothing. -/
def climbing : Engine Unit :=
  ⟨[("range", .builtin .loopRange), ("call", .builtin .call),
    ("tick", .host ⟨true, fun _ _ => .ok fun _ => .simple () true⟩)], fun _ => .error .notFound⟩

/-- A world with an action that calls another one from the body of a loop over two elements. -/
def climbed : World Unit :=
  World.new (Store.ofProperties
    [("ITEMS", .arr [.str "a", .str "b"]), ("RUN_1", .str "range:\x7b\"range\":\"ITEMS\",\"body\":\"BODY\"\x7d"),
      ("BODY_1", .str "call:\x7b\"action\":\"SUB\"\x7d"), ("SUB_1", .str "tick:")]) (Request.new [] none) ()

/-- Its run has begun six activations, and ends with the slots for three frames. -/
theorem memory_follows_depth_climbed : ∃ w', climbing.execute 60 climbed "RUN" = some (w', true) ∧
    w'.activations = 6 ∧ w'.request.scopes.live = 1 ∧ w'.request.scopes.slots.size = 4 ∧
    IsGreatest {d | ∃ t, Reaches climbing (started climbed "RUN") t ∧ t.machine.depth = d} 3 := by
  have hresult : (climbing.execute 60 climbed "RUN").map
      (fun r => (r.2, r.1.threads, r.1.activations, r.1.request.scopes.slots.size)) = some (true, 1, 6, 4) := by
    decide +kernel
  obtain ⟨⟨w', ok⟩, hrun, he⟩ := Option.map_eq_some_iff.1 hresult
  have hok : ok = true := congrArg Prod.fst he
  have hthreads : w'.threads = 1 := congrArg (fun r => r.2.1) he
  have hactivations : w'.activations = 6 := congrArg (fun r => r.2.2.1) he
  have hsize : w'.request.scopes.slots.size = 4 := congrArg (fun r => r.2.2.2) he
  subst hok
  have hfree : (started climbed "RUN").ForkFree climbing := forkFree_of_execute hrun hthreads
  obtain ⟨-, -, hend⟩ := memory_follows_depth (w := climbed) rfl hfree
  obtain ⟨-, hlive, d, hgreatest, hslots⟩ := hend 60 w' true hrun
  obtain rfl : d = 3 := by omega
  exact ⟨w', hrun, hactivations, hlive, hsize, hgreatest⟩

end Engine
end Sequencer
