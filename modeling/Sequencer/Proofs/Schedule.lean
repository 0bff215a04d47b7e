import Sequencer.Proofs.Attempt
import Sequencer.Proofs.Reachable

/-!
# Runs take turns

A run of the interpreter is one of the orders in which the threads of a pool can take their turns: the
thread that runs, and the jobs that it starts on the side. While it runs from a level upwards it leaves
what lies below standing, and never gives up what is held there, by other threads, or by the loops that it
was in before. So all that holds of every pool that can be reached holds in the middle of every run.
-/

namespace Sequencer

variable {σ : Type}

/-! ## Steps that keep some holds

Between the first and the last of some steps, the scopes that are held all the time stay where they are. -/

namespace Pool

/-- Steps in a row through pools in which some scopes are always held. -/
def Above (held : Multiset ScopeId) : Pool σ → Pool σ → Prop :=
  Relation.ReflTransGen fun p q => p.Step q ∧ held ≤ q.held

namespace Above

variable {held : Multiset ScopeId} {p q : Pool σ}

/-- One step is enough if the holds are still there after it. -/
theorem single (h : p.Step q) (hq : held ≤ q.held) : Above held p q :=
  Relation.ReflTransGen.single ⟨h, hq⟩

/-- Steps that keep the holds follow one another. -/
theorem trans {o : Pool σ} (h₁ : Above held o p) (h₂ : Above held p q) : Above held o q :=
  Relation.ReflTransGen.trans h₁ h₂

/-- Whatever the steps are, the world only goes on. -/
theorem onward (h : Above held p q) : p.world.Onward q.world := by
  induction h with
  | refl => exact ⟨rfl, id⟩
  | tail _ hs ih =>
    have ho := hs.1.onward
    exact ⟨ho.root.trans ih.root, fun ha => ho.aborted (ih.aborted ha)⟩

/-- They lead to pools that can be reached. -/
theorem reachable (h : Above held p q) (hp : p.Reachable) : q.Reachable := by
  induction h with
  | refl => exact hp
  | tail _ hs ih => exact ih.step hs.1

/-- What is held all the way keeps its place among the scopes. -/
theorem keeps (h : Above held p q) (hp : p.Sound) (hheld : held ≤ p.held) :
    q.Sound ∧ held ≤ q.held ∧ Arena.Keeps held p.scopes q.scopes := by
  induction h with
  | refl => exact ⟨hp, hheld, .refl hp.balanced hheld⟩
  | tail _ hs ih =>
    obtain ⟨ho, hle, hk⟩ := ih
    obtain ⟨hq, hstable⟩ := hs.1.sound ho
    exact ⟨hq, hs.2, hk.trans (.of_stable ho.balanced hq.balanced hle hs.2 hstable)⟩

end Above
end Pool

/-! ## One thread among others

A thread takes its turns while others have holds of their own. What it stands on is a base that it does not leave. -/

namespace Machine

/-- The pool of a thread in some loops and of other threads. -/
def within (m : Machine σ) (ds : List Driver) (others : Multiset (Worker σ)) : Pool σ :=
  ⟨m.world, ⟨m.thread, ds⟩ ::ₘ others⟩

end Machine

/-- The first thread of a request may begin with any action. -/
theorem Pool.Reachable.begin {w : World σ} (h : Pool.Initial ⟨w, 0⟩) (action : String)
    (results : List String) (params : Table Value) :
    ((w.enter.push action results params).within [] 0).Reachable := by
  have hw : Pool.Reachable ⟨w, 0⟩ := ⟨⟨w, 0⟩, h, .refl⟩
  have henter : (w.enter.within [] 0).Reachable := hw.step .enter
  have hturn : Turn 0 w.enter [] (w.enter.push action results params) [] := .push action results params
  exact henter.step (@Pool.Step.turn σ (w.enter.within [] 0) ⟨w.enter.thread, []⟩ 0 _ _ rfl hturn)

/-- The first thread of a request, in an activation of an action, with what the host program has among its properties. -/
def Pool.beginner (properties : Table Value) : Machine Unit :=
  (World.new (Store.ofProperties properties) (Request.new [] none) ()).enter.push "OUTER" [] []

/-- A thread that begins by itself is a pool of one. -/
theorem Pool.reachable_beginner (properties : Table Value) :
    ((beginner properties).within [] 0).Reachable := .begin ⟨rfl, [], none, false, rfl⟩ "OUTER" [] []

/-- Frames that rest on others own what these own. -/
theorem ownedScopes_le {fs base : List Frame} (h : RestsOn fs base) :
    (↑(ownedScopes base) : Multiset ScopeId) ≤ ↑(ownedScopes fs) := by
  obtain ⟨above, he⟩ := h
  rw [← ownedScopes_core base, ← ownedScopes_core fs, ← he, ownedScopes_append, ← Multiset.coe_add]
  exact Multiset.le_add_left _ _

/-- And what the loops hold together with them is held as well. -/
theorem heldBy_le {fs base : List Frame} (h : RestsOn fs base) (ds : List Driver) :
    heldBy base ds ≤ heldBy fs ds := by
  unfold heldBy
  exact add_le_add_left (ownedScopes_le h) _

/-- More workers hold more. -/
theorem holders_le {root : ScopeId} {others others' : Multiset (Worker σ)} (h : others ≤ others') :
    holders root others ≤ holders root others' := by
  obtain ⟨more, rfl⟩ := Multiset.le_iff_exists_add.1 h
  unfold holders
  rw [Multiset.add_bind, ← Multiset.cons_add]
  exact Multiset.le_add_right _ _

/-- A thread stands on a base that its turns are to leave alone, as do its loops, and there it holds, together
with others, what is to be held all the time. -/
structure Stance (base : List Frame) (ds : List Driver) (held : Multiset ScopeId)
    (others : Multiset (Worker σ)) (m : Machine σ) : Prop where
  rests : RestsOn m.frames base
  loops : Driver.base ds ≤ base.length
  held : held ≤ heldBy base ds + holders m.request.root others

/-- For a thread in no loop, with nothing to look after, all that matters is the stack it stands on. -/
theorem Stance.of_rests {base : List Frame} {m : Machine σ} (h : RestsOn m.frames base) :
    Stance base [] 0 (0 : Multiset (Worker σ)) m := ⟨h, Nat.zero_le _, Multiset.zero_le _⟩

/-- Every thread stands on the empty stack. -/
theorem Stance.free (m : Machine σ) : Stance [] [] 0 (0 : Multiset (Worker σ)) m := .of_rests List.nil_suffix

/-- A thread has moved on from one machine to another, and stands where it stood. -/
structure Leads (base : List Frame) (ds : List Driver) (held : Multiset ScopeId)
    (others : Multiset (Worker σ)) (m n : Machine σ) : Prop where
  above : Pool.Above held (m.within ds others) (n.within ds others)
  stance : Stance base ds held others n

namespace Stance

variable {base : List Frame} {ds : List Driver} {held : Multiset ScopeId}
  {others : Multiset (Worker σ)} {m n : Machine σ}

/-- To stay is a way to go on. -/
theorem refl (hs : Stance base ds held others m) : Leads base ds held others m m := ⟨.refl, hs⟩

/-- What a thread stands for is held in its pool. -/
theorem le_held (hs : Stance base ds held others m) : held ≤ (m.within ds others).held := by
  refine hs.held.trans ?_
  show _ ≤ holders m.request.root (_ ::ₘ others)
  rw [holders_cons]
  exact add_le_add_left (heldBy_le hs.rests ds) _

/-- Others may come without any harm. -/
theorem more (hs : Stance base ds held others m) {others' : Multiset (Worker σ)}
    (h : others ≤ others') : Stance base ds held others' m :=
  ⟨hs.rests, hs.loops, hs.held.trans (add_le_add_right (holders_le h) _)⟩

/-- A turn above the base. The loops that it is in may differ afterwards, if they hold as much. -/
theorem step (hs : Stance base ds held others m) {ds' : List Driver} (h : Turn base.length m ds n ds')
    (hs' : Stance base ds' held others n) :
    Pool.Above held (m.within ds others) (n.within ds' others) :=
  .single (.turn rfl (h.mono hs.loops)) hs'.le_held

/-- A turn leaves the thread where it stands. -/
theorem after (hs : Stance base ds held others m) (h : Turn base.length m ds n ds) :
    Stance base ds held others n :=
  ⟨h.rests le_rfl hs.rests, hs.loops, h.onward.root ▸ hs.held⟩

/-- A thread in no loop may do what it likes. -/
theorem alone {w : World σ} {t : Thread σ} (h : held ≤ holders w.request.root others) :
    Stance [] [] held others ⟨w, t⟩ :=
  ⟨List.nil_suffix, Nat.zero_le 0, (zero_add (holders w.request.root others)).symm ▸ h⟩

/-- A thread in no loop may be given up. -/
theorem giveUp (h : held ≤ holders m.request.root others) :
    Pool.Above held (m.within [] others) ⟨m.finish.world, others⟩ :=
  .single (@Pool.Step.drop σ (m.within [] others) ⟨m.thread, []⟩ others rfl rfl) h

end Stance

namespace Leads

variable {base : List Frame} {ds : List Driver} {held : Multiset ScopeId}
  {others : Multiset (Worker σ)} {m n o : Machine σ}

/-- A thread that goes on twice goes on. -/
theorem trans (h₁ : Leads base ds held others m n) (h₂ : Leads base ds held others n o) :
    Leads base ds held others m o := ⟨h₁.above.trans h₂.above, h₂.stance⟩

/-- It may go on by a turn. -/
theorem turn (h : Leads base ds held others m n) (ht : Turn base.length n ds o ds) :
    Leads base ds held others m o :=
  ⟨h.above.trans (h.stance.step ht (h.stance.after ht)), h.stance.after ht⟩

/-- Or by something that no reference takes part in. -/
theorem calm (h : Leads base ds held others m n) (hc : n.Calm o) : Leads base ds held others m o :=
  h.turn (.calm hc)

end Leads

/-! ## Single steps of a run

Each step of a derivation is some turns of the thread. -/

namespace Machine

variable {base : List Frame} {ds : List Driver} {held : Multiset ScopeId}
  {others : Multiset (Worker σ)} {m n o : Machine σ}

/-- The threads that a machine has to wait for, which are in no loop. -/
def pending (m : Machine σ) : Multiset (Worker σ) :=
  ↑((m.jobs.flatMap Job.threads).map fun t => (⟨t, []⟩ : Worker σ))

/-- With the jobs stay the threads that are waited for. -/
theorem Awaits.pending (h : m.Awaits n) : n.pending = m.pending := by
  unfold Machine.pending
  rw [h.jobs]

/-- Marking a frame as looping takes no reference. -/
theorem setLooping_calm (m : Machine σ) (looping : Bool) : m.Calm (m.setLooping looping) := by
  unfold setLooping
  split
  · next f below hf =>
    refine Calm.of_thread m ?_
    rw [hf]
    rfl
  · exact (Quiet.refl m).calm

/-- And starts no job. -/
theorem barrier_setLooping (m : Machine σ) (looping : Bool) :
    (m.setLooping looping).thread.barrier = m.thread.barrier := by
  unfold setLooping
  split <;> rfl

/-- A stack that is cut off at its base is the base. -/
theorem unwind_core (h : RestsOn m.frames base) :
    (m.unwind base.length).frames.map Frame.core = base.map Frame.core := by
  have hb := List.suffix_iff_eq_drop.1 h
  rw [List.length_map, List.length_map] at hb
  show (m.frames.drop (m.frames.length - base.length)).map Frame.core = _
  rw [List.map_drop]
  exact hb.symm

/-- Taking a break clears a mark and does nothing else. -/
theorem calm_of_takeBreak {index : Nat} {broken : Bool} (h : m.takeBreak index = (n, broken)) : m.Calm n := by
  cases broken with
  | true =>
    obtain ⟨-, rfl⟩ := takeBreak_eq_true_iff.1 h
    exact Calm.of_thread m rfl
  | false =>
    obtain ⟨-, rfl⟩ := takeBreak_eq_false_iff.1 h
    exact (Quiet.refl _).calm

/-- The stack stays as high as it was. -/
theorem depth_of_takeBreak {index : Nat} {broken : Bool} (h : m.takeBreak index = (n, broken)) :
    n.depth = m.depth := (calm_of_takeBreak h).depth

/-- The jobs stay registered. -/
theorem barrier_of_takeBreak {index : Nat} {broken : Bool} (h : m.takeBreak index = (n, broken)) :
    n.thread.barrier = m.thread.barrier := by
  unfold takeBreak at h
  split_ifs at h <;> cases h <;> rfl

/-- Whatever an attempt comes to, its thread has only taken turns. -/
theorem Attempted.leads {ok : Bool} (h : Attempted m n ok) (hs : Stance base ds held others m)
    (hd : base.length ≤ m.depth - 1) : Leads base ds held others m n := by
  cases h with
  | kept hq hb hj => exact (hs.refl.calm hq.calm).calm (Calm.of_thread _ rfl)
  | called hq action results params => exact (hs.refl.calm hq.calm).turn (.push action results params)
  | returned hq explicit =>
    exact (hs.refl.calm hq.calm).turn (.returnEarly explicit (hq.calm.depth.symm ▸ hd))
  | broke => exact hs.refl.calm (breakLoop_calm m)

/-- Entering takes a reference on a new scope, or on that of the loop. -/
theorem Entered.leads {loop : Option Loop} (h : Entered m n loop) (hs : Stance base ds held others m) :
    Leads base ds held others m n := by
  have began : ∀ {o n : Machine σ} {body results params}, m.Quiet o →
      ((o.push body results params).setLooping true).Quiet n → Leads base ds held others m n := by
    intro o n body results params hq hn
    have h₁ := (hs.refl.calm hq.calm).turn (.push body results params)
    exact (h₁.calm (setLooping_calm _ true)).calm hn.calm
  cases h with
  | refused hq => exact hs.refl.calm hq.calm
  | unwound hq body results params hn =>
    exact (began hq hn).turn (.unwind m.depth hs.rests.length_le)
  | began hq body results params hn => exact began hq hn

/-- Nothing is started on the side by entering. -/
theorem Entered.barrier {loop : Option Loop} (h : Entered m n loop) :
    n.thread.barrier = m.thread.barrier := by
  cases h with
  | refused hq => exact hq.barrier
  | unwound hq body results params hn => exact hn.barrier.trans hq.barrier
  | began hq body results params hn => exact hn.barrier.trans hq.barrier

/-- And no break is marked by it. -/
theorem Entered.breakAt {loop : Option Loop} (h : Entered m n loop) :
    n.thread.breakAt = m.thread.breakAt := by
  cases h with
  | refused hq => exact hq.breakAt
  | unwound hq body results params hn => exact hn.breakAt.trans hq.breakAt
  | began hq body results params hn => exact hn.breakAt.trans hq.breakAt

/-- A loop that does not begin leaves the stack as it was. -/
theorem Entered.stays (h : Entered m n none) : n.frames = m.frames := by
  cases h with
  | refused hq => exact hq.frames
  | @unwound o n hq body results params hn =>
    have hframes : n.frames = _ :: o.frames := hn.frames
    have hdepth : n.depth - m.depth = 1 := by
      unfold depth
      rw [hframes, ← hq.frames, List.length_cons]
      omega
    show n.frames.drop (n.depth - m.depth) = m.frames
    rw [hdepth, hframes, ← hq.frames]
    rfl

/-- A loop that begins has a frame of its own on the stack, which holds a scope of its own. -/
theorem Entered.frame {loop : Loop} (h : Entered m n (some loop)) :
    ∃ f, n.frames = f :: m.frames ∧ f.ownsScope = true ∧ f.looping = true := by
  cases h with
  | began hq body results params hn =>
    have hframes : n.frames = _ :: _ := hn.frames
    rw [← hq.frames]
    exact ⟨_, hframes, rfl, rfl⟩

/-- An instruction on the side is one more to wait for. -/
theorem jobs_forkInstruction (hb : m.thread.barrier.isSome) (i : Instruction) (key : String) :
    (m.forkInstruction i key).jobs = m.jobs ++ [.instruction m.fork.2.id m.fork.2.frames i key] := by
  obtain ⟨b, hbar⟩ := Option.isSome_iff_exists.1 hb
  show Barrier.jobs (m.thread.barrier.map (·.register (.instruction m.fork.2.id m.fork.2.frames i key))) = _
  unfold jobs
  rw [hbar]
  exact List.flatMap_append

/-- A fork is registered where there is a barrier for it, and lost where there is none. -/
theorem isSome_forkInstruction (m : Machine σ) (i : Instruction) (key : String) :
    (m.forkInstruction i key).thread.barrier.isSome = m.thread.barrier.isSome := Option.isSome_map ..

/-- What is held stays held where nothing changes that counts. -/
theorem Calm.above (hc : m.Calm n) (h : held ≤ (m.within ds others).held) :
    Pool.Above held (m.within ds others) (n.within ds others) ∧ held ≤ (n.within ds others).held := by
  have hheld : (n.within ds others).held = (m.within ds others).held := by
    show holders n.request.root (_ ::ₘ others) = holders m.request.root (_ ::ₘ others)
    rw [hc.root, holders_cons, holders_cons]
    show heldBy n.frames ds + _ = heldBy m.frames ds + _
    unfold heldBy
    rw [ownedScopes_congr hc.frames]
  rw [← hheld] at h
  exact ⟨.single (.turn rfl (.calm hc)) h, h⟩

/-- A copy of a stack is one more thread. -/
theorem fork_above (h : held ≤ (m.within ds others).held) :
    Pool.Above held (m.within ds others) (m.fork.1.within ds (⟨m.fork.2, []⟩ ::ₘ others)) ∧
      held ≤ (m.fork.1.within ds (⟨m.fork.2, []⟩ ::ₘ others)).held := by
  have hheld : held ≤ (m.fork.1.within ds (⟨m.fork.2, []⟩ ::ₘ others)).held :=
    h.trans (holders_le (Multiset.cons_le_cons _ (Multiset.le_cons_self others _)))
  refine ⟨.single ?_ hheld, hheld⟩
  have hfork : (m.within ds others).Step _ := .fork rfl
  unfold within
  rw [Multiset.cons_swap]
  exact hfork

/-- The thread of an instruction on the side is one more to wait for. -/
theorem forkInstruction_above (hs : Stance base ds held (m.pending + others) m)
    (hb : m.thread.barrier.isSome) (i : Instruction) (key : String) :
    Pool.Above held (m.within ds (m.pending + others))
        ((m.forkInstruction i key).within ds ((m.forkInstruction i key).pending + others)) ∧
      Stance base ds held ((m.forkInstruction i key).pending + others) (m.forkInstruction i key) ∧
      (m.forkInstruction i key).thread.barrier.isSome := by
  have hpending : (m.forkInstruction i key).pending = ⟨m.fork.2, []⟩ ::ₘ m.pending := by
    unfold pending
    rw [jobs_forkInstruction hb, List.flatMap_append, List.map_append, ← Multiset.coe_add, add_comm]
    rfl
  have hcalm : m.fork.1.Calm (m.forkInstruction i key) := Calm.of_thread m.fork.1 rfl
  obtain ⟨hfork, hheld⟩ := fork_above hs.le_held
  obtain ⟨hset, -⟩ := hcalm.above hheld
  have hmore := hs.more (Multiset.le_cons_self (m.pending + others) ⟨m.fork.2, []⟩)
  rw [hpending, Multiset.cons_add]
  exact ⟨hfork.trans hset, ⟨hmore.rests, hmore.loops, hmore.held⟩, (isSome_forkInstruction m i key).trans hb⟩

/-- The next job is the oldest one, and the others are left. -/
theorem jobs_of_nextJob {job : Job σ} (h : m.nextJob = some (job, n)) :
    m.jobs = job.instructions ++ n.jobs ∧ m.Calm n ∧ n.world = m.world := by
  obtain ⟨rest, hb, rfl⟩ := barrier_of_nextJob h
  refine ⟨?_, Calm.of_thread m rfl, rfl⟩
  unfold jobs
  rw [hb]
  rfl

/-- Where no instruction is waited for, the job that comes next is none. -/
theorem threadless_of_nextJob {job : Job σ} (hjobs : m.jobs = []) (h : m.nextJob = some (job, n)) :
    job.instructions = [] ∧ n.jobs = [] :=
  List.append_eq_nil_iff.1 ((jobs_of_nextJob h).1.symm.trans hjobs)

/-- There is none only if all are done. -/
theorem jobs_of_nextJob_none (h : m.nextJob = none) : m.jobs = [] := by
  unfold jobs Barrier.jobs
  rcases hb : m.thread.barrier with _ | ⟨_ | ⟨job, rest⟩⟩
  · rfl
  · rfl
  · cases h.symm.trans (nextJob_of_barrier hb)

end Machine

/-! ## Between the passes of a loop

At the end of a pass the thread is back on the level of the loop. -/

namespace Leads

variable {base : List Frame} {ds : List Driver} {held : Multiset ScopeId}
  {others : Multiset (Worker σ)} {m n o : Machine σ}

/-- A pass that ends cuts the stack off at its base. -/
theorem unwind (h : Leads base ds held others m n) :
    Leads base ds held others m (n.unwind base.length) ∧
      (n.unwind base.length).frames.map Frame.core = base.map Frame.core :=
  ⟨h.turn (.unwind base.length le_rfl), Machine.unwind_core h.stance.rests⟩

/-- After a pass the frames above the loop are gone, and a break that was meant for it is taken. -/
theorem takeBreak (h : Leads base ds held others m n) {broken : Bool}
    (ht : (n.unwind base.length).takeBreak base.length = (o, broken)) :
    Leads base ds held others m o ∧ o.frames.map Frame.core = base.map Frame.core ∧
      o.thread.barrier = n.thread.barrier := by
  have hc := Machine.calm_of_takeBreak ht
  have hb := Machine.barrier_of_takeBreak ht
  obtain ⟨hl, hcore⟩ := h.unwind
  exact ⟨hl.calm hc, hc.frames.trans hcore, hb⟩

/-- On nothing but its base a loop puts its frame back. -/
theorem again {f : Frame} {loop : Machine.Loop} {next : Option Machine.Loop}
    (h : Leads base (⟨base.length, f⟩ :: ds) held others m n)
    (hcore : n.frames.map Frame.core = base.map Frame.core)
    (hn : (n.repush f).afterPass loop = (o, next)) :
    Leads base (⟨base.length, f⟩ :: ds) held others m o ∧ (∃ g, o.frames = g :: n.frames) ∧
      o.thread.barrier = n.thread.barrier := by
  have hq := Machine.quiet_afterPass hn
  have hl := h.turn (.repush ⟨base.length, f⟩ (Frame.length_of_core hcore))
  exact ⟨hl.calm hq.calm, ⟨_, hq.frames⟩, hq.barrier⟩

end Leads

/-! ## Whole runs

By induction on the derivation: a run is a row of turns from one stance to another, and leaves the others' holds
alone. -/

namespace Machine

/-- Any lower part of a stack can be the base. -/
theorem exists_base {m : Machine σ} {level : Nat} (h : level ≤ m.depth) :
    ∃ base, base.length = level ∧ RestsOn m.frames base := by
  refine ⟨m.frames.drop (m.depth - level), ?_, (List.drop_suffix _ _).map Frame.core⟩
  rw [List.length_drop]
  unfold depth at h ⊢
  omega

/-- The loop's frame stands directly on those below. -/
theorem depth_pred_of_core {m : Machine σ} {f : Frame} {below base : List Frame}
    (hf : m.frames = f :: below) (hb : below.map Frame.core = base.map Frame.core) :
    m.depth - 1 = base.length := by
  unfold depth
  rw [hf, ← Frame.length_of_core hb]
  rfl

mutual

/-- A cycle takes turns above its level, and its jobs are threads of their own. -/
theorem Cycles.leads {e : Engine σ} : ∀ {m : Machine σ} {level : Nat} {n : Machine σ} {ok : Bool},
    Cycles e m level n ok → ∀ {base : List Frame} {ds : List Driver} {held : Multiset ScopeId}
      {others : Multiset (Worker σ)}, base.length = level → m.thread.barrier.isSome →
      Stance base ds held others m →
      Pool.Above held (m.within ds (m.pending + others)) (n.within ds (n.pending + others)) ∧
        Stance base ds held others n
  | _, _, _, _, .aborted _, _, _, _, _, _, _, hs => ⟨.refl, hs⟩
  | m, _, _, _, .drained _ hf, _, _, _, _, _, _, hs => by
    cases nextStep_cases hf with
    | drained h => exact ⟨.refl, hs⟩
    | advanced _ _ _ _ h => exact absurd rfl h
  | m, _, _, _, .exhausted _ hf rest, base, ds, held, others, hlen, hb, hs => by
    obtain ⟨hc, hw, hd⟩ := nextStep_calm hf (by simp)
    -- As long as the cycle goes on, the threads that it will wait for are among the others.
    have hl := (hs.more (Multiset.le_add_left others m.pending)).refl.calm hc
    have hr := hl.turn (.returnFrame none (by omega))
    have hw' := hw.trans (.of_eq (barrier_returnFrame _ none))
    have h := rest.leads hlen (hw'.barrier ▸ hb) ⟨hr.stance.rests, hs.loops, hr.above.onward.root ▸ hs.held⟩
    rw [hw'.pending] at h
    exact ⟨hr.above.trans h.1, h.2⟩
  | m, _, _, _, .undecodable _ hf _, base, ds, held, others, hlen, hb, hs => by
    obtain ⟨hc, hw, -⟩ := nextStep_calm hf (by simp)
    have hl := (hs.more (Multiset.le_add_left others m.pending)).refl.calm hc
    rw [hw.pending]
    exact ⟨hl.above, hl.stance.rests, hs.loops, hc.root ▸ hs.held⟩
  | m, _, _, _, .forked _ hf _ _ rest, base, ds, held, others, hlen, hb, hs => by
    obtain ⟨hc, hw, -⟩ := nextStep_calm hf (by simp)
    have hl := (hs.more (Multiset.le_add_left others m.pending)).refl.calm hc
    have hn := hl.stance
    rw [← hw.pending] at hn
    obtain ⟨ha, hs', hb'⟩ := forkInstruction_above hn (hw.barrier ▸ hb) _ _
    have h := rest.leads hlen hb' ⟨hs'.rests, hs.loops, ha.onward.root ▸ hc.root ▸ hs.held⟩
    rw [hw.pending] at ha
    exact ⟨hl.above.trans (ha.trans h.1), h.2⟩
  | m, _, _, _, .dispatched _ hf _ _ step _ rest, base, ds, held, others, hlen, hb, hs => by
    obtain ⟨hc, hw, hd⟩ := nextStep_calm hf (by simp)
    have hl := (hs.more (Multiset.le_add_left others m.pending)).refl.calm hc
    obtain ⟨hl', hw'⟩ := step.leads hl.stance (by omega)
    have hr := hl.trans hl'
    have hw'' := hw.trans hw'
    have h := rest.leads hlen (hw''.barrier ▸ hb) ⟨hr.stance.rests, hs.loops, hr.above.onward.root ▸ hs.held⟩
    rw [hw''.pending] at h
    exact ⟨hr.above.trans h.1, h.2⟩
  | m, _, _, _, .failed _ hf _ _ step _, base, ds, held, others, hlen, hb, hs => by
    obtain ⟨hc, hw, hd⟩ := nextStep_calm hf (by simp)
    have hl := (hs.more (Multiset.le_add_left others m.pending)).refl.calm hc
    obtain ⟨hl', hw'⟩ := step.leads hl.stance (by omega)
    have hr := hl.trans hl'
    rw [(hw.trans hw').pending]
    exact ⟨hr.above, hr.stance.rests, hs.loops, hr.above.onward.root ▸ hs.held⟩

/-- What a cycle leaves on its own barrier is done when the cycle ends. -/
theorem RunsCycle.leads {e : Engine σ} : ∀ {m : Machine σ} {level : Nat} {n : Machine σ} {ok : Bool},
    RunsCycle e m level n ok → ∀ {base : List Frame} {ds : List Driver} {held : Multiset ScopeId}
      {others : Multiset (Worker σ)}, base.length = level → Stance base ds held others m →
      Leads base ds held others m n ∧ n.thread.barrier = m.thread.barrier
  | m, _, _, _, .closed run jobs, base, ds, held, others, hlen, hs => by
    -- The new barrier has nothing to wait for yet.
    have hl := hs.refl.calm (Calm.of_thread m (t := (m.withBarrier (some .new)).thread) rfl)
    have hp : (m.withBarrier (some .new)).pending = 0 := rfl
    obtain ⟨ha, hs'⟩ := run.leads hlen rfl hl.stance
    rw [hp, zero_add] at ha
    obtain ⟨hj, hs''⟩ := jobs.leads hs'
    have hc : Leads base ds held others m _ := ⟨hl.above.trans (ha.trans hj), hs''⟩
    exact ⟨hc.calm (Calm.of_thread _ rfl), rfl⟩

/-- To dispatch is to attempt once or more often, between two notes. -/
theorem Dispatches.leads {e : Engine σ} : ∀ {m : Machine σ} {c : Command σ} {i : Instruction}
    {key : String} {n : Machine σ} {ok : Bool}, Dispatches e m c i key n ok →
    ∀ {base : List Frame} {ds : List Driver} {held : Multiset ScopeId}
      {others : Multiset (Worker σ)}, Stance base ds held others m → base.length ≤ m.depth - 1 →
      Leads base ds held others m n ∧ m.Awaits n
  | m, c, i, key, _, _, .unprepared hp, _, _, _, _, hs, _ => by
    have hq := quiet_prepare hp
    exact ⟨hs.refl.calm hq.calm, hq.awaits⟩
  | m, c, i, key, _, _, .prepared hp run, _, _, _, _, hs, hd => by
    have hq := quiet_prepare hp
    obtain ⟨hl, hw⟩ := run.leads (hs.refl.calm hq.calm).stance (hq.calm.depth.symm ▸ hd)
    exact ⟨(hs.refl.calm hq.calm).trans hl, hq.awaits.trans hw⟩

/-- Each attempt stands on its own, and a pause between two of them moves nothing. -/
theorem Attempts.leads {e : Engine σ} : ∀ {m : Machine σ} {invocation : Invocation σ}
    {key : String} {pause total : Int64} {n : Machine σ} {ok : Bool},
    Attempts e m invocation key pause total n ok →
    ∀ {base : List Frame} {ds : List Driver} {held : Multiset ScopeId}
      {others : Multiset (Worker σ)}, Stance base ds held others m → base.length ≤ m.depth - 1 →
      Leads base ds held others m n ∧ m.Awaits n
  | m, _, _, _, _, _, _, .spent _, _, _, _, _, hs, _ => ⟨hs.refl, .of_eq rfl⟩
  | m, _, key, _, _, _, _, .succeeded _ run, _, _, _, _, hs, hd => by
    have hq := quiet_note m (.attempted m.thread.id key)
    obtain ⟨hl, hw, -⟩ := run.leads (hs.refl.calm hq.calm).stance hd
    exact ⟨(hs.refl.calm hq.calm).trans hl, hq.awaits.trans hw⟩
  | m, _, key, _, _, _, _, .gaveUp _ run _, _, _, _, _, hs, hd => by
    have hq := quiet_note m (.attempted m.thread.id key)
    obtain ⟨hl, hw, -⟩ := run.leads (hs.refl.calm hq.calm).stance hd
    exact ⟨(hs.refl.calm hq.calm).trans hl, hq.awaits.trans hw⟩
  | m, _, key, pause, _, _, _, .retried (n := n) _ run _ rest, base, _, _, _, hs, hd => by
    have hq := quiet_note m (.attempted m.thread.id key)
    obtain ⟨hl, hw, hstay⟩ := run.leads (hs.refl.calm hq.calm).stance hd
    have hl' := ((hs.refl.calm hq.calm).trans hl).calm (quiet_wait n pause).calm
    -- The attempt has failed, so the stack is as high as it was.
    have hdepth : n.depth = m.depth := Frame.length_of_core (hstay rfl)
    have hd' : base.length ≤ (n.wait pause).depth - 1 := by
      show base.length ≤ n.depth - 1
      rw [hdepth]
      exact hd
    obtain ⟨hl'', hw''⟩ := rest.leads hl'.stance hd'
    exact ⟨hl'.trans hl'', (hq.awaits.trans hw).trans ((quiet_wait n pause).awaits.trans hw'')⟩

/-- An attempt of a command, which leaves the stack as it was if it fails. -/
theorem Performs.leads {e : Engine σ} : ∀ {m : Machine σ} {invocation : Invocation σ} {n : Machine σ}
    {ok : Bool}, Performs e m invocation n ok →
    ∀ {base : List Frame} {ds : List Driver} {held : Multiset ScopeId}
      {others : Multiset (Worker σ)}, Stance base ds held others m → base.length ≤ m.depth - 1 →
      Leads base ds held others m n ∧ m.Awaits n ∧
        (ok = false → n.frames.map Frame.core = m.frames.map Frame.core)
  | m, _, n, ok, .immediate hi, _, _, _, _, hs, hd => by
    have ha := immediate_cases hi
    refine ⟨ha.leads hs hd, ha.awaits, ?_⟩
    rintro rfl
    rw [ha.stays]
  | m, _, n, _, .refused hl, _, _, _, _, hs, _ => by
    have he := entered_cases hl
    refine ⟨he.leads hs, .of_eq he.barrier, fun _ => ?_⟩
    rw [he.stays]
  | m, _, _, _, .looped hl run, _, _, _, _, hs, _ => by
    have he := entered_cases hl
    obtain ⟨f, hf, hown, -⟩ := he.frame
    have hl := he.leads hs
    -- The loop takes its own frame off again, so the stack is the old one.
    obtain ⟨hl', hcore, hb⟩ := run.leads hf hown hs.rests hl.stance
    exact ⟨hl.trans hl', .of_eq (hb.trans he.barrier), fun _ => hcore⟩

/-- A loop holds the scope of its frame for the time of its passes, and leaves with no frame of its own. -/
theorem Drives.leads {e : Engine σ} : ∀ {m : Machine σ} {loop : Loop} {n : Machine σ} {ok : Bool},
    Drives e m loop n ok → ∀ {f : Frame} {below : List Frame} {base : List Frame} {ds : List Driver}
      {held : Multiset ScopeId} {others : Multiset (Worker σ)}, m.frames = f :: below →
      f.ownsScope = true → RestsOn below base → Stance base ds held others m →
      Leads base ds held others m n ∧ n.frames.map Frame.core = below.map Frame.core ∧
        n.thread.barrier = m.thread.barrier
  | m, _, _, _, .frameless hnil, f, below, base, ds, held, others, hf, _, _, _ => by
    rw [disown_of_cons hf] at hnil
    cases hnil
  | m, loop, _, ok, .driven (n := n) hdis run, f, below, base, ds, held, others, hf, hown, hrest, hs => by
    have ih := @Passes.leads _ _ _ _ _ _ run
    have hm := disown_of_cons hf
    obtain ⟨rfl, rfl⟩ := List.cons_eq_cons.1 ((congrArg Machine.frames hm).symm.trans hdis)
    have hlen := hrest.length_le
    -- The whole stack below the loop becomes the base of the passes.
    have hs₀ : Stance below ds held others m := by
      refine ⟨?_, hs.loops.trans hrest.length_le, hs.held.trans (add_le_add_left (heldBy_le hrest ds) _)⟩
      rw [hf]
      exact (RestsOn.refl below).cons f
    have hs₁ : Stance below (⟨below.length, { f with ownsScope := false }⟩ :: ds) held others m.disown := by
      refine ⟨?_, le_rfl, hs₀.held.trans (add_le_add ?_ ?_)⟩
      · rw [hm]
        exact (RestsOn.refl below).cons _
      · unfold heldBy
        rw [List.map_cons, ← Multiset.cons_coe]
        exact add_le_add_right (Multiset.le_cons_self _ _) _
      · rw [hm]
        exact le_rfl
    have hbegin := hs₀.step (.beginLoop hf hown le_rfl) hs₁
    obtain ⟨hl, hcore, hb⟩ := ih (congrArg Machine.frames hm) rfl hs₁
    have hdepth : n.depth = below.length := Frame.length_of_core hcore
    have hs₂ : Stance below ds held others (n.withScopes (·.release f.scope)) :=
      ⟨hl.stance.rests, hs₀.loops, (hbegin.trans hl.above).onward.root ▸ hs₀.held⟩
    have hleave := hl.stance.step (.leaveLoop _ hdepth) hs₂
    refine ⟨⟨hbegin.trans (hl.above.trans hleave), hs₂.rests.trans hrest, hs.loops, ?_⟩, hcore, ?_⟩
    · exact (hbegin.trans hl.above).onward.root ▸ hs.held
    · rw [hm] at hb
      exact hb

/-- Passes end with the loop's frame and all above it off the stack. -/
theorem Passes.leads {e : Engine σ} : ∀ {m : Machine σ} {loop : Loop} {f : Frame} {n : Machine σ}
    {ok : Bool}, Passes e m loop f n ok → ∀ {g : Frame} {below : List Frame} {base : List Frame}
      {ds : List Driver} {held : Multiset ScopeId} {others : Multiset (Worker σ)},
      m.frames = g :: below → below.map Frame.core = base.map Frame.core →
      Stance base (⟨base.length, f⟩ :: ds) held others m →
      Leads base (⟨base.length, f⟩ :: ds) held others m n ∧
        n.frames.map Frame.core = base.map Frame.core ∧ n.thread.barrier = m.thread.barrier
  | m, loop, _, o, ok, .done (n := n) hb hr, g, below, base, ds, held, others, hf, hbase, hs => by
    have hq := quiet_beforePass hb
    have hl := (hs.refl.calm hq.calm).calm (setLooping_calm n false)
    have hframes : (n.setLooping false).frames = { g with looping := false } :: below :=
      congrArg frames (setLooping_of_cons (hq.frames.trans hf) false)
    obtain ⟨o', hq', he⟩ := returnFrame_eq hframes none
    have hlen : base.length ≤ (n.setLooping false).depth - 1 := by
      unfold depth
      rw [hframes, ← Frame.length_of_core hbase]
      exact le_rfl
    have hl' := hl.turn (.returnFrame none hlen)
    rw [he] at hl' hr
    cases hr
    refine ⟨hl', ?_, ?_⟩
    · rw [← hbase]
      exact congrArg _ hq'.frames
    · exact hq'.barrier.trans ((barrier_setLooping n false).trans hq.barrier)
  | m, loop, _, _, _, .refused (n := n) hb, g, below, base, ds, held, others, hf, hbase, hs => by
    have hq := quiet_beforePass hb
    obtain ⟨hl, hcore⟩ := (hs.refl.calm hq.calm).unwind
    rw [depth_pred_of_core hf hbase]
    exact ⟨hl, hcore, hq.barrier⟩
  | m, loop, _, _, _, .failed hb run, g, below, base, ds, held, others, hf, hbase, hs => by
    have hq := quiet_beforePass hb
    have hlevel : m.depth - 1 = base.length := depth_pred_of_core hf hbase
    obtain ⟨hrun, hbar⟩ := run.leads hlevel.symm (hs.refl.calm hq.calm).stance
    obtain ⟨hl, hcore⟩ := ((hs.refl.calm hq.calm).trans hrun).unwind
    rw [hlevel]
    exact ⟨hl, hcore, hbar.trans hq.barrier⟩
  | m, loop, _, _, _, .broken hb run ht, g, below, base, ds, held, others, hf, hbase, hs => by
    have hq := quiet_beforePass hb
    have hlevel : m.depth - 1 = base.length := depth_pred_of_core hf hbase
    obtain ⟨hrun, hbar⟩ := run.leads hlevel.symm (hs.refl.calm hq.calm).stance
    rw [hlevel] at ht
    obtain ⟨hl, hcore, hbar'⟩ := ((hs.refl.calm hq.calm).trans hrun).takeBreak ht
    exact ⟨hl, hcore, hbar'.trans (hbar.trans hq.barrier)⟩
  | m, loop, f, _, _, .repeated hb run ht hn rest, g, below, base, ds, held, others, hf, hbase, hs => by
    have hq := quiet_beforePass hb
    have hlevel : m.depth - 1 = base.length := depth_pred_of_core hf hbase
    obtain ⟨hrun, hbar⟩ := run.leads hlevel.symm (hs.refl.calm hq.calm).stance
    rw [hlevel] at ht
    obtain ⟨hl, hcore, hbar'⟩ := ((hs.refl.calm hq.calm).trans hrun).takeBreak ht
    -- The stack is the base again, and the frame is put back on it.
    obtain ⟨hl', ⟨g', hframes⟩, hbar''⟩ := hl.again hcore hn
    obtain ⟨hrest, hcore', hbar'''⟩ := rest.leads hframes hcore hl'.stance
    refine ⟨hl'.trans hrest, hcore', ?_⟩
    exact hbar'''.trans (hbar''.trans (hbar'.trans (hbar.trans hq.barrier)))
  | m, loop, f, _, _, .stuck hb run ht hn, g, below, base, ds, held, others, hf, hbase, hs => by
    have hq := quiet_beforePass hb
    have hlevel : m.depth - 1 = base.length := depth_pred_of_core hf hbase
    obtain ⟨hrun, hbar⟩ := run.leads hlevel.symm (hs.refl.calm hq.calm).stance
    rw [hlevel] at ht ⊢
    obtain ⟨hl, hcore, hbar'⟩ := ((hs.refl.calm hq.calm).trans hrun).takeBreak ht
    obtain ⟨hl', -, hbar''⟩ := hl.again hcore hn
    obtain ⟨hl'', hcore'⟩ := hl'.unwind
    exact ⟨hl'', hcore', hbar''.trans (hbar'.trans (hbar.trans hq.barrier))⟩

/-- To join is to run the jobs one after the other, each from the world that the last one has left. -/
theorem Joins.leads {e : Engine σ} : ∀ {m : Machine σ} {failed : Nat} {n : Machine σ} {failed' : Nat},
    Joins e m failed n failed' → ∀ {base : List Frame} {ds : List Driver}
      {held : Multiset ScopeId} {others : Multiset (Worker σ)}, Stance base ds held others m →
      Pool.Above held (m.within ds (m.pending + others)) (n.within ds others) ∧
        Stance base ds held others n
  | m, _, _, _, .done hj, _, _, _, _, hs => by
    have hp : m.pending = 0 := by
      unfold pending
      rw [jobs_of_nextJob_none hj]
      rfl
    rw [hp, zero_add]
    exact ⟨.refl, hs⟩
  | m, _, _, _, @Joins.next _ _ _ _ job n w _ _ _ hj run rest, base, ds, held, others, hs => by
    obtain ⟨hjobs, hc, hw⟩ := jobs_of_nextJob hj
    have hl := (hs.more (Multiset.le_add_left others m.pending)).refl.calm hc
    -- The next job is one of those that were pending, and its thread stands aside until now.
    have hpending : m.pending = ↑(job.threads.map fun t => (⟨t, []⟩ : Worker σ)) + n.pending := by
      unfold pending
      rw [hjobs, List.flatMap_append, List.map_append, Multiset.coe_add, job.flatMap_threads_instructions]
    have hn : Stance base ds held (n.pending + others) n :=
      ⟨hl.stance.rests, hs.loops, hc.root ▸ (hs.more (Multiset.le_add_left others n.pending)).held⟩
    have hrun := run.leads hn.le_held
    have hroot : w.request.root = m.request.root := hrun.onward.root.trans hc.root
    have hrest := rest.leads ⟨hn.rests, hs.loops, hroot ▸ hs.held⟩
    have hstart : n.within ds (m.pending + others) =
        ⟨n.world, ↑(job.threads.map fun t => (⟨t, []⟩ : Worker σ)) +
          (⟨n.thread, ds⟩ ::ₘ (n.pending + others))⟩ := by
      unfold within
      rw [hpending, Multiset.add_cons, add_assoc]
    have habove := hl.above
    rw [hstart] at habove
    exact ⟨habove.trans (hrun.trans hrest.1), hrest.2⟩

/-- A job runs as the thread that was made for it, and the thread is given up. -/
theorem RunsJob.leads {e : Engine σ} : ∀ {w : World σ} {job : Job σ} {v : World σ} {ok : Bool},
    RunsJob e w job v ok → ∀ {held : Multiset ScopeId} {u : Worker σ} {others : Multiset (Worker σ)},
      held ≤ holders w.request.root (u ::ₘ others) →
      Pool.Above held ⟨w, ↑(job.threads.map fun t => (⟨t, []⟩ : Worker σ)) + (u ::ₘ others)⟩
        ⟨v, u ::ₘ others⟩
  | w, _, _, _, @RunsJob.host _ _ _ work, held, u, others, hheld => by
    have hstart : (↑((Job.host work).threads.map fun t => (⟨t, []⟩ : Worker σ)) : Multiset (Worker σ)) +
        (u ::ₘ others) = u ::ₘ others := zero_add _
    rw [hstart]
    have hturn : Turn (Driver.base u.loops) ⟨w, u.thread⟩ u.loops
        ⟨{ w with host := (work w.host).1 }, u.thread⟩ u.loops := .calm ⟨rfl, rfl, rfl, id⟩
    exact .single (@Pool.Step.turn σ ⟨w, u ::ₘ others⟩ u others _ _ rfl hturn) hheld
  | w, _, _, _, .unknown _, held, u, others, hheld => by
    exact Stance.giveUp (m := ⟨w, _⟩) hheld
  | w, _, _, _, .simple _ step _, held, u, others, hheld => by
    obtain ⟨hl, -⟩ := step.leads (Stance.alone hheld) (Nat.zero_le _)
    exact hl.above.trans (Stance.giveUp (hl.above.onward.root ▸ hheld))
  | w, _, _, _, @RunsJob.called _ _ _ _ frames _ _ _ n _ _ _ _ step hd run, held, u, others, hheld => by
    obtain ⟨hl, -⟩ := step.leads (Stance.alone hheld) (Nat.zero_le _)
    -- What the instruction has called runs to its end above as many frames as there were.
    have hle : frames.length ≤ n.depth := (of_decide_eq_true (Bool.and_eq_true_iff.1 hd).2).le
    obtain ⟨base, hlen, hrests⟩ := exists_base hle
    have hs : Stance base [] held (u ::ₘ others) n :=
      ⟨hrests, Nat.zero_le _, (hl.above.onward.root ▸ hheld).trans (Multiset.le_add_left _ _)⟩
    obtain ⟨hl', -⟩ := run.leads hlen hs
    have habove := hl.above.trans hl'.above
    exact habove.trans (Stance.giveUp (habove.onward.root ▸ hheld))

end

end Machine
end Sequencer
