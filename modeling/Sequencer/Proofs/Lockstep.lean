import Sequencer.Proofs.Abreast
import Sequencer.Proofs.Splitting

/-!
# Runs of a thread and its copy

A copy of a thread goes through the same run as the thread itself, and comes to the same end, as long as nothing
is started on the side and the frames that were copied stay on the stack. Step by step this is what `Abreast`
says; here it is carried along whole derivations.
-/

namespace Sequencer

variable {σ : Type}

open Machine

/-! ## The host program

A command of the host program that knows nothing of threads does the same on the copy. What it starts on the side are
jobs of its own. -/

/-- What a host command reads, in its preparation or in an attempt, that does not depend on what is masked, as long as
there is a barrier. -/
def Blind {α : Type} (f : Machine σ → α) : Prop := ∀ m m' : Machine σ, m'.masked = m.masked →
  m.thread.barrier.isSome → m'.thread.barrier.isSome → f m' = f m

/-- A host command of which neither the preparation nor an attempt depends on numbers of threads, counts of references or
waiting jobs. -/
def HostCommand.Discreet (c : HostCommand σ) : Prop :=
  ∀ payload, Blind (c.prepare payload) ∧ ∀ m run, c.prepare payload m = .ok run → Blind run

/-- All commands of the host program are discreet. -/
def Engine.Discreet (e : Engine σ) : Prop := ∀ name c, e.registry.get? name = some (.host c) → c.Discreet

/-- No built-in command is performed by the host program. -/
theorem Builtin.prepare_ne_host {files : FileReader} {b : Builtin} {payload : String}
    {run : Machine σ → Effect σ} : b.prepare files payload ≠ .ok (.host run) := by
  intro h
  have hpure : ∀ {α : Type} {x : Except CommandError α} {f : α → Except CommandError (Invocation σ)},
      (∀ a, f a ≠ .ok (.host run)) → (x >>= f) ≠ .ok (.host run) := by
    intro α x f hf
    cases x with
    | error err => nofun
    | ok a => exact hf a
  unfold Builtin.prepare at h
  revert h
  cases b with
  | call => exact hpure fun _ => hpure fun _ => nofun
  | branch p => exact hpure fun _ => hpure fun _ => nofun
  | switch =>
    refine hpure fun c => ?_
    split <;> nofun
  | loopFor => exact hpure fun _ => hpure fun _ => nofun
  | loopRange => exact hpure fun _ => hpure fun _ => hpure fun _ => nofun
  | leave =>
    simp only
    split
    · exact hpure fun _ => nofun
    · exact hpure fun _ => nofun
    · nofun
  | void => nofun
  | breakLoop =>
    simp only
    split_ifs
    · nofun
    · exact hpure fun _ => nofun
  | var =>
    refine hpure fun c => ?_
    split_ifs <;> nofun

namespace Moment

variable {e : Engine σ} {P : Moment σ → Prop} {s t : Moment σ}

/-- Something that holds of all moments of a run. -/
def Throughout (e : Engine σ) (P : Moment σ → Prop) (s : Moment σ) : Prop :=
  ∀ t, Relation.ReflTransGen (Next e) s t → P t

namespace Throughout

theorem here (h : Throughout e P s) : P s := h s .refl

theorem next (h : Throughout e P s) (hn : s.Next e t) : Throughout e P t := fun u hu => h u (.head hn hu)

end Throughout

/-- The work that the host program is about to start on the side. -/
def hostJobs : Moment σ → List (σ → σ × Bool)
  | .perform m (.host run) => (run m).jobs
  | _ => []

/-- Nothing is about to be started on the side, and all frames of a base are on the stack, as they were. -/
structure Apart (e : Engine σ) (base : List Frame) (t : Moment σ) : Prop where
  alone : ¬t.Forks e
  jobless : t.hostJobs = []
  above : base <:+ t.machine.frames

end Moment

namespace Machine

theorem pred_le_depth_of_beforePass {m n : Machine σ} {loop : Loop} {pass : Pass} (h : m.beforePass loop = (n, pass)) :
    m.depth - 1 ≤ n.depth := (quiet_beforePass h).calm.depth.ge.trans' (Nat.sub_le _ 1)

namespace Abreast

variable {others : Multiset ScopeId} {base : List Frame} {b b' : Option (Barrier σ)} {m m' n : Machine σ}
  {ds : List Driver} {f : Frame} {level : Nat}

/-- A discreet command is prepared in the same way by both threads, since they read the same variables. -/
theorem prepare (h : Abreast others base b b' m m' ds) {e : Engine σ} {c : Command σ} {i : Instruction} {key : String}
    {r : Except CommandError (Invocation σ)} (hhost : ∀ d, c = .host d → d.Discreet ∧ b.isSome ∧ b'.isSome)
    (hp : m.prepare e c i key = (n, r)) :
    ∃ n', m'.prepare e c i key = (n', r) ∧ Abreast others base b b' n n' ds := by
  -- What is noted first is the same but for the numbers of the threads.
  obtain ⟨n', hnoted, hn⟩ := h.follows (f := fun o => ((o.prepare e c i key).1, ()))
    (fun o => quiet_prepare (m := o) (e := e) rfl) (fun o => Prod.ext (masked_prepare o e c i key) rfl)
    (congrArg (fun q => (q.1, ())) hp)
  have hleft : (m'.prepare e c i key).1 = n' := congrArg Prod.fst hnoted
  have hsame : c.prepare e.files i.payload n' = c.prepare e.files i.payload n := by
    cases c with
    | builtin => rfl
    | host d =>
      obtain ⟨hd, hb, hb'⟩ := hhost d rfl
      rw [← hn.twins.barrier] at hb
      rw [← hn.twins.barrier'] at hb'
      rw [Command.prepare, Command.prepare, (hd i.payload).1 n n' hn.twins.masked hb hb']
  refine ⟨n', Prod.ext hleft ?_, hn⟩
  have hout : c.prepare e.files i.payload (m'.prepare e c i key).1 = (m'.prepare e c i key).2 := outcome_of_prepare rfl
  rw [← hout, hleft, hsame]
  exact outcome_of_prepare hp

theorem tried (h : Abreast others base b b' m m' ds) (key : String) :
    Abreast others base b b' (m.note (.attempted m.thread.id key)) (m'.note (.attempted m'.thread.id key)) ds :=
  h.note rfl

theorem wait (h : Abreast others base b b' m m' ds) (pause : Int64) :
    Abreast others base b b' (m.wait pause) (m'.wait pause) ds := h.note rfl

/-- Both threads find the same thing in front of a pass. -/
theorem beforePass (h : Abreast others base b b' m m' ds) {loop : Loop} {pass : Pass}
    (hb : m.beforePass loop = (n, pass)) :
    ∃ n', m'.beforePass loop = (n', pass) ∧ Abreast others base b b' n n' ds :=
  h.follows (f := (Machine.beforePass · loop)) (fun _ => quiet_beforePass rfl) (masked_beforePass · loop) hb

theorem afterPass (h : Abreast others base b b' m m' ds) {loop : Loop} {next : Option Loop}
    (hn : m.afterPass loop = (n, next)) :
    ∃ n', m'.afterPass loop = (n', next) ∧ Abreast others base b b' n n' ds :=
  h.follows (f := (Machine.afterPass · loop)) (fun _ => quiet_afterPass rfl) (masked_afterPass · loop) hn

/-- The last return of a loop, whose frame is active. -/
theorem lastReturn (h : Abreast others base b b' m m' (⟨level, f⟩ :: ds)) (hle : base.length ≤ level)
    (hd : m.depth = level + 1) {ok : Bool} (hr : (m.setLooping false).returnFrame none = (n, ok)) :
    (∃ n', (m'.setLooping false).returnFrame none = (n', ok) ∧ Abreast others base b b' n n' (⟨level, f⟩ :: ds)) ∧
      n.depth = level := by
  obtain ⟨g, rest, hf, -⟩ := exists_cons_of_lt_depth (Nat.lt_of_lt_of_eq level.lt_succ_self hd.symm)
  obtain rfl : rest.length = level := by
    unfold Machine.depth at hd
    rw [hf] at hd
    exact Nat.succ.inj hd
  have hframes : (m.setLooping false).frames = { g with looping := false } :: rest :=
    congrArg frames (setLooping_of_cons hf false)
  refine ⟨(h.setLooping hf hle false).returnFrame hframes hle le_rfl hr, ?_⟩
  have hreturned := frames_returnFrame hframes none
  rw [hr] at hreturned
  exact congrArg List.length hreturned

/-- All that a pass has left above the level of its loop is dropped. -/
theorem dropPass (h : Abreast others base b b' m m' (⟨level, f⟩ :: ds)) (hle : base.length ≤ level)
    (hd : level ≤ m.depth) :
    Abreast others base b b' (m.unwind level) (m'.unwind level) (⟨level, f⟩ :: ds) ∧ (m.unwind level).depth = level :=
  ⟨h.unwind hle le_rfl, depth_unwind_of_le hd⟩

/-- After a pass with no break the frame of the loop is put back, and the loop goes on or gives up. -/
theorem next {o p : Machine σ} {loop : Loop} {next : Option Loop}
    (h : Abreast others base b b' m m' (⟨level, f⟩ :: ds)) (hle : base.length ≤ level) (hd : level ≤ m.depth)
    (ht : (m.unwind level).takeBreak level = (o, false)) (hn : (o.repush f).afterPass loop = (p, next)) :
    ∃ o' p', (m'.unwind level).takeBreak level = (o', false) ∧ (o'.repush f).afterPass loop = (p', next) ∧
      Abreast others base b b' p p' (⟨level, f⟩ :: ds) ∧ p.depth = level + 1 := by
  obtain ⟨hu, hdepth⟩ := h.dropPass hle hd
  obtain ⟨o', ht', ho⟩ := hu.takeBreak ht
  have hput := ho.repush ((depth_of_takeBreak ht).trans hdepth)
  obtain ⟨p', hn', hp⟩ := hput.afterPass hn
  refine ⟨o', p', ht', hn', hp, ?_⟩
  exact (quiet_afterPass hn).calm.depth.trans (congrArg (· + 1) ((depth_of_takeBreak ht).trans hdepth))

end Abreast

/-- What is performed by the host program is a command of the host program. -/
theorem blind_of_prepare {files : FileReader} {payload : String} {m : Machine σ} {c : Command σ}
    {invocation : Invocation σ} {p : Prop} (hhost : ∀ d, c = .host d → d.Discreet ∧ p)
    (h : c.prepare files payload m = .ok invocation) : ∀ run, invocation = .host run → Blind run ∧ p := by
  rintro run rfl
  cases c with
  | builtin b => exact absurd h Builtin.prepare_ne_host
  | host d =>
    obtain ⟨hd, hp⟩ := hhost d rfl
    unfold Command.prepare at h
    simp only at h
    split at h
    · next hrun =>
      cases h
      exact ⟨(hd payload).2 m run hrun, hp⟩
    · cases h

/-! ## Whole runs

Along a derivation the copy derives the same, rule by rule, as long as the frames that were copied stay. -/

open Moment in
mutual

/-- The same cycle, run by the other thread, ends in the same way, and both are abreast again. What the base of the
frames could tell them apart by is never touched. -/
theorem Cycles.abreast {e : Engine σ} : ∀ {m : Machine σ} {level : Nat} {n : Machine σ} {ok : Bool},
    Cycles e m level n ok → ∀ {others : Multiset ScopeId} {base : List Frame} {b b' : Barrier σ} {m' : Machine σ}
      {ds : List Driver}, e.Discreet → Abreast others base (some b) (some b') m m' ds → base.length ≤ level →
      Driver.base ds ≤ level → Throughout e (Apart e base) (.cycle m level) → base <:+ n.frames →
      ∃ n', Cycles e m' level n' ok ∧ Abreast others base (some b) (some b') n n' ds
  -- Rule by rule: where the thread goes on, the copy goes on in the same way from where it is.
  | _, _, _, _, .aborted ha, _, _, _, _, _, _, _, h, _, _, _, _ =>
    ⟨_, .aborted (h.twins.aborted.trans ha), h⟩
  | _, _, _, _, .drained ha hs, _, _, _, _, _, _, _, h, hlevel, _, _, _ => by
    obtain ⟨n', hs', hn⟩ := h.nextStep hlevel hs
    exact ⟨n', .drained (h.twins.aborted.trans ha) hs', hn⟩
  | _, _, _, _, .exhausted (n := n) ha hs rest, _, _, _, _, _, _, he, h, hlevel, hbase, hall, hsuf => by
    obtain ⟨n', hs', hn⟩ := h.nextStep hlevel hs
    obtain ⟨-, -, hd⟩ := nextStep_calm hs (by simp)
    obtain ⟨f, below, hf, hle⟩ := exists_cons_of_lt_depth hd
    -- the frame that returns is above what was copied, since the level is
    obtain ⟨o', hr', ho⟩ := hn.returnFrame hf (hlevel.trans hle) (hbase.trans hle) (rfl : n.returnFrame none = _)
    obtain ⟨q', hrun, hq⟩ := rest.abreast he ho hlevel hbase (hall.next (.exhausted ha hs)) hsuf
    refine ⟨q', .exhausted (h.twins.aborted.trans ha) hs' ?_, hq⟩
    rw [hr']
    exact hrun
  | _, _, _, _, .undecodable ha hs hd, _, _, _, _, _, _, _, h, hlevel, _, _, _ => by
    obtain ⟨n', hs', hn⟩ := h.nextStep hlevel hs
    exact ⟨n', .undecodable (h.twins.aborted.trans ha) hs' ((hn.twins.decode _ _).trans hd), hn⟩
  | _, _, _, _, .forked ha hs hd hp _, _, _, _, _, _, _, _, _, _, _, hall, _ =>
    absurd ⟨ha, _, _, _, _, _, hs, hd, hp⟩ hall.here.alone
  -- after a command of which the rest of the cycle is run, what was copied is below it still
  | _, _, _, _, .dispatched ha hs hd hp step hgo rest, _, _, _, _, _, _, he, h, hlevel, hbase, hall, hsuf => by
    obtain ⟨n', hs', hn⟩ := h.nextStep hlevel hs
    obtain ⟨-, -, hdeep⟩ := nextStep_calm hs (by simp)
    have hrest := hall.next (.advanced ha hs hd hp step hgo)
    obtain ⟨o', hstep, ho⟩ := step.abreast he hn (le_max_of_le_right (hbase.trans (Nat.le_pred_of_lt hdeep)))
      (fun d hc => ⟨he _ d (hc ▸ registered_of_decode hd), rfl, rfl⟩) (hall.next (.dispatched ha hs hd hp))
      hrest.here.above
    obtain ⟨q', hrun, hq⟩ := rest.abreast he ho hlevel hbase hrest hsuf
    have hd' := (hn.twins.decode e _).trans hd
    exact ⟨q', .dispatched (h.twins.aborted.trans ha) hs' hd' hp hstep hgo hrun, hq⟩
  | _, _, _, _, .failed ha hs hd hp step hstop, _, _, _, _, _, _, he, h, hlevel, hbase, hall, hsuf => by
    obtain ⟨n', hs', hn⟩ := h.nextStep hlevel hs
    obtain ⟨-, -, hdeep⟩ := nextStep_calm hs (by simp)
    obtain ⟨o', hstep, ho⟩ := step.abreast he hn (le_max_of_le_right (hbase.trans (Nat.le_pred_of_lt hdeep)))
      (fun d hc => ⟨he _ d (hc ▸ registered_of_decode hd), rfl, rfl⟩) (hall.next (.dispatched ha hs hd hp)) hsuf
    have hd' := (hn.twins.decode e _).trans hd
    exact ⟨o', .failed (h.twins.aborted.trans ha) hs' hd' hp hstep hstop, ho⟩

theorem RunsCycle.abreast {e : Engine σ} : ∀ {m : Machine σ} {level : Nat} {n : Machine σ} {ok : Bool},
    RunsCycle e m level n ok → ∀ {others : Multiset ScopeId} {base : List Frame} {b b' : Option (Barrier σ)}
      {m' : Machine σ} {ds : List Driver}, e.Discreet → Abreast others base b b' m m' ds → base.length ≤ level →
      Driver.base ds ≤ level → Throughout e (Apart e base) (.runCycle m level) →
      ∃ n', RunsCycle e m' level n' ok ∧ Abreast others base b b' n n' ds
  | m, _, _, _, .closed run jobs, _, _, b, b', m', _, he, h, hlevel, hbase, hall => by
    have hopened := h.withBarrier (some .new) (some .new)
    obtain ⟨n', hrun, hn⟩ :=
      run.abreast he hopened hlevel hbase (hall.next .opened) (hall.next (.joined run)).here.above
    -- Nothing waits at the barriers of the two.
    cases jobs with
    | done hj =>
      have hclosed := hn.withBarrier b b'
      have hrun' := RunsCycle.closed hrun (Joins.done (nextJob_of_new hn.twins.barrier') : Joins e n' 0 n' 0)
      rw [hn.twins.aborted, h.twins.barrier'] at hrun'
      rw [h.twins.barrier]
      exact ⟨_, hrun', hclosed⟩
    | next hj run rest =>
      rw [nextJob_of_new hn.twins.barrier] at hj
      cases hj

/-- A command of the host program has to be the same to both, and be told the same. -/
theorem Dispatches.abreast {e : Engine σ} : ∀ {m : Machine σ} {c : Command σ} {i : Instruction} {key : String}
    {n : Machine σ} {ok : Bool}, Dispatches e m c i key n ok →
    ∀ {others : Multiset ScopeId} {base : List Frame} {b b' : Option (Barrier σ)} {m' : Machine σ}
      {ds : List Driver}, e.Discreet → Abreast others base b b' m m' ds →
      Driver.base ds ≤ max base.length (m.depth - 1) → (∀ d, c = .host d → d.Discreet ∧ b.isSome ∧ b'.isSome) →
      Throughout e (Apart e base) (.dispatch m c i key) → base <:+ n.frames →
      ∃ n', Dispatches e m' c i key n' ok ∧ Abreast others base b b' n n' ds
  | _, _, _, _, _, _, .unprepared hp, _, _, _, _, _, _, _, h, _, hhost, _, _ => by
    obtain ⟨n', hp', hn⟩ := h.prepare hhost hp
    exact ⟨n', .unprepared hp', hn⟩
  | _, _, _, _, _, _, .prepared hp run, _, _, _, _, _, _, he, h, hbase, hhost, hall, hsuf => by
    obtain ⟨n', hp', hn⟩ := h.prepare hhost hp
    rw [← (quiet_prepare hp).calm.depth] at hbase
    have hblind := blind_of_prepare hhost (outcome_of_prepare hp)
    obtain ⟨o', hrun, ho⟩ := run.abreast he hn hbase hblind (hall.next (.prepared hp)) hsuf
    exact ⟨o', .prepared hp' hrun, ho⟩

theorem Attempts.abreast {e : Engine σ} : ∀ {m : Machine σ} {invocation : Invocation σ} {key : String}
    {pause total : Int64} {n : Machine σ} {ok : Bool}, Attempts e m invocation key pause total n ok →
    ∀ {others : Multiset ScopeId} {base : List Frame} {b b' : Option (Barrier σ)} {m' : Machine σ}
      {ds : List Driver}, e.Discreet → Abreast others base b b' m m' ds →
      Driver.base ds ≤ max base.length (m.depth - 1) →
      (∀ run, invocation = .host run → Blind run ∧ b.isSome ∧ b'.isSome) →
      Throughout e (Apart e base) (.attempts m invocation key pause total) → base <:+ n.frames →
      ∃ n', Attempts e m' invocation key pause total n' ok ∧ Abreast others base b b' n n' ds
  | _, _, _, _, _, _, _, .spent ht, _, _, _, _, _, _, _, h, _, _, _, _ => ⟨_, .spent ht, h⟩
  | _, _, key, _, _, _, _, .succeeded ht run, _, _, _, _, _, _, he, h, hbase, hblind, hall, hsuf => by
    obtain ⟨n', hrun, hn⟩ := run.abreast he (h.tried key) hbase hblind (hall.next (.tried ht)) hsuf
    exact ⟨n', .succeeded ht hrun, hn⟩
  | _, _, key, _, _, _, _, .gaveUp ht run hl, _, _, _, _, _, _, he, h, hbase, hblind, hall, hsuf => by
    obtain ⟨n', hrun, hn⟩ := run.abreast he (h.tried key) hbase hblind (hall.next (.tried ht)) hsuf
    exact ⟨n', .gaveUp ht hrun ((hn.twins.lastAttempt _ _).trans hl), hn⟩
  | m, _, key, pause, _, _, _, .retried (n := n) ht run hl rest, _, _, _, _, _, _, he, h, hbase, hblind, hall,
      hsuf => by
    have hagain := hall.next (.retried ht run hl)
    obtain ⟨n', hrun, hn⟩ := run.abreast he (h.tried key) hbase hblind (hall.next (.tried ht)) hagain.here.above
    have hdepth : (n.wait pause).depth = m.depth := run.depth_of_failed
    obtain ⟨o', hrest, ho⟩ := rest.abreast he (hn.wait pause) (hdepth.symm ▸ hbase) hblind hagain hsuf
    exact ⟨o', .retried ht hrun ((hn.twins.lastAttempt _ _).trans hl) hrest, ho⟩

theorem Performs.abreast {e : Engine σ} : ∀ {m : Machine σ} {invocation : Invocation σ} {n : Machine σ}
    {ok : Bool}, Performs e m invocation n ok →
    ∀ {others : Multiset ScopeId} {base : List Frame} {b b' : Option (Barrier σ)} {m' : Machine σ}
      {ds : List Driver}, e.Discreet → Abreast others base b b' m m' ds →
      Driver.base ds ≤ max base.length (m.depth - 1) →
      (∀ run, invocation = .host run → Blind run ∧ b.isSome ∧ b'.isSome) →
      Throughout e (Apart e base) (.perform m invocation) → base <:+ n.frames →
      ∃ n', Performs e m' invocation n' ok ∧ Abreast others base b b' n n' ds
  | m, invocation, _, _, .immediate hi, _, _, _, _, m', _, _, h, hbase, hblind, hall, hsuf => by
    have hhost : ∀ run, invocation = .host run → run m' = run m ∧ (run m).jobs = [] := by
      rintro run rfl
      obtain ⟨hrun, hb, hb'⟩ := hblind run rfl
      rw [← h.twins.barrier] at hb
      rw [← h.twins.barrier'] at hb'
      exact ⟨hrun m m' h.twins.masked hb hb', hall.here.jobless⟩
    obtain ⟨n', hi', hn⟩ := h.immediate hi hsuf hbase hhost
    exact ⟨n', .immediate hi', hn⟩
  | _, _, _, _, .refused hl, _, _, _, _, _, _, _, h, _, _, _, _ => by
    obtain ⟨n', hl', hn⟩ := h.entered hl
    exact ⟨n', .refused hl', hn⟩
  | _, _, _, _, .looped hl run, _, _, _, _, _, _, he, h, _, _, hall, _ => by
    obtain ⟨n', hl', hn⟩ := h.entered hl
    obtain ⟨f, hf, hown, -⟩ := (entered_cases hl).frame
    obtain ⟨o', hrun, ho⟩ := run.abreast he hn hf hown h.length_le h.base_le (hall.next (.looped hl))
    exact ⟨o', .looped hl' hrun, ho⟩

theorem Drives.abreast {e : Engine σ} : ∀ {m : Machine σ} {loop : Loop} {n : Machine σ} {ok : Bool},
    Drives e m loop n ok → ∀ {others : Multiset ScopeId} {base : List Frame} {b b' : Option (Barrier σ)}
      {m' : Machine σ} {ds : List Driver} {f : Frame} {rest : List Frame}, e.Discreet →
      Abreast others base b b' m m' ds → m.frames = f :: rest → f.ownsScope = true → base.length ≤ rest.length →
      Driver.base ds ≤ rest.length → Throughout e (Apart e base) (.drive m loop) →
      ∃ n', Drives e m' loop n' ok ∧ Abreast others base b b' n n' ds
  | _, _, _, _, .frameless hnil, _, _, _, _, _, _, _, _, _, _, hf, _, _, _, _ => by
    rw [disown_of_cons hf] at hnil
    cases hnil
  | m, _, _, _, .driven hdis run, _, _, _, _, _, _, f, rest, he, h, hf, hown, hle, hbase, hall => by
    have ih := @Passes.abreast _ _ _ _ _ _ run
    have hbegun := h.beginLoop hf hown hle hbase
    have hm : m.disown.frames = { f with ownsScope := false } :: rest := congrArg frames (disown_of_cons hf)
    obtain ⟨rfl, rfl⟩ := List.cons_eq_cons.1 (hm.symm.trans hdis)
    obtain ⟨rest', hdis', -⟩ := hbegun.twins.top hm hle
    have hdepth : m.disown.depth = rest.length + 1 := congrArg List.length hm
    obtain ⟨⟨n', hrun, hn⟩, hd⟩ := ih he hbegun hdepth hle (hall.next (.driven hdis))
    exact ⟨_, .driven hdis' hrun, hn.leaveLoop hd⟩

theorem Passes.abreast {e : Engine σ} : ∀ {m : Machine σ} {loop : Loop} {f : Frame} {n : Machine σ} {ok : Bool},
    Passes e m loop f n ok → ∀ {others : Multiset ScopeId} {base : List Frame} {b b' : Option (Barrier σ)}
      {m' : Machine σ} {ds : List Driver} {level : Nat}, e.Discreet →
      Abreast others base b b' m m' (⟨level, f⟩ :: ds) → m.depth = level + 1 → base.length ≤ level →
      Throughout e (Apart e base) (.passes m loop f) →
      (∃ n', Passes e m' loop f n' ok ∧ Abreast others base b b' n n' (⟨level, f⟩ :: ds)) ∧ n.depth = level
  -- The level that the copy works above is the same number, since both stacks are equally high.
  | _, _, _, _, _, .done hb hr, _, _, _, _, _, _, _, _, h, hd, hle, _ => by
    obtain ⟨n', hb', hn⟩ := h.beforePass hb
    obtain ⟨⟨o', hr', ho⟩, hdepth⟩ := hn.lastReturn hle ((quiet_beforePass hb).calm.depth.trans hd) hr
    exact ⟨⟨o', .done hb' hr', ho⟩, hdepth⟩
  | m, _, _, _, _, .refused hb, _, _, _, _, _, _, level, _, h, hd, hle, _ => by
    obtain rfl : level = m.depth - 1 := (congrArg Nat.pred hd).symm
    obtain ⟨n', hb', hn⟩ := h.beforePass hb
    obtain ⟨ho, hdepth⟩ := hn.dropPass hle (pred_le_depth_of_beforePass hb)
    refine ⟨⟨_, ?_, ho⟩, hdepth⟩
    rw [← h.twins.depth]
    exact .refused hb'
  | m, _, _, _, _, .failed hb run, _, _, _, _, _, _, level, he, h, hd, hle, hall => by
    obtain rfl : level = m.depth - 1 := (congrArg Nat.pred hd).symm
    obtain ⟨n', hb', hn⟩ := h.beforePass hb
    obtain ⟨o', hrun, ho⟩ := run.abreast he hn hle le_rfl (hall.next (.passed hb))
    obtain ⟨hq, hdepth⟩ := ho.dropPass hle (run.level_le_depth (pred_le_depth_of_beforePass hb))
    refine ⟨⟨_, ?_, hq⟩, hdepth⟩
    rw [← h.twins.depth] at hrun ⊢
    exact .failed hb' hrun
  | m, _, _, _, _, .broken hb run ht, _, _, _, _, _, _, level, he, h, hd, hle, hall => by
    obtain rfl : level = m.depth - 1 := (congrArg Nat.pred hd).symm
    obtain ⟨n', hb', hn⟩ := h.beforePass hb
    obtain ⟨o', hrun, ho⟩ := run.abreast he hn hle le_rfl (hall.next (.passed hb))
    obtain ⟨hq, hdepth⟩ := ho.dropPass hle (run.level_le_depth (pred_le_depth_of_beforePass hb))
    obtain ⟨q', ht', hbroken⟩ := hq.takeBreak ht
    rw [← h.twins.depth] at hrun ht'
    exact ⟨⟨q', .broken hb' hrun ht', hbroken⟩, (depth_of_takeBreak ht).trans hdepth⟩
  -- the frame is put back on both stacks, so that the next pass begins abreast again
  | m, _, f, _, _, .repeated hb run ht hn rest, _, _, _, _, _, _, level, he, h, hd, hle, hall => by
    obtain rfl : level = m.depth - 1 := (congrArg Nat.pred hd).symm
    obtain ⟨n', hb', hn'⟩ := h.beforePass hb
    obtain ⟨o', hrun, ho⟩ := run.abreast he hn' hle le_rfl (hall.next (.passed hb))
    obtain ⟨q', r', ht', hafter, hr, hdr⟩ :=
      ho.next hle (run.level_le_depth (pred_le_depth_of_beforePass hb)) ht hn
    have hagain := (hall.next (.put hb run ht)).next (.again hn)
    obtain ⟨⟨s', hrest, hs⟩, hds⟩ := rest.abreast he hr hdr hle hagain
    rw [← h.twins.depth] at hrun ht'
    exact ⟨⟨s', .repeated hb' hrun ht' hafter hrest, hs⟩, hds⟩
  | m, _, f, _, _, .stuck hb run ht hn, _, _, _, _, _, _, level, he, h, hd, hle, hall => by
    obtain rfl : level = m.depth - 1 := (congrArg Nat.pred hd).symm
    obtain ⟨n', hb', hn'⟩ := h.beforePass hb
    obtain ⟨o', hrun, ho⟩ := run.abreast he hn' hle le_rfl (hall.next (.passed hb))
    obtain ⟨q', r', ht', hafter, hr, hdr⟩ :=
      ho.next hle (run.level_le_depth (pred_le_depth_of_beforePass hb)) ht hn
    obtain ⟨hs, hds⟩ := hr.dropPass hle (hdr.ge.trans' (Nat.le_succ _))
    refine ⟨⟨_, ?_, hs⟩, hds⟩
    rw [← h.twins.depth] at hrun ht' ⊢
    exact .stuck hb' hrun ht' hafter

end

end Machine
end Sequencer
