import Sequencer.Proofs.CalleeSteps
import Sequencer.Proofs.Decoding
import Sequencer.Proofs.Moments

/-!
# What a callee writes stays with it

Through the whole run of a frame, with all that it calls and loops over, nothing is written that was there before,
if only all names are default ones. Where the run of a part ends is told by induction on derivations, and all that
happens in between by induction on moments.
-/

namespace Sequencer

variable {σ : Type}

open Machine

namespace Moment

/-- The names under which something is about to be saved or deleted. -/
def writes : Moment σ → List String
  | .perform m invocation => m.writing invocation
  | .between m loop _ => loop.assigning m
  | _ => []

/-- Nothing is about to be started on the side, and all names that matter above a level are default names. -/
structure Tame (e : Engine σ) (level : Nat) (t : Moment σ) : Prop where
  alone : ¬t.Forks e
  names : ∀ name ∈ t.writes, DefaultLevel name
  results : t.machine.DefaultAbove level

end Moment


namespace Machine

/-! ## Waiting for the host program

Work of the host program is waited for, but does nothing to the stack or the scopes. -/

/-- Taking a job changes the barrier only. -/
theorem withBarrier_of_nextJob {m n : Machine σ} {job : Job σ} (h : m.nextJob = some (job, n)) :
    ∃ b, n = m.withBarrier b := by
  obtain ⟨rest, -, rfl⟩ := barrier_of_nextJob h
  exact ⟨some ⟨rest⟩, rfl⟩

/-- A job that is no thread changes what the host program keeps. -/
theorem RunsJob.of_instructions_eq_nil {e : Engine σ} {v w : World σ} {job : Job σ} {ok : Bool}
    (h : RunsJob e v job w ok) (hnone : job.instructions = []) : ∃ host, w = { v with host := host } := by
  cases h with
  | host => exact ⟨_, rfl⟩
  | unknown hc => cases hnone
  | simple hc step hd => cases hnone
  | called hc step hd run => cases hnone

/-- Where no instruction was started on the side, waiting for jobs is a matter of the host program. -/
theorem Joins.of_jobs_eq_nil {e : Engine σ} : ∀ {m : Machine σ} {failed : Nat} {n : Machine σ} {failed' : Nat},
    Joins e m failed n failed' → m.jobs = [] →
      ∃ host b, n = ⟨{ m.world with host := host }, { m.thread with barrier := b }⟩
  | m, _, _, _, .done _, _ => ⟨m.world.host, m.thread.barrier, rfl⟩
  | m, _, _, _, .next hj run rest, hnone => by
    obtain ⟨hside, hrest⟩ := threadless_of_nextJob hnone hj
    obtain ⟨host, b, he⟩ := rest.of_jobs_eq_nil hrest
    obtain ⟨c, rfl⟩ := withBarrier_of_nextJob hj
    obtain ⟨_, rfl⟩ := run.of_instructions_eq_nil hside
    exact ⟨host, b, he⟩

/-- A cycle ends no further down than at its level. -/
theorem RunsCycle.level_le_depth {e : Engine σ} {m n : Machine σ} {level : Nat} {ok : Bool}
    (h : RunsCycle e m level n ok) (hl : level ≤ m.depth) : level ≤ n.depth := by
  obtain ⟨base, hlen, hrests⟩ := exists_base hl
  exact hlen ▸ (h.leads hlen (.of_rests hrests)).1.stance.rests.length_le

/-- A run is not successful if the request was aborted. -/
theorem RunsCycle.not_aborted {e : Engine σ} {m n : Machine σ} {level : Nat} (h : RunsCycle e m level n true) :
    n.aborted = false := by
  generalize hok : true = ok at h
  cases h with
  | @closed _ _ _ _ o _ run jobs =>
    have ho : o.aborted = false := by simpa using (Bool.and_eq_true_iff.1 hok.symm).2
    exact ho

/-- A dispatch of its own registers no work. -/
theorem Dispatches.awaits {e : Engine σ} {m n : Machine σ} {c : Command σ} {i : Instruction} {key : String}
    {ok : Bool} (h : Dispatches e m c i key n ok) : m.Awaits n := by
  exact (h.leads (.free m) (Nat.zero_le _)).2

/-- An attempt that fails leaves the stack as high as it was. -/
theorem Performs.depth_of_failed {e : Engine σ} {m n : Machine σ} {invocation : Invocation σ}
    (h : Performs e m invocation n false) : n.depth = m.depth := by
  exact Frame.length_of_core ((h.leads (.free m) (Nat.zero_le _)).2.2 rfl)

end Machine

namespace Callee

variable {s : Callee σ} {m n o : Machine σ} {ds : List Driver} {level : Nat} {e : Engine σ}

/-- Work of the host program is none on the stack. -/
theorem Outcome.host (h : s.Outcome m ds) (hs : s.Sound) (host : σ) (b : Option (Barrier σ)) :
    s.Outcome ⟨{ m.world with host := host }, { m.thread with barrier := b }⟩ ds :=
  h.calm hs ⟨rfl, rfl, rfl, id⟩ (.of_env? rfl rfl fun _ _ _ => rfl) rfl

/-- A join without jobs changes nothing. -/
theorem Outcome.join (h : s.Outcome m ds) (hs : s.Sound) {failed failed' : Nat} (hj : Joins e m failed n failed')
    (hnone : m.jobs = []) : s.Outcome n ds := by
  obtain ⟨host, b, rfl⟩ := hj.of_jobs_eq_nil hnone
  exact h.host hs host b

/-- Whatever is waited for, the stack is the same. -/
theorem Outcome.withBarrier (h : s.Outcome m ds) (hs : s.Sound) (b : Option (Barrier σ)) :
    s.Outcome (m.withBarrier b) ds := h.calm hs ⟨rfl, rfl, rfl, id⟩ (.of_thread m _ _) rfl

/-- An attempt has failed, and another one follows. -/
theorem Ready.retry (h : s.Ready level m ds) (hs : s.Sound) {invocation : Invocation σ}
    (run : Performs e m invocation n false) (ho : s.Outcome n ds) (ha : n.aborted = false) (pause : Int64) :
    s.Ready level (n.wait pause) ds := by
  have hdepth : level < n.depth := run.depth_of_failed.symm ▸ h.deeper
  have hn : s.Ready level n ds :=
    ⟨ho.inside (h.floor.trans_lt hdepth), h.floor, h.base, hdepth, fun hr hl =>
      ((run.inLoop (h.looping hr hl)).2 rfl).looping (h.looping hr hl) ha⟩
  exact hn.writes hs (writes_wait n _ pause)

/-- An instruction has ended, and the cycle goes on. -/
theorem Ready.advance (h : s.Ready level m ds) {c : Command σ} {i : Instruction} {key : String} {ok : Bool}
    (step : Dispatches e m c i key n ok) (ho : s.Outcome n ds) : s.Stage level n ds :=
  ⟨ho, h.floor, h.base, fun hr hl => (step.inLoop (h.looping hr hl)).1⟩

/-- The body of a pass runs above the level of its loop. -/
theorem Passing.body {f : Frame} (h : s.Passing level m f ds) (hs : s.Sound) {loop : Loop} {pass : Pass}
    (hb : m.beforePass loop = (n, pass)) : s.Ready (m.depth - 1) n (⟨level, f⟩ :: ds) := by
  rw [h.depth_pred]
  exact (h.writes hs (writes_beforePass hb)).ready

/-- A pass has ended with no break, and the frame of the loop is put back. -/
theorem Passing.put {f : Frame} {p : Machine σ} {loop : Loop} (h : s.Passing level m f ds) (hs : s.Sound)
    (hb : m.beforePass loop = (n, .run)) (run : RunsCycle e n (m.depth - 1) o true)
    (ho : s.Outcome o (⟨level, f⟩ :: ds)) (ht : (o.unwind (m.depth - 1)).takeBreak (m.depth - 1) = (p, false)) :
    s.Passing level (p.repush f) f ds := by
  rw [h.depth_pred] at run ht
  have hpass := h.writes hs (writes_beforePass hb)
  obtain ⟨hu, hd⟩ := ho.unwind hs le_rfl hpass.ready.floor (run.level_le_depth hpass.ready.deeper.le)
  obtain ⟨hn, hdepth⟩ := hu.unbroken hs run.not_aborted hd (fun hl => (hpass.own hl).1) ht
  refine hpass.again hs hn hdepth fun hr hl => ?_
  obtain ⟨hin, -, hgoing⟩ := run.inLoop hl (hpass.ready.looping hr hl)
  rw [hl] at ht
  exact hin.unbroken (hgoing rfl) ht

/-- Between two passes a loop assigns to variables with default names. -/
theorem Passing.next {f : Frame} {loop : Loop} {next : Option Loop} (h : s.Passing level m f ds) (hs : s.Sound)
    (htame : Moment.Always e s.level (Moment.Tame e s.level) (.between m loop f))
    (hn : m.afterPass loop = (n, next)) : s.Passing level n f ds := by
  have hnames := (htame.here (h.ready.floor.trans_lt h.ready.deeper)).names
  exact h.writes hs (writes_afterPass h.ready.within.outside hnames hn)

end Callee

/-! ## Where runs end

One statement for each relation of a derivation, all proved together by induction on it. -/

namespace Machine

mutual

/-- A cycle that starts nothing on the side leaves the jobs as they are. -/
theorem Cycles.contained {e : Engine σ} : ∀ {m : Machine σ} {level : Nat} {n : Machine σ} {ok : Bool},
    Cycles e m level n ok → ∀ {s : Callee σ} {ds : List Driver}, s.Sound → s.Stage level m ds →
      Moment.Always e s.level (Moment.Tame e s.level) (.cycle m level) → s.Outcome n ds ∧ n.jobs = m.jobs
  | _, _, _, _, .aborted _, _, _, _, h, _ => ⟨h.outcome, rfl⟩
  | _, _, _, _, .drained _ hf, _, _, _, h, _ => by
    cases nextStep_cases hf with
    | drained _ => exact ⟨h.outcome, rfl⟩
    | advanced _ _ _ _ hne => exact absurd rfl hne
  | _, _, _, _, .exhausted ha hf rest, s, ds, hs, h, htame => by
    obtain ⟨hc, hw, hd⟩ := nextStep_calm hf (by simp)
    have hlt := h.floor.trans_lt (hc.depth ▸ hd)
    have hnext := h.exhausted hs ha (htame.here hlt).results hf
    obtain ⟨ho, hj⟩ := rest.contained hs hnext (htame.next hlt (.exhausted ha hf))
    exact ⟨ho, hj.trans (hw.trans (.of_eq (barrier_returnFrame _ none))).jobs⟩
  | _, _, _, _, .undecodable ha hf _, s, ds, hs, h, _ => by
    obtain ⟨-, hw, -⟩ := nextStep_calm hf (by simp)
    exact ⟨.within (h.fetched hs ha hf).within, hw.jobs⟩
  | _, _, _, _, .forked ha hf hd hp _, s, ds, hs, h, htame => by
    obtain ⟨hc, -, hdeep⟩ := nextStep_calm hf (by simp)
    have hlt := h.floor.trans_lt (hc.depth ▸ hdeep)
    exact absurd ⟨ha, _, _, _, _, _, hf, hd, hp⟩ (htame.here hlt).alone
  | _, _, _, _, .dispatched ha hf hd hp step hgo rest, s, ds, hs, h, htame => by
    obtain ⟨hc, hw, hdeep⟩ := nextStep_calm hf (by simp)
    have hlt := h.floor.trans_lt (hc.depth ▸ hdeep)
    have hready := h.fetched hs ha hf
    have ho := step.contained hs hready (htame.next hlt (.dispatched ha hf hd hp))
    obtain ⟨ho', hj⟩ :=
      rest.contained hs (hready.advance step ho) (htame.next hlt (.advanced ha hf hd hp step hgo))
    exact ⟨ho', hj.trans (hw.trans step.awaits).jobs⟩
  | _, _, _, _, .failed ha hf hd hp step _, s, ds, hs, h, htame => by
    obtain ⟨hc, hw, hdeep⟩ := nextStep_calm hf (by simp)
    have hlt := h.floor.trans_lt (hc.depth ▸ hdeep)
    have ho := step.contained hs (h.fetched hs ha hf) (htame.next hlt (.dispatched ha hf hd hp))
    exact ⟨ho, (hw.trans step.awaits).jobs⟩

/-- What the cycle comes to is left as it is by closing the barrier. -/
theorem RunsCycle.contained {e : Engine σ} : ∀ {m : Machine σ} {level : Nat} {n : Machine σ} {ok : Bool},
    RunsCycle e m level n ok → ∀ {s : Callee σ} {ds : List Driver}, s.Sound → s.Ready level m ds →
      Moment.Always e s.level (Moment.Tame e s.level) (.runCycle m level) → s.Outcome n ds
  | _, _, _, _, .closed run jobs, s, ds, hs, h, htame => by
    have hlt := h.floor.trans_lt h.deeper
    obtain ⟨ho, hj⟩ := run.contained hs (h.stage hs) (htame.next hlt .opened)
    exact (ho.join hs jobs hj).withBarrier hs _

/-- A dispatch comes to what its last attempt comes to. -/
theorem Dispatches.contained {e : Engine σ} : ∀ {m : Machine σ} {c : Command σ} {i : Instruction}
    {key : String} {n : Machine σ} {ok : Bool}, Dispatches e m c i key n ok →
    ∀ {s : Callee σ} {ds : List Driver} {level : Nat}, s.Sound → s.Ready level m ds →
      Moment.Always e s.level (Moment.Tame e s.level) (.dispatch m c i key) → s.Outcome n ds
  | _, _, _, _, _, _, .unprepared hp, _, _, _, hs, h, _ => .within (h.writes hs (writes_prepare hp)).within
  | _, _, _, _, _, _, .prepared hp run, _, _, _, hs, h, htame =>
    run.contained hs (h.writes hs (writes_prepare hp)) (htame.next (h.floor.trans_lt h.deeper) (.prepared hp))

/-- Between two attempts everything is as a failed attempt leaves it. -/
theorem Attempts.contained {e : Engine σ} : ∀ {m : Machine σ} {invocation : Invocation σ} {key : String}
    {pause total : Int64} {n : Machine σ} {ok : Bool}, Attempts e m invocation key pause total n ok →
    ∀ {s : Callee σ} {ds : List Driver} {level : Nat}, s.Sound → s.Ready level m ds →
      Moment.Always e s.level (Moment.Tame e s.level) (.attempts m invocation key pause total) → s.Outcome n ds
  | _, _, _, _, _, _, _, .spent _, _, _, _, _, h, _ => .within h.within
  | _, _, _, _, _, _, _, .succeeded ht run, _, _, _, hs, h, htame =>
    run.contained hs (h.writes hs (writes_note _ _ _)) (htame.next (h.floor.trans_lt h.deeper) (.tried ht))
  | _, _, _, _, _, _, _, .gaveUp ht run _, _, _, _, hs, h, htame =>
    run.contained hs (h.writes hs (writes_note _ _ _)) (htame.next (h.floor.trans_lt h.deeper) (.tried ht))
  | m, _, key, pause, _, _, _, .retried ht run hl rest, _, _, _, hs, h, htame => by
    have hlt := h.floor.trans_lt h.deeper
    have hnote := h.writes hs (writes_note m _ (.attempted m.thread.id key))
    have ho := run.contained hs hnote (htame.next hlt (.tried ht))
    have hagain := hnote.retry hs run ho (not_aborted_of_lastAttempt hl) pause
    exact rest.contained hs hagain (htame.next hlt (.retried ht run hl))

/-- An attempt moves its own frame, or runs a loop above it. -/
theorem Performs.contained {e : Engine σ} : ∀ {m : Machine σ} {invocation : Invocation σ} {n : Machine σ}
    {ok : Bool}, Performs e m invocation n ok →
    ∀ {s : Callee σ} {ds : List Driver} {level : Nat}, s.Sound → s.Ready level m ds →
      Moment.Always e s.level (Moment.Tame e s.level) (.perform m invocation) → s.Outcome n ds
  | _, _, _, _, .immediate hi, _, _, _, hs, h, htame => by
    have ht := htame.here (h.floor.trans_lt h.deeper)
    exact h.works hs ht.results (works_of_immediate hi h.within.outside ht.names)
  | _, _, _, _, .refused hl, _, _, _, hs, h, _ => .within (h.refused hs (begins_of_entered hl))
  | _, _, _, _, .looped hl run, _, _, _, hs, h, htame => by
    have hlt := h.floor.trans_lt h.deeper
    obtain ⟨ho, hd⟩ := run.contained hs (h.entered hs hl) (htame.next hlt (.looped hl))
    rcases ho with hin | hleft
    · exact .within hin
    · exact absurd (hd.symm.trans hleft.depth) hlt.ne'

/-- A loop is contained like the cycles of its passes. -/
theorem Drives.contained {e : Engine σ} : ∀ {m : Machine σ} {loop : Loop} {n : Machine σ} {ok : Bool},
    Drives e m loop n ok → ∀ {s : Callee σ} {ds : List Driver} {level : Nat}, s.Sound →
      s.Driving level m ds → Moment.Always e s.level (Moment.Tame e s.level) (.drive m loop) →
      (s.Within n ds ∨ s.Left n ds) ∧ n.depth = level
  | m, _, _, _, .frameless hnil, _, _, _, _, h, _ => by
    obtain ⟨f, rest, hf, -, -⟩ := h.top
    rw [disown_of_cons hf] at hnil
    cases hnil
  | _, _, _, _, .driven hf run, _, _, _, hs, h, htame => by
    have hlt := h.ready.floor.trans_lt h.ready.deeper
    obtain ⟨ho, hd⟩ := run.contained hs (h.begin hs hf) (htame.next hlt (.driven hf))
    exact ⟨Callee.leave hs ho hd h.ready.floor h.ready.within.stands.loops, hd⟩

/-- After each pass the loop is back on its own level, or all of it has been left. -/
theorem Passes.contained {e : Engine σ} : ∀ {m : Machine σ} {loop : Loop} {f : Frame} {n : Machine σ}
    {ok : Bool}, Passes e m loop f n ok → ∀ {s : Callee σ} {ds : List Driver} {level : Nat}, s.Sound →
      s.Passing level m f ds → Moment.Always e s.level (Moment.Tame e s.level) (.passes m loop f) →
      (s.Within n (⟨level, f⟩ :: ds) ∨ s.Left n (⟨level, f⟩ :: ds)) ∧ n.depth = level
  | _, _, _, _, _, .done hb hr, _, _, _, hs, h, htame => by
    have hlt := h.ready.floor.trans_lt h.ready.deeper
    have hq := (quiet_beforePass hb).calm
    have hdone := (h.writes hs (writes_beforePass hb)).done hs ((htame.here hlt).results.calm hq)
    rw [hr] at hdone
    exact hdone
  | m, _, _, _, _, .refused hb, s, _, _, hs, h, _ => by
    have hn := h.writes hs (writes_beforePass hb)
    obtain ⟨hu, hd⟩ :=
      (Callee.Outcome.within hn.ready.within).unwind hs le_rfl hn.ready.floor hn.ready.deeper.le
    rw [h.depth_pred]
    exact ⟨hu.over, hd⟩
  | m, _, _, _, _, .failed hb run, _, _, _, hs, h, htame => by
    have hlt := h.ready.floor.trans_lt h.ready.deeper
    have hpass := (h.writes hs (writes_beforePass hb)).ready
    have ho := run.contained hs (h.body hs hb) (htame.next hlt (.passed hb))
    have hd := run.level_le_depth (h.depth_pred.symm ▸ hpass.deeper.le)
    rw [h.depth_pred] at hd ⊢
    obtain ⟨hu, hd⟩ := ho.unwind hs le_rfl hpass.floor hd
    exact ⟨hu.over, hd⟩
  | m, _, _, _, _, .broken (o := o) hb run ht, _, _, level, hs, h, htame => by
    have hlt := h.ready.floor.trans_lt h.ready.deeper
    have hpass := (h.writes hs (writes_beforePass hb)).ready
    have ho := run.contained hs (h.body hs hb) (htame.next hlt (.passed hb))
    have hd := run.level_le_depth (h.depth_pred.symm ▸ hpass.deeper.le)
    rw [h.depth_pred] at hd ht
    obtain ⟨hu, hd⟩ := ho.unwind hs le_rfl hpass.floor hd
    exact ⟨hu.broken hs ht, (depth_of_takeBreak ht).trans hd⟩
  | _, _, _, _, _, .repeated hb run ht hn rest, _, _, _, hs, h, htame => by
    have hlt := h.ready.floor.trans_lt h.ready.deeper
    have ho := run.contained hs (h.body hs hb) (htame.next hlt (.passed hb))
    -- the frame of the loop is back on the stack for the next pass
    have hbetween := h.put hs hb run ho ht
    have hput := htame.next hlt (.put hb run ht)
    have hagain := hput.next (hbetween.ready.floor.trans_lt hbetween.ready.deeper) (.again hn)
    exact rest.contained hs (hbetween.next hs hput hn) hagain
  | _, _, _, _, _, .stuck hb run ht hn, _, _, _, hs, h, htame => by
    have hlt := h.ready.floor.trans_lt h.ready.deeper
    have ho := run.contained hs (h.body hs hb) (htame.next hlt (.passed hb))
    have hbetween := h.put hs hb run ho ht
    have hq := (hbetween.next hs (htame.next hlt (.put hb run ht)) hn).ready
    obtain ⟨hu, hd⟩ := (Callee.Outcome.within hq.within).unwind hs le_rfl hq.floor hq.deeper.le
    rw [h.depth_pred]
    exact ⟨hu.over, hd⟩

end

end Machine

/-! ## What happens in between

Not only the ends of a run are contained but every moment of it, since what is said about the ends can be said about
the moments between two steps. -/

namespace Callee

variable {s : Callee σ} {e : Engine σ} {t u : Moment σ}

/-- Where the run of a frame is at a moment. -/
def At (s : Callee σ) : Moment σ → Prop
  | .cycle m level => ∃ ds, s.Stage level m ds
  | .runCycle m level => ∃ ds, s.Ready level m ds
  | .dispatch m _ _ _ => ∃ level ds, s.Ready level m ds
  | .attempts m _ _ _ _ => ∃ level ds, s.Ready level m ds
  | .perform m _ => ∃ level ds, s.Ready level m ds
  | .drive m _ => ∃ level ds, s.Driving level m ds
  | .passes m _ f => ∃ level ds, s.Passing level m f ds
  | .between m _ f => ∃ level ds, s.Passing level m f ds
  | .join m _ => (∃ ds, s.Outcome m ds) ∧ m.jobs = []
  | .job m job => (∃ ds, s.Outcome m ds) ∧ job.instructions = []

namespace At

/-- At any moment the callee is there, or has been left. -/
theorem either (h : s.At t) : ∃ ds, s.Within t.machine ds ∨ s.Left t.machine ds := by
  cases t with
  | cycle m level =>
    obtain ⟨ds, h⟩ := h
    exact ⟨ds, h.outcome.over⟩
  | runCycle m level =>
    obtain ⟨ds, h⟩ := h
    exact ⟨ds, .inl h.within⟩
  | dispatch m c i key =>
    obtain ⟨_, ds, h⟩ := h
    exact ⟨ds, .inl h.within⟩
  | attempts m invocation key pause total =>
    obtain ⟨_, ds, h⟩ := h
    exact ⟨ds, .inl h.within⟩
  | perform m invocation =>
    obtain ⟨_, ds, h⟩ := h
    exact ⟨ds, .inl h.within⟩
  | drive m loop =>
    obtain ⟨_, ds, h⟩ := h
    exact ⟨ds, .inl h.ready.within⟩
  | passes m loop f =>
    obtain ⟨_, ds, h⟩ := h
    exact ⟨_, .inl h.ready.within⟩
  | between m loop f =>
    obtain ⟨_, ds, h⟩ := h
    exact ⟨_, .inl h.ready.within⟩
  | join m failed =>
    obtain ⟨⟨ds, h⟩, -⟩ := h
    exact ⟨ds, h.over⟩
  | job m job =>
    obtain ⟨⟨ds, h⟩, -⟩ := h
    exact ⟨ds, h.over⟩

/-- Where a part of the run ends, as the last section has it. -/
theorem ends (hs : s.Sound) (h : s.At t) (htame : Moment.Always e s.level (Moment.Tame e s.level) t)
    {n : Machine σ} {ok : Bool} (hn : t.Ends e n ok) : ∃ ds, s.Within n ds ∨ s.Left n ds := by
  cases t with
  | dispatch m c i key =>
    obtain ⟨level, ds, h⟩ := h
    exact ⟨ds, (Dispatches.contained hn hs h htame).over⟩
  | attempts m invocation key pause total =>
    obtain ⟨level, ds, h⟩ := h
    exact ⟨ds, (Attempts.contained hn hs h htame).over⟩
  | perform m invocation =>
    obtain ⟨level, ds, h⟩ := h
    exact ⟨ds, (Performs.contained hn hs h htame).over⟩
  | drive m loop =>
    obtain ⟨level, ds, h⟩ := h
    exact ⟨ds, (Drives.contained hn hs h htame).1⟩
  | passes m loop f =>
    obtain ⟨level, ds, h⟩ := h
    exact ⟨_, (Passes.contained hn hs h htame).1⟩
  | _ => cases hn

/-- From one such moment to the next, by what the moment is about to do. -/
theorem next (hs : s.Sound) (h : s.At t) (htame : Moment.Always e s.level (Moment.Tame e s.level) t)
    (hd : s.level < t.machine.depth) (hn : t.Next e u) : s.At u := by
  -- Each moment has its own state; what leads to the next one is the lemma about the operation in between.
  cases hn with
  | exhausted ha hf =>
    obtain ⟨ds, h⟩ := h
    exact ⟨ds, h.exhausted hs ha (htame.here hd).results hf⟩
  -- the runs that are looked at never fork
  | forked ha hf hdec hp => exact absurd ⟨ha, _, _, _, _, _, hf, hdec, hp⟩ (htame.here hd).alone
  | dispatched ha hf hdec hp =>
    obtain ⟨ds, h⟩ := h
    exact ⟨_, ds, h.fetched hs ha hf⟩
  | advanced ha hf hdec hp step hgo =>
    obtain ⟨ds, h⟩ := h
    have hready := h.fetched hs ha hf
    have ho := step.contained hs hready (htame.next hd (.dispatched ha hf hdec hp))
    -- what the instruction came to is known from the whole of its derivation
    exact ⟨ds, hready.advance step ho⟩
  | opened =>
    obtain ⟨ds, h⟩ := h
    exact ⟨ds, h.stage hs⟩
  | joined run =>
    obtain ⟨ds, h⟩ := h
    obtain ⟨ho, hj⟩ := run.contained hs (h.stage hs) (htame.next hd .opened)
    exact ⟨⟨ds, ho⟩, hj⟩
  | prepared hp =>
    obtain ⟨level, ds, h⟩ := h
    exact ⟨level, ds, h.writes hs (writes_prepare hp)⟩
  | tried ht =>
    obtain ⟨level, ds, h⟩ := h
    exact ⟨level, ds, h.writes hs (writes_note _ _ _)⟩
  | @retried m _ key pause _ _ ht run hl =>
    obtain ⟨level, ds, h⟩ := h
    have hnote := h.writes hs (writes_note m _ (.attempted m.thread.id key))
    have ho := run.contained hs hnote (htame.next hd (.tried ht))
    exact ⟨level, ds, hnote.retry hs run ho (not_aborted_of_lastAttempt hl) pause⟩
  | looped hl =>
    obtain ⟨level, ds, h⟩ := h
    exact ⟨_, ds, h.entered hs hl⟩
  | driven hf =>
    obtain ⟨level, ds, h⟩ := h
    exact ⟨level, ds, h.begin hs hf⟩
  | passed hb =>
    obtain ⟨level, ds, h⟩ := h
    exact ⟨_, h.body hs hb⟩
  | put hb run ht =>
    obtain ⟨level, ds, h⟩ := h
    have ho := run.contained hs (h.body hs hb) (htame.next hd (.passed hb))
    exact ⟨level, ds, h.put hs hb run ho ht⟩
  | again hn =>
    obtain ⟨level, ds, h⟩ := h
    exact ⟨level, ds, h.next hs htame hn⟩
  -- the jobs that are waited for are those of host commands only
  | begun hj =>
    obtain ⟨⟨ds, h⟩, hnone⟩ := h
    obtain ⟨hside, -⟩ := threadless_of_nextJob hnone hj
    obtain ⟨b, rfl⟩ := withBarrier_of_nextJob hj
    exact ⟨⟨ds, h.withBarrier hs b⟩, hside⟩
  | waited hj run =>
    obtain ⟨⟨ds, h⟩, hnone⟩ := h
    obtain ⟨hside, hrest⟩ := threadless_of_nextJob hnone hj
    obtain ⟨b, rfl⟩ := withBarrier_of_nextJob hj
    obtain ⟨host, rfl⟩ := run.of_instructions_eq_nil hside
    exact ⟨⟨ds, h.host hs host b⟩, hrest⟩
  | copied hc =>
    obtain ⟨-, hnone⟩ := h
    cases hnone
  | called hc step hgo =>
    obtain ⟨-, hnone⟩ := h
    cases hnone

/-- The step lemma, along a whole run. -/
theorem during (hs : s.Sound) (h : s.At t) (htame : Moment.Always e s.level (Moment.Tame e s.level) t)
    (hd : t.During e s.level u) : s.At u ∧ Moment.Always e s.level (Moment.Tame e s.level) u := by
  induction hd with
  | refl => exact ⟨h, htame⟩
  | @tail u v _ hstep ih => exact ⟨ih.1.next hs ih.2 hstep.1 hstep.2, ih.2.next hstep.1 hstep.2⟩

end At

/-- A callee that repeats is a loop. -/
theorem Sound.looping (hs : s.Sound) (hr : s.Repeats) : Looping s.below s.start :=
  ⟨⟨[], s.own, hs.frames, nofun, hr.1⟩, hr.2⟩

/-- It begins directly above its caller. -/
theorem Sound.depth (hs : s.Sound) : s.start.depth = s.level + 1 := congrArg List.length hs.frames

/-- A cycle may begin with it. -/
theorem Sound.stage (hs : s.Sound) : s.Stage s.level s.start s.loops :=
  ⟨.within (.start hs), le_rfl, hs.loops, fun hr _ => .looping (hs.looping hr)⟩

/-- A loop may begin with it, if it owns its scope. -/
theorem Sound.driving (hs : s.Sound) (hr : s.Repeats) (howns : s.own.ownsScope = true) :
    s.Driving s.level s.start s.loops where
  ready :=
    { within := .start hs
      floor := le_rfl
      base := hs.loops
      deeper := hs.depth ▸ Nat.lt_succ_self s.level
      looping := fun hr _ => hs.looping hr }
  top := ⟨s.own, s.below, hs.frames, rfl, howns⟩
  own _ := hr

end Callee

/-! ## The whole picture

A frame is pushed by any turn of any pool, and is run in a cycle or in a loop. -/

namespace Moment

/-- The active frame of a machine is about to run: in a cycle, which may have begun further down, or as the frame of a
loop. -/
inductive Runs (m : Machine σ) (f : Frame) (level : Nat) : Moment σ → Prop
  | cycle {l : Nat} (hl : l ≤ level) : Runs m f level (.cycle m l)
  | drive (loop : Machine.Loop) (hl : f.looping = true) (hown : f.ownsScope = true)
      (hb : m.thread.breakAt = none) : Runs m f level (.drive m loop)

/-- It does not matter from where below a cycle has begun. -/
theorem Always.tame_of_le {e : Engine σ} {level l l' : Nat} (hl : l ≤ level) (hl' : l' ≤ level) {m : Machine σ}
    (h : Always e level (Tame e level) (.cycle m l)) : Always e level (Tame e level) (.cycle m l') := by
  intro t hd hlt
  rcases hd.of_le hl' hl with hd' | ⟨n, rfl, hd'⟩
  · exact h t hd' hlt
  · have hn := h _ hd' hlt
    have hlt' : level < n.depth := hlt
    refine ⟨?_, nofun, hn.results⟩
    rintro ⟨ha, o, key, text, i, c, hs, hdec, hp⟩
    have hfetch : n.nextStep l = n.nextStep l' := nextStep_of_lt (hl.trans_lt hlt') (hl'.trans_lt hlt')
    exact hn.alone ⟨ha, o, key, text, i, c, hfetch.trans hs, hdec, hp⟩

end Moment

/-- What the run of a frame comes through has kept to itself, and what it comes to in the end is the stack below. -/
theorem Callee.Sound.visited {s : Callee σ} (hs : s.Sound) {e : Engine σ} {t : Moment σ}
    (ht : t.Runs s.start s.own s.level) (htame : Moment.Always e s.level (Moment.Tame e s.level) t) {n : Machine σ}
    (hn : t.Visits e s.level n) : ∃ ds, s.Within n ds ∨ s.Left n ds := by
  have visited : ∀ {u : Moment σ}, s.At u → Moment.Always e s.level (Moment.Tame e s.level) u →
      u.Visits e s.level n → ∃ ds, s.Within n ds ∨ s.Left n ds := by
    rintro u hu htame ⟨v, hd, rfl | ⟨ok, hend⟩⟩
    · exact (hu.during hs htame hd).1.either
    · obtain ⟨hv, htame'⟩ := hu.during hs htame hd
      exact hv.ends hs htame' hend
  cases ht with
  | cycle hl =>
    have hstage : s.At (.cycle s.start s.level) := ⟨_, hs.stage⟩
    exact visited hstage (htame.tame_of_le hl le_rfl) (hn.of_le hl le_rfl)
  | drive loop hl hown hb =>
    have hdriving : s.At (.drive s.start loop) := ⟨_, _, hs.driving ⟨hl, hb⟩ hown⟩
    exact visited hdriving htame hn

namespace Pool

/-- While a frame runs, with all that it calls, branches to and loops over, and however it breaks and returns, no scope
that was there before is different, except for that of the frame itself, and no property is: as long as nothing
is started on the side and all names under which something is assigned or removed, or passed on by frames above, are
default names. When the frame has left, the same is true of all scopes but the caller's, if its own names for results
are default names too. In the scope of the caller, only variables with these names may be different. -/
theorem callee_contained {p : Pool σ} (hp : p.Reachable) {w : Worker σ} {rest : Multiset (Worker σ)}
    (hw : p.workers = w ::ₘ rest) (hactive : p.world.request.detached = false) {f : Frame} {below : List Frame}
    (hf : w.thread.frames = f :: below) (hbase : Driver.base w.loops ≤ below.length) {e : Engine σ}
    {s : Moment σ} (hs : s.Runs (p.machine w) f below.length)
    (htame : Moment.Always e below.length (Moment.Tame e below.length) s) {n : Machine σ}
    (hn : s.Visits e below.length n) :
    (below.length < n.depth → n.store.properties = p.world.store.properties ∧
      ∀ id, p.scopes.isLive id → id ≠ f.scope → n.scopes.env? id = p.scopes.env? id) ∧
    (n.depth ≤ below.length → (∀ name ∈ f.results, DefaultLevel name) →
      n.store.properties = p.world.store.properties ∧
      (∀ id, p.scopes.isLive id → id ≠ f.scope → id ≠ topScope p.root below →
        n.scopes.env? id = p.scopes.env? id) ∧
      n.scopes.parent? (topScope p.root below) = p.scopes.parent? (topScope p.root below) ∧
      ∀ x, (∀ name ∈ f.results, ∀ a, Address.parse name.toList = .ok a → a.name ≠ x) →
        n.scopes.getLocal? (topScope p.root below) x = p.scopes.getLocal? (topScope p.root below) x) := by
  -- what was there when the frame was pushed, with all that others hold
  let c : Callee σ := ⟨p.machine w, f, below, w.loops, holders p.root rest⟩
  have hc : c.Sound := ⟨hp.sound.accounted hw, hf, hbase, hactive⟩
  obtain ⟨ds, hn⟩ := hc.visited hs htame hn
  constructor
  -- as long as the frame is on the stack, only its own scope was written to
  · intro hd
    rcases hn with hin | hleft
    · exact ⟨hin.spares.properties, fun id hl hne => hin.spares.envs id ⟨hl, hne⟩ nofun⟩
    · exact absurd hd (by rw [hleft.depth]; exact Nat.lt_irrefl _)
  · intro _ hdefault
    -- afterwards the caller has got its results, under the names that it has asked for
    obtain ⟨hspares, hstands⟩ : c.Spares (.named c.caller f.results) n ∧ c.Stands n ds := by
      rcases hn with hin | hleft
      · exact ⟨hin.spares.of_empty _, hin.stands⟩
      · exact ⟨hleft.spares hdefault, hleft.stands⟩
    obtain ⟨hparent, hheld⟩ := hc.accounted.caller hf
    have hcaller : c.Old c.caller := ⟨hc.accounted.balanced.parent_live hparent, hc.accounted.caller_ne hf⟩
    refine ⟨hspares.properties, ?_, (hstands.keeps _ (.held hheld)).2, ?_⟩
    · exact fun id hl hne hid => hspares.envs id ⟨hl, hne⟩ fun _ hx => hid hx.1
    · intro x hx
      refine hspares.vars c.caller x hcaller ?_
      -- any other name in the caller's scope is none of these
      rintro ⟨-, name, hname, a, ha, hax⟩
      exact hx name hname a ha hax

/-- A thread whose active frame has variables of its own under the names that its caller wants, and an instruction that
returns them the other way round. -/
def replier : Machine Unit :=
  ((World.new (Store.ofProperties [("INNER_1", .str "return:b,a")]) (Request.new [] none) ()).enter.push "OUTER" []
      [("a", .str "old"), ("c", .str "kept")]).push
    "INNER" ["a", "b"] [("a", .str "1"), ("b", .str "2"), ("c", .str "lost")]

/-- The machine is one of a pool that can be reached. -/
theorem replier_reachable : (replier.within [] 0).Reachable := by
  let w := World.new (Store.ofProperties [("INNER_1", .str "return:b,a")]) (Request.new [] none) ()
  let m := w.enter.push "OUTER" [] [("a", .str "old"), ("c", .str "kept")]
  have hm : (m.within [] 0).Reachable := .begin ⟨rfl, [], none, false, rfl⟩ "OUTER" [] _
  have hturn : Turn 0 m [] replier [] := .push "INNER" ["a", "b"] _
  exact hm.step (@Step.turn Unit (m.within [] 0) ⟨m.thread, []⟩ 0 _ _ rfl hturn)

/-- An engine that can return, and nothing else. -/
def returning : Engine Unit := ⟨[("return", .builtin .leave)], fun _ => .error .notFound⟩

/-- The instruction there, and the machines up to the attempt at it. -/
def reply : Instruction := ⟨true, false, .none, "return", "b,a"⟩

def fetchedReply : Machine Unit := (replier.nextStep 0).1

def preparedReply : Machine Unit := (fetchedReply.prepare returning (.builtin .leave) reply "INNER_1").1

def triedReply : Machine Unit := preparedReply.note (.attempted preparedReply.thread.id "INNER_1")

/-- The first instruction of the inner action is a return. -/
theorem nextStep_replier : replier.nextStep 0 = (fetchedReply, .instruction "INNER_1" "return:b,a") :=
  Prod.ext rfl (by decide +kernel)

/-- It has no timing of its own. -/
theorem decode_reply : fetchedReply.decode returning "return:b,a" = some (reply, .builtin .leave) :=
  decode_of_splitMarker (by decide +kernel) (by decide +kernel) rfl

/-- Nothing waits before it. -/
theorem prepare_reply : fetchedReply.prepare returning (.builtin .leave) reply "INNER_1" =
    (preparedReply, .ok (.leave ["b", "a"])) := by
  refine Prod.ext rfl ?_
  have hleave : (Builtin.prepare returning.files .leave "b,a" : Except CommandError (Invocation Unit)) =
      .ok (.leave ["b", "a"]) := by
    have hnames : splitNames "b,a" = ["b", "a"] := by decide +kernel
    have htrim : Text.trim "b,a".toList = ['b', ',', 'a'] := by decide +kernel
    unfold Builtin.prepare
    simp only
    rw [htrim, hnames]
    rfl
  exact hleave

/-- Another frame is below. -/
theorem frames_triedReply : ∃ f below, triedReply.frames = f :: below ∧ below.length = 1 :=
  ⟨_, _, (quiet_prepare prepare_reply).frames.trans rfl, rfl⟩

/-- The return leaves one frame, and succeeds. -/
theorem performs_reply {n : Machine Unit} {ok : Bool} (h : Performs returning triedReply (.leave ["b", "a"]) n ok) :
    n.depth = 1 ∧ ok = true := by
  obtain ⟨f, below, hf, hlen⟩ := frames_triedReply
  obtain ⟨o, hq, he⟩ := returnEarly_cons hf (some ["b", "a"])
  cases h with
  | immediate hi =>
    have hret : triedReply.returnEarly (some ["b", "a"]) = (n, ok) := Option.some.inj hi
    rw [he] at hret
    cases hret
    exact ⟨(congrArg List.length hq.frames).trans hlen, rfl⟩
  | refused hl => cases hl
  | looped hl => cases hl

/-- Dispatching it comes to the same. -/
theorem dispatches_reply {n : Machine Unit} {ok : Bool}
    (h : Dispatches returning fetchedReply (.builtin .leave) reply "INNER_1" n ok) : n.depth = 1 := by
  cases h with
  | unprepared hp =>
    rw [prepare_reply] at hp
    cases hp
  | prepared hp run =>
    rw [prepare_reply] at hp
    cases hp
    cases run with
    | spent ht => exact absurd ht (by decide)
    | succeeded ht run => exact (performs_reply run).1
    | gaveUp ht run hl => cases (performs_reply run).2
    | retried ht run hl rest => cases (performs_reply run).2

/-- Its run has four moments until the frame has left. -/
theorem during_replier {t : Moment Unit} (h : (Moment.cycle replier 0).During returning 1 t)
    (hd : 1 < t.machine.depth) : t = .cycle replier 0 ∨
      t = .dispatch fetchedReply (.builtin .leave) reply "INNER_1" ∨
      t = .attempts preparedReply (.leave ["b", "a"]) "INNER_1" 0 0 ∨ t = .perform triedReply (.leave ["b", "a"]) := by
  induction h with
  | refl => exact .inl rfl
  | @tail t u _ hstep ih =>
    obtain ⟨hlt, hnext⟩ := hstep
    -- from each of the four moments only the next one can follow
    rcases ih hlt with rfl | rfl | rfl | rfl
    · cases hnext with
      | exhausted ha hs =>
        rw [nextStep_replier] at hs
        cases hs
      | forked ha hs hdec hp =>
        rw [nextStep_replier] at hs
        cases hs
        rw [decode_reply] at hdec
        cases hdec
        cases hp
      | dispatched ha hs hdec hp =>
        rw [nextStep_replier] at hs
        cases hs
        rw [decode_reply] at hdec
        cases hdec
        exact .inr (.inl rfl)
      | @advanced _ _ _ _ _ _ _ n ok ha hs hdec hp step hgo =>
        rw [nextStep_replier] at hs
        cases hs
        rw [decode_reply] at hdec
        cases hdec
        have hn : 1 < n.depth := hd
        rw [dispatches_reply step] at hn
        exact absurd hn (Nat.lt_irrefl 1)
    · cases hnext with
      | prepared hp =>
        rw [prepare_reply] at hp
        cases hp
        exact .inr (.inr (.inl rfl))
    · cases hnext with
      | tried ht => exact .inr (.inr (.inr rfl))
      | retried ht run hl => cases (performs_reply run).2
    · cases hnext with
      | looped hl => cases hl

/-- Nothing in the run reaches below its level. -/
theorem tame_replier : Moment.Always returning 1 (Moment.Tame returning 1) (.cycle replier 0) := by
  -- There is no frame above the one that runs.
  have hresults : ∀ {m : Machine Unit}, m.depth = 2 → m.DefaultAbove 1 := by
    intro m hm f rest hsuf hlt
    have hle := hsuf.length_le
    unfold depth at hm
    rw [List.length_cons] at hle
    omega
  have hfetched : fetchedReply.depth = 2 := rfl
  have hprepared : preparedReply.depth = 2 := (quiet_prepare prepare_reply).calm.depth.trans hfetched
  intro t ht hd
  rcases during_replier ht hd with rfl | rfl | rfl | rfl
  · refine ⟨?_, nofun, hresults rfl⟩
    rintro ⟨ha, n, key, text, i, c, hs, hdec, hp⟩
    rw [nextStep_replier] at hs
    cases hs
    rw [decode_reply] at hdec
    cases hdec
    cases hp
  · exact ⟨id, nofun, hresults hfetched⟩
  · exact ⟨id, nofun, hresults hprepared⟩
  · exact ⟨id, nofun, hresults hprepared⟩

/-- The caller has got the two variables, and what else it has stands. -/
theorem callee_contained_replier : ∃ n, (Moment.cycle replier 0).Visits returning 1 n ∧ n.depth = 1 ∧
    n.store.properties = replier.store.properties ∧ n.scopes.env? ⟨0, 0⟩ = replier.scopes.env? ⟨0, 0⟩ ∧
    n.scopes.getLocal? ⟨1, 0⟩ "c" = some (.str "kept") := by
  obtain ⟨f, below, hf, hlen⟩ := frames_triedReply
  obtain ⟨o, hq, he⟩ := returnEarly_cons hf (some ["b", "a"])
  have run : Performs returning triedReply (.leave ["b", "a"]) (o.withScopes (releaseFrames · [f])) true :=
    .immediate (congrArg some he)
  have step : Dispatches returning fetchedReply (.builtin .leave) reply "INNER_1" _ true :=
    .prepared prepare_reply (.succeeded (by decide) run)
  have hvisits : (Moment.cycle replier 0).Visits returning 1 (o.withScopes (releaseFrames · [f])) :=
    ⟨_, .head (by decide) (.advanced rfl nextStep_replier decode_reply rfl step rfl) (.refl _), .inl rfl⟩
  have hw : (replier.within [] 0).workers = ⟨replier.thread, []⟩ ::ₘ 0 := rfl
  obtain ⟨-, hleft⟩ := callee_contained replier_reachable hw rfl rfl (Nat.zero_le 1)
    (.cycle (Nat.zero_le 1)) tame_replier hvisits
  have hdepth := (performs_reply run).1
  have hplain : ∀ name ∈ ["a", "b"], Address.IsPlain name := by decide
  have hnames : ∀ name ∈ ["a", "b"], DefaultLevel name := by
    intro name hm a ha
    rw [Address.parse_of_isPlain (hplain name hm)] at ha
    cases ha
    rfl
  obtain ⟨hproperties, hothers, -, hvars⟩ := hleft hdepth.le hnames
  refine ⟨_, hvisits, hdepth, hproperties, hothers ⟨0, 0⟩ (by decide +kernel) (by decide) (by decide), ?_⟩
  refine (hvars "c" ?_).trans rfl
  intro name hm a ha
  rw [Address.parse_of_isPlain (hplain name hm)] at ha
  cases ha
  rintro rfl
  revert hm
  decide

end Pool
end Sequencer
