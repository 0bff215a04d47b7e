import Sequencer.Proofs.Schedule

/-!
# Loops leave the stack as they found it

In the middle of a pass, the stack above a loop is in one of four states: the loop's frame is there and
loops; a break has exhausted it and all above it; it has returned; or the request was aborted. Every
step of the body leads from one of them to one of them, a break because it goes no further down than to
the loop's frame, a return because it takes one frame off, and a loop inside of the body by induction.
In each state all that is above the loop goes when the pass is unwound, so that the frames below are
untouched however the loop ends.
-/

namespace Sequencer
namespace Machine

variable {σ : Type}

/-! ## The states of a pass

In the body of a loop the frames below it stay, its own frame is on top of them or has been left, and a break that is
pending is meant for it. -/

/-- The loop above a stack goes on: its frame loops, no frame above it does, and no break is pending. -/
structure Looping (below : List Frame) (m : Machine σ) : Prop where
  frames : ∃ above f, m.frames = above ++ f :: below ∧ (∀ g ∈ above, g.looping = false) ∧
    f.looping = true
  breakAt : m.thread.breakAt = none

/-- The states in which the loop above a stack can be while its body runs. -/
inductive InLoop (below : List Frame) (m : Machine σ) : Prop
  | looping (h : Looping below m)
  /-- After a break: all that is left above the stack fetches nothing more. -/
  | ending {above} (hf : m.frames = above ++ below)
      (ha : ∀ g ∈ above, g.looping = false ∧ g.exhausted = true)
      (hb : m.thread.breakAt = some below.length)
  /-- After the return of the frame that loops. -/
  | ended (hf : m.frames = below) (hb : m.thread.breakAt = none)
  | stopped {above} (hf : m.frames = above ++ below) (ha : m.aborted = true)

/-- From one machine to another the stack is the same, and there is no break pending unless the request was
aborted. -/
structure Neutral (m n : Machine σ) : Prop where
  frames : n.frames = m.frames
  breakAt : n.aborted = false → n.thread.breakAt = none

variable {below : List Frame} {m n : Machine σ}

namespace Looping

theorem congr (h : Looping below m) (hf : n.frames = m.frames)
    (hb : n.thread.breakAt = m.thread.breakAt) : Looping below n :=
  ⟨hf ▸ h.frames, hb.trans h.breakAt⟩

/-- A pass begins with nothing but the frame of its loop. -/
theorem beforePass {f : Frame} {loop : Loop} {pass : Pass} (hf : m.frames = f :: below)
    (hl : f.looping = true) (hb : m.thread.breakAt = none) (hp : m.beforePass loop = (n, pass)) :
    Looping below n := by
  have hq := quiet_beforePass hp
  have hm : Looping below m := ⟨⟨[], f, hf, nofun, hl⟩, hb⟩
  exact hm.congr hq.frames hq.breakAt

/-- Another frame on top, as long as it does not loop. -/
theorem cons (h : Looping below m) {f : Frame} (hf : n.frames = f :: m.frames)
    (hl : f.looping = false) (hb : n.thread.breakAt = m.thread.breakAt) : Looping below n := by
  obtain ⟨above, g, hm, habove, hg⟩ := h.frames
  refine ⟨⟨f :: above, g, ?_, ?_, hg⟩, hb.trans h.breakAt⟩
  · rw [hf, hm]
    rfl
  · intro f' hf'
    rcases List.mem_cons.1 hf' with rfl | hf'
    · exact hl
    · exact habove f' hf'

/-- The active frame either loops, right above the stack, or the loop is further down. -/
theorem top (h : Looping below m) : ∃ f rest, m.frames = f :: rest ∧
    ((f.looping = true ∧ rest = below) ∨
      (f.looping = false ∧ ∀ n : Machine σ, n.frames = rest →
        n.thread.breakAt = m.thread.breakAt → Looping below n)) := by
  obtain ⟨above, f, hm, habove, hf⟩ := h.frames
  cases above with
  | nil => exact ⟨f, below, hm, .inl ⟨hf, rfl⟩⟩
  | cons g above =>
    refine ⟨g, above ++ f :: below, hm, .inr ⟨habove g List.mem_cons_self, ?_⟩⟩
    intro n hn hb
    refine ⟨⟨above, f, hn, ?_, hf⟩, hb.trans h.breakAt⟩
    exact fun g' hg' => habove g' (List.mem_cons_of_mem g hg')

/-- Fetching leaves the loop going. -/
theorem fetch (h : Looping below m) {level : Nat} {step : Step} (hs : m.nextStep level = (n, step)) :
    Looping below n := by
  cases nextStep_cases hs with
  | drained hd => exact h
  | exhausted hd hf he => exact h
  | @advanced f rest _ _ hd hf he hq hne =>
    obtain ⟨above, g, hm, habove, hg⟩ := h.frames
    have hframes : n.frames = f.advance :: rest := hq.frames
    refine ⟨?_, hq.breakAt.trans h.breakAt⟩
    rw [hm] at hf
    cases above with
    | nil =>
      cases hf
      exact ⟨[], _, hframes, nofun, hg⟩
    | cons g' above =>
      cases hf
      refine ⟨_ :: above, g, hframes, ?_, hg⟩
      intro g'' hg''
      rcases List.mem_cons.1 hg'' with rfl | hg''
      · exact habove f List.mem_cons_self
      · exact habove g'' (List.mem_cons_of_mem f hg'')

end Looping

theorem Neutral.looping (h : Neutral m n) (hl : Looping below m) (ha : n.aborted = false) :
    Looping below n := ⟨h.frames ▸ hl.frames, h.breakAt ha⟩

/-- After what is neutral the loop goes on, or the request was aborted. -/
theorem Neutral.inLoop (h : Neutral m n) (hl : Looping below m) : InLoop below n := by
  cases ha : n.aborted with
  | false => exact .looping (h.looping hl ha)
  | true =>
    obtain ⟨above, f, hm, -, -⟩ := hl.frames
    have hf : n.frames = (above ++ [f]) ++ below := by
      rw [h.frames, hm, List.append_assoc]
      rfl
    exact .stopped hf ha

/-- In every state the stack is the lower part. -/
theorem InLoop.suffix (h : InLoop below m) : below <:+ m.frames := by
  cases h with
  | looping h =>
    obtain ⟨above, f, hm, -, -⟩ := h.frames
    rw [hm]
    exact (List.suffix_cons f below).trans (List.suffix_append above (f :: below))
  | ending hf => exact hf ▸ List.suffix_append _ below
  | ended hf => exact hf ▸ List.suffix_rfl
  | stopped hf => exact hf ▸ List.suffix_append _ below

/-- Unwinding leaves the stack. -/
theorem unwind_suffix (h : below <:+ m.frames) : (m.unwind below.length).frames = below := by
  show m.frames.drop (m.frames.length - below.length) = below
  exact (List.suffix_iff_eq_drop.1 h).symm

/-! ## One step of the body

Steps of the cycle that runs the body keep to these states. -/

/-- A break ends the innermost loop and goes no further. -/
theorem breakInnermost_append {above : List Frame} {f : Frame} (habove : ∀ g ∈ above, g.looping = false)
    (hf : f.looping = true) : breakInnermost (above ++ f :: below) =
      some (above.map Frame.exhaust ++ { f.exhaust with looping := false } :: below, below.length) := by
  induction above with
  | nil =>
    show (if f.looping then _ else _) = _
    rw [if_pos hf]
    rfl
  | cons g above ih =>
    have hg := habove g List.mem_cons_self
    rw [List.cons_append]
    unfold breakInnermost
    rw [if_neg (by simp [hg]), ih fun g' hg' => habove g' (List.mem_cons_of_mem g hg')]
    rfl

/-- Marked frames return by themselves. -/
theorem returns_of_exhausted {above : List Frame} {f : Frame} (habove : ∀ g ∈ above, g.looping = false) :
    ∀ g ∈ above.map Frame.exhaust ++ [{ f.exhaust with looping := false }],
      g.looping = false ∧ g.exhausted = true := by
  intro g hg
  rcases List.mem_append.1 hg with hg | hg
  · obtain ⟨g', hg', rfl⟩ := List.mem_map.1 hg
    exact ⟨habove g' hg', rfl⟩
  · cases List.mem_singleton.1 hg
    exact ⟨rfl, rfl⟩

theorem Looping.breakLoop (h : Looping below m) : InLoop below m.breakLoop.1 := by
  obtain ⟨above, f, hm, habove, hf⟩ := h.frames
  unfold Machine.breakLoop
  rw [hm, breakInnermost_append habove hf]
  refine @InLoop.ending σ below _ (above.map Frame.exhaust ++ [{ f.exhaust with looping := false }]) ?_
    (returns_of_exhausted habove) rfl
  rw [List.append_assoc]
  rfl

/-- An attempt that runs no instructions leads from a loop that goes on to one of the four states. -/
theorem Looping.attempted {ok : Bool} (h : Looping below m) (ha : Attempted m n ok) : InLoop below n := by
  cases ha with
  | kept hq hb hj => exact .looping (h.congr hq.frames hq.breakAt)
  | called hq action results params =>
    exact .looping ((h.congr hq.frames hq.breakAt).cons rfl rfl rfl)
  | @returned o hq explicit =>
    have ho := h.congr hq.frames hq.breakAt
    obtain ⟨f, rest, hf, hcases⟩ := ho.top
    obtain ⟨o', hq', he⟩ := returnEarly_cons hf explicit
    rw [he]
    rcases hcases with ⟨hl, rfl⟩ | ⟨hl, hrest⟩
    · -- The frame of the loop itself has returned, which breaks the loop.
      refine @InLoop.ending σ _ _ [] hq'.frames nofun ?_
      rw [if_pos hl] at hq'
      exact hq'.breakAt
    · rw [if_neg (by simp [hl])] at hq'
      exact .looping (hrest _ hq'.frames hq'.breakAt)
  | broke => exact h.breakLoop

/-- An attempt that fails is neutral. -/
theorem Attempted.neutral (h : Attempted m n false) (hb : m.thread.breakAt = none) : Neutral m n :=
  ⟨h.stays, fun _ => h.still.2.trans hb⟩

/-- Where there is still an instruction to run, the loop goes on. -/
theorem InLoop.instruction (h : InLoop below m) {level : Nat} (hlevel : below.length ≤ level)
    (ha : m.aborted = false) {key text : String} (hs : m.nextStep level = (n, .instruction key text)) :
    Looping below n := by
  cases h with
  | looping h => exact h.fetch hs
  | @ending above hf hex hb =>
    -- No frame above the stack would still advance.
    cases nextStep_cases hs with
    | advanced hd hf' he hq hne =>
      rw [hf] at hf'
      cases above with
      | nil =>
        unfold Machine.depth at hd
        rw [hf] at hd
        exact absurd hd (Nat.not_lt.2 hlevel)
      | cons g above =>
        cases hf'
        rw [(hex _ List.mem_cons_self).2] at he
        cases he
  | ended hf hb =>
    cases nextStep_cases hs with
    | advanced hd hf' he hq hne =>
      unfold Machine.depth at hd
      rw [hf] at hd
      exact absurd hd (Nat.not_lt.2 hlevel)
  | stopped hf ha' =>
    rw [ha] at ha'
    cases ha'

theorem InLoop.congr (h : InLoop below m) (hf : n.frames = m.frames)
    (hb : n.thread.breakAt = m.thread.breakAt) (ha : m.aborted = true → n.aborted = true) :
    InLoop below n := by
  cases h with
  | looping h => exact .looping (h.congr hf hb)
  | ending hm hex hb' => exact .ending (hf.trans hm) hex (hb.trans hb')
  | ended hm hb' => exact .ended (hf.trans hm) (hb.trans hb')
  | stopped hm ha' => exact .stopped (hf.trans hm) (ha ha')

/-- Without an exhausted frame on top each state leads to one of them. -/
theorem InLoop.leave (h : InLoop below m) {level : Nat} (hlevel : below.length ≤ level)
    (ha : m.aborted = false) (hs : m.nextStep level = (n, .exhausted)) :
    InLoop below (n.withFrames n.frames.tail) := by
  cases h with
  | looping h =>
    have hn := h.fetch hs
    obtain ⟨f, rest, hf, hcases⟩ := hn.top
    have htail : (n.withFrames n.frames.tail).frames = rest := congrArg List.tail hf
    rcases hcases with ⟨-, rfl⟩ | ⟨-, hrest⟩
    · exact .ended htail hn.breakAt
    · exact .looping (hrest _ htail rfl)
  | @ending above hf hex hb =>
    -- the frames that a break has marked return one by one, and none below the loop does
    cases above with
    | nil =>
      cases nextStep_cases hs with
      | exhausted hd | advanced hd =>
        unfold Machine.depth at hd
        rw [hf] at hd
        exact absurd hd (Nat.not_lt.2 hlevel)
    | cons g above =>
      cases nextStep_cases hs with
      | exhausted hd hf' he =>
        have htail : (m.withFrames m.frames.tail).frames = above ++ below := congrArg List.tail hf
        exact .ending htail (fun g' hg' => hex g' (List.mem_cons_of_mem g hg')) hb
      | advanced hd hf' he hq hne =>
        rw [hf] at hf'
        cases hf'
        rw [(hex _ List.mem_cons_self).2] at he
        cases he
  | ended hf hb =>
    cases nextStep_cases hs with
    | exhausted hd | advanced hd =>
      unfold Machine.depth at hd
      rw [hf] at hd
      exact absurd hd (Nat.not_lt.2 hlevel)
  | stopped hf ha' =>
    rw [ha] at ha'
    cases ha'

/-- A return takes one frame off, and makes no mark. -/
theorem returnFrame_pops (m : Machine σ) : (m.returnFrame none).1.frames = m.frames.tail ∧
    (m.returnFrame none).1.thread.breakAt = m.thread.breakAt ∧
    (m.aborted = true → (m.returnFrame none).1.aborted = true) := by
  cases hf : m.frames with
  | nil =>
    rw [returnFrame_nil hf]
    exact ⟨hf, rfl, id⟩
  | cons f rest =>
    obtain ⟨o, hq, he⟩ := returnFrame_eq hf none
    rw [he]
    exact ⟨hq.frames, hq.breakAt, hq.aborted⟩

/-- The return of an exhausted frame leads from each state to one of them. -/
theorem InLoop.exhausted (h : InLoop below m) {level : Nat} (hlevel : below.length ≤ level)
    (ha : m.aborted = false) (hs : m.nextStep level = (n, .exhausted)) :
    InLoop below (n.returnFrame none).1 := by
  obtain ⟨hframes, hbreak, haborted⟩ := returnFrame_pops n
  exact (h.leave hlevel ha hs).congr hframes hbreak haborted

/-! ## Whole loops

Back at the loop the stack is cut down to the frames below, and a break is taken. -/

theorem not_aborted_of_lastAttempt {pause total : Int64} (h : m.lastAttempt pause total = false) :
    m.aborted = false := by
  unfold lastAttempt at h
  exact (Bool.or_eq_false_iff.1 h).2

/-- Waiting for jobs takes no abort back. -/
theorem Joins.aborted {e : Engine σ} {failed failed' : Nat} (h : Joins e m failed n failed')
    (ha : m.aborted = true) : n.aborted = true := by
  exact (h.leads (.free m)).1.onward.aborted ha

/-- No break is ever pending but one that ends this loop. -/
theorem InLoop.breakAt (h : InLoop below m) (ha : m.aborted = false) :
    m.thread.breakAt = none ∨ m.thread.breakAt = some below.length := by
  cases h with
  | looping h => exact .inl h.breakAt
  | ending _ _ hb => exact .inr hb
  | ended _ hb => exact .inl hb
  | stopped _ ha' =>
    rw [ha] at ha'
    cases ha'

/-- A pass that no break has ended leaves no break behind. -/
theorem InLoop.unbroken (h : InLoop below m) (ha : m.aborted = false)
    (ht : (m.unwind below.length).takeBreak below.length = (n, false)) :
    n.frames = below ∧ n.thread.breakAt = none := by
  obtain ⟨hb, rfl⟩ := takeBreak_eq_false_iff.1 ht
  exact ⟨unwind_suffix h.suffix, (h.breakAt ha).resolve_right hb⟩

/-- The frame of a loop is put back for another pass. -/
theorem afterPass_repush {f : Frame} {loop : Loop} {next : Option Loop} (hf : m.frames = below)
    (hn : (m.repush f).afterPass loop = (n, next)) :
    ∃ g, n.frames = g :: below ∧ g.looping = f.looping ∧ n.thread.breakAt = m.thread.breakAt := by
  have hq := quiet_afterPass hn
  have hframes : n.frames = _ :: m.frames := hq.frames
  rw [hf] at hframes
  exact ⟨_, hframes, rfl, hq.breakAt⟩

mutual

/-- The body of a loop runs through the four states. If it fails, no break is pending. -/
theorem Cycles.inLoop {e : Engine σ} : ∀ {m : Machine σ} {level : Nat} {n : Machine σ} {ok : Bool},
    Cycles e m level n ok → ∀ {below : List Frame}, below.length ≤ level → InLoop below m →
      InLoop below n ∧ (ok = false → n.aborted = false → n.thread.breakAt = none)
  | _, _, _, _, .aborted ha, _, _, h => by
    refine ⟨h, fun _ ha' => ?_⟩
    rw [ha] at ha'
    cases ha'
  | _, _, _, _, .drained _ hs, _, _, h => by
    cases nextStep_cases hs with
    | drained hd => exact ⟨h, nofun⟩
    | advanced _ _ _ _ hne => exact absurd rfl hne
  | _, _, _, _, .exhausted ha hs rest, _, hlevel, h => rest.inLoop hlevel (h.exhausted hlevel ha hs)
  | _, _, _, _, .undecodable ha hs _, _, hlevel, h => by
    have hn := h.instruction hlevel ha hs
    exact ⟨.looping hn, fun _ _ => hn.breakAt⟩
  | _, _, _, _, .forked ha hs _ _ rest, _, hlevel, h =>
    rest.inLoop hlevel (.looping ((h.instruction hlevel ha hs).congr rfl rfl))
  | _, _, _, _, .dispatched ha hs _ _ step _ rest, _, hlevel, h =>
    rest.inLoop hlevel (step.inLoop (h.instruction hlevel ha hs)).1
  | _, _, _, _, .failed ha hs _ _ step hstop, _, hlevel, h => by
    obtain ⟨hn, hneutral⟩ := step.inLoop (h.instruction hlevel ha hs)
    refine ⟨hn, fun _ => ?_⟩
    rw [Bool.or_eq_false_iff] at hstop
    exact (hneutral hstop.1).breakAt

/-- The same of a whole pass, with the jobs that its body has started. -/
theorem RunsCycle.inLoop {e : Engine σ} : ∀ {m : Machine σ} {level : Nat} {n : Machine σ} {ok : Bool},
    RunsCycle e m level n ok → ∀ {below : List Frame}, level = below.length → Looping below m →
      InLoop below n ∧ (ok = false → n.aborted = false → n.thread.breakAt = none) ∧
        (ok = true → n.aborted = false)
  | m, _, _, _, @RunsCycle.closed _ _ _ _ o ok p _ run jobs, below, hlevel, h => by
    obtain ⟨ho, hbreak⟩ := run.inLoop hlevel.ge (.looping (h.congr rfl rfl))
    -- The jobs change nothing of the stack, and at most abort the request.
    obtain ⟨hframes, hmark⟩ := jobs.stack
    have hp : InLoop below (p.withBarrier m.thread.barrier) := ho.congr hframes hmark jobs.aborted
    refine ⟨hp, ?_, ?_⟩
    · intro hok ha
      have hnot : p.aborted = false := ha
      rw [hnot, Bool.not_false, Bool.and_true] at hok
      exact hmark.trans (hbreak hok (alive_of jobs.aborted hnot))
    · intro hok
      have hnot : p.aborted = false := by simpa using (Bool.and_eq_true_iff.1 hok).2
      exact hnot

theorem Dispatches.inLoop {e : Engine σ} : ∀ {m : Machine σ} {c : Command σ} {i : Instruction}
    {key : String} {n : Machine σ} {ok : Bool}, Dispatches e m c i key n ok →
    ∀ {below : List Frame}, Looping below m → InLoop below n ∧ (ok = false → Neutral m n)
  | m, c, i, key, _, _, .unprepared hp, _, h => by
    have hq := quiet_prepare hp
    have hn := h.congr hq.frames hq.breakAt
    exact ⟨.looping hn, fun _ => ⟨hq.frames, fun _ => hn.breakAt⟩⟩
  | m, c, i, key, _, _, .prepared hp run, _, h => by
    have hq := quiet_prepare hp
    obtain ⟨ho, hneutral⟩ := run.inLoop (h.congr hq.frames hq.breakAt)
    exact ⟨ho, fun hok => ⟨(hneutral hok).frames.trans hq.frames, (hneutral hok).breakAt⟩⟩

/-- An attempt that fails and is followed by another leaves the loop going. -/
theorem Attempts.inLoop {e : Engine σ} : ∀ {m : Machine σ} {invocation : Invocation σ}
    {key : String} {pause total : Int64} {n : Machine σ} {ok : Bool},
    Attempts e m invocation key pause total n ok →
    ∀ {below : List Frame}, Looping below m → InLoop below n ∧ (ok = false → Neutral m n)
  | _, _, _, _, _, _, _, .spent _, _, h => ⟨.looping h, fun _ => ⟨rfl, fun _ => h.breakAt⟩⟩
  | _, _, _, _, _, _, _, .succeeded _ run, _, h => ⟨(run.inLoop (h.congr rfl rfl)).1, nofun⟩
  | _, _, _, _, _, _, _, .gaveUp _ run _, _, h => by
    obtain ⟨hn, hneutral⟩ := run.inLoop (h.congr rfl rfl)
    exact ⟨hn, fun hok => ⟨(hneutral hok).frames, (hneutral hok).breakAt⟩⟩
  | _, _, _, pause, total, _, _, .retried (n := n) _ run hl rest, _, h => by
    have hneutral := (run.inLoop (h.congr rfl rfl)).2 rfl
    have hgoing := hneutral.looping (h.congr rfl rfl) (not_aborted_of_lastAttempt hl)
    obtain ⟨ho, hneutral'⟩ := rest.inLoop (hgoing.congr rfl rfl)
    exact ⟨ho, fun hok => ⟨(hneutral' hok).frames.trans hneutral.frames, (hneutral' hok).breakAt⟩⟩

theorem Performs.inLoop {e : Engine σ} : ∀ {m : Machine σ} {invocation : Invocation σ} {n : Machine σ}
    {ok : Bool}, Performs e m invocation n ok →
    ∀ {below : List Frame}, Looping below m → InLoop below n ∧ (ok = false → Neutral m n)
  | _, _, _, _, .immediate hi, _, h => by
    have ha := immediate_cases hi
    refine ⟨h.attempted ha, ?_⟩
    rintro rfl
    exact ha.neutral h.breakAt
  | _, _, _, _, .refused hl, _, h => by
    have he := entered_cases hl
    have hneutral : Neutral _ _ := ⟨he.stays, fun _ => he.breakAt.trans h.breakAt⟩
    exact ⟨hneutral.inLoop h, fun _ => hneutral⟩
  | _, _, _, _, .looped hl run, _, h => by
    have he := entered_cases hl
    -- A loop in the body is neutral, so that the loop around it is where it was.
    obtain ⟨f, hf, -, hlooping⟩ := he.frame
    obtain ⟨hframes, hbreak⟩ := run.neutral hf hlooping (he.breakAt.trans h.breakAt)
    have hneutral : Neutral _ _ := ⟨hframes, hbreak⟩
    exact ⟨hneutral.inLoop h, fun _ => hneutral⟩

/-- A loop takes its frame and all that its passes leave above it off the stack. -/
theorem Drives.neutral {e : Engine σ} : ∀ {m : Machine σ} {loop : Loop} {n : Machine σ} {ok : Bool},
    Drives e m loop n ok → ∀ {f : Frame} {below : List Frame}, m.frames = f :: below →
      f.looping = true → m.thread.breakAt = none →
      n.frames = below ∧ (n.aborted = false → n.thread.breakAt = none)
  | _, _, _, _, .frameless hnil, _, _, hf, _, _ => by
    rw [disown_of_cons hf] at hnil
    cases hnil
  | m, _, _, _, .driven hdis run, f, below, hf, hl, hb => by
    have ih := @Passes.neutral _ _ _ _ _ _ run
    have hm := disown_of_cons hf
    obtain ⟨rfl, rfl⟩ := List.cons_eq_cons.1 ((congrArg Machine.frames hm).symm.trans hdis)
    refine ih hdis hl hl ?_
    rw [hm]
    exact hb

theorem Passes.neutral {e : Engine σ} : ∀ {m : Machine σ} {loop : Loop} {f : Frame} {n : Machine σ}
    {ok : Bool}, Passes e m loop f n ok → ∀ {g : Frame} {below : List Frame}, m.frames = g :: below →
      g.looping = true → f.looping = true → m.thread.breakAt = none →
      n.frames = below ∧ (n.aborted = false → n.thread.breakAt = none)
  | m, loop, _, _, _, .done (n := n) hb hr, g, below, hf, _, _, hbreak => by
    have hq := quiet_beforePass hb
    have hframes : (n.setLooping false).frames = { g with looping := false } :: below ∧
        (n.setLooping false).thread.breakAt = n.thread.breakAt := by
      rw [setLooping_of_cons (hq.frames.trans hf)]
      exact ⟨rfl, rfl⟩
    -- the last return takes the frame of the loop off
    obtain ⟨o, hq', he⟩ := returnFrame_eq hframes.1 none
    rw [he] at hr
    cases hr
    exact ⟨hq'.frames, fun _ => hq'.breakAt.trans (hframes.2.trans (hq.breakAt.trans hbreak))⟩
  | m, loop, _, _, _, .refused (n := n) hb, g, below, hf, _, _, hbreak => by
    have hq := quiet_beforePass hb
    rw [depth_pred_of_core hf rfl]
    have hsuf : below <:+ n.frames := by
      rw [hq.frames, hf]
      exact List.suffix_cons g below
    exact ⟨unwind_suffix hsuf, fun _ => hq.breakAt.trans hbreak⟩
  | m, loop, _, _, _, .failed hb run, g, below, hf, hg, _, hbreak => by
    obtain ⟨ho, hfailed, -⟩ := run.inLoop (depth_pred_of_core hf rfl) (.beforePass hf hg hbreak hb)
    rw [depth_pred_of_core hf rfl]
    exact ⟨unwind_suffix ho.suffix, hfailed rfl⟩
  -- the break that the body has left is meant for this loop
  | m, loop, _, _, _, .broken (o := o) hb run ht, g, below, hf, hg, _, hbreak => by
    obtain ⟨ho, -, -⟩ := run.inLoop (depth_pred_of_core hf rfl) (.beforePass hf hg hbreak hb)
    rw [depth_pred_of_core hf rfl] at ht
    obtain ⟨-, rfl⟩ := takeBreak_eq_true_iff.1 ht
    exact ⟨unwind_suffix ho.suffix, fun _ => rfl⟩
  | m, loop, f, _, _, .repeated hb run ht hn rest, g, below, hf, hg, hl, hbreak => by
    obtain ⟨ho, -, hgoing⟩ := run.inLoop (depth_pred_of_core hf rfl) (.beforePass hf hg hbreak hb)
    rw [depth_pred_of_core hf rfl] at ht
    obtain ⟨hframes, hnone⟩ := ho.unbroken (hgoing rfl) ht
    obtain ⟨g', hframes', hlooping, hbreak'⟩ := afterPass_repush hframes hn
    -- the next pass begins on the same frames as this one
    exact rest.neutral hframes' (hlooping.trans hl) hl (hbreak'.trans hnone)
  | m, loop, f, _, _, .stuck hb run ht hn, g, below, hf, hg, _, hbreak => by
    obtain ⟨ho, -, hgoing⟩ := run.inLoop (depth_pred_of_core hf rfl) (.beforePass hf hg hbreak hb)
    rw [depth_pred_of_core hf rfl] at ht ⊢
    obtain ⟨hframes, hnone⟩ := ho.unbroken (hgoing rfl) ht
    obtain ⟨g', hframes', -, hbreak'⟩ := afterPass_repush hframes hn
    have hsuf : below <:+ _ := hframes' ▸ List.suffix_cons g' below
    exact ⟨unwind_suffix hsuf, fun _ => hbreak'.trans hnone⟩

end

end Machine

/-! ## Loops of any thread

The same for any thread of a pool, from the command that enters the loop to its end. -/

/-- Whether a command is one of the two loops. -/
def Invocation.isLoop : Invocation σ → Bool
  | .loopFor _ => true
  | .loopRange _ => true
  | _ => false

namespace Machine

variable {e : Engine σ} {m n : Machine σ} {invocation : Invocation σ} {ok : Bool}

/-- A loop is neutral. -/
theorem Performs.loop_neutral (h : Performs e m invocation n ok) (hi : invocation.isLoop = true)
    (hb : m.thread.breakAt = none) : Neutral m n := by
  cases h with
  | immediate hn =>
    cases invocation with
    | loopFor c => cases hn
    | loopRange c => cases hn
    | _ => cases hi
  | refused hl =>
    have he := entered_cases hl
    exact ⟨he.stays, fun _ => he.breakAt.trans hb⟩
  | looped hl run =>
    have he := entered_cases hl
    obtain ⟨f, hf, -, hlooping⟩ := he.frame
    obtain ⟨hframes, hbreak⟩ := run.neutral hf hlooping (he.breakAt.trans hb)
    exact ⟨hframes, hbreak⟩

end Machine
end Sequencer
