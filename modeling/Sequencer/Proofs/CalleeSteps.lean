import Sequencer.Proofs.Callee
import Sequencer.Proofs.LoopNeutral

/-!
# Where the run of a frame can be

A step is looked at where the run of a frame is: between two instructions of a cycle, in the middle of an
instruction, or in the middle of a loop. Each step leads from one of these places to another, and none of them
writes what was there before the frame, if only all names are default ones.
-/

namespace Sequencer

variable {σ : Type}

open Machine

/-! ## Runs that use default names

A run that uses names of the default level only does not reach beyond the scope of its own frame, except by returning.
-/

/-- Every frame above a level has default names for its results. -/
def Machine.DefaultAbove (level : Nat) (m : Machine σ) : Prop :=
  ∀ f rest, f :: rest <:+ m.frames → level < rest.length → ∀ name ∈ f.results, DefaultLevel name

theorem Machine.DefaultAbove.calm {level : Nat} {m n : Machine σ} (h : m.DefaultAbove level) (hc : m.Calm n) :
    n.DefaultAbove level := by
  intro f rest hsuf hlt
  obtain ⟨f', rest', hsuf', hf, hrest⟩ := cons_suffix_of_core hc.frames hsuf
  rw [← Frame.results_of_core hf]
  exact h f' rest' hsuf' ((Frame.length_of_core hrest).symm ▸ hlt)

/-- Where a loop goes on and nothing is above its frame, the active frame loops. -/
theorem Machine.Looping.active {below rest : List Frame} {m : Machine σ} {f : Frame} (h : Looping below m)
    (hf : m.frames = f :: rest) (hlen : rest.length = below.length) : f.looping = true := by
  obtain ⟨above, g, hm, -, hg⟩ := h.frames
  rw [hm] at hf
  cases above with
  | nil =>
    cases hf
    exact hg
  | cons g' above =>
    rw [List.cons_append] at hf
    obtain ⟨-, rfl⟩ := List.cons_eq_cons.1 hf
    rw [List.length_append, List.length_cons] at hlen
    omega

namespace Callee

variable {s : Callee σ} {m n o : Machine σ} {ds : List Driver} {level : Nat} {f : Frame}

/-! ## Where a run can be

A run above the callee may be in one of its cycles, in a loop, or behind its return. These are the states in between.
-/

/-- After a step the frame may have left, and if it was that of a loop the loop is about to end. -/
inductive Outcome (s : Callee σ) (m : Machine σ) (ds : List Driver) : Prop
  | within (h : s.Within m ds)
  | left (h : s.Left m ds) (hb : s.Repeats → m.aborted = false → m.thread.breakAt = some s.level)

/-- A cycle from a level upwards is about to go on. -/
structure Stage (s : Callee σ) (level : Nat) (m : Machine σ) (ds : List Driver) : Prop where
  outcome : s.Outcome m ds
  floor : s.level ≤ level
  base : Driver.base ds ≤ level
  inLoop : s.Repeats → level = s.level → InLoop s.below m

/-- Something is about to happen above a level. -/
structure Ready (s : Callee σ) (level : Nat) (m : Machine σ) (ds : List Driver) : Prop where
  within : s.Within m ds
  floor : s.level ≤ level
  base : Driver.base ds ≤ level
  deeper : level < m.depth
  looping : s.Repeats → level = s.level → Looping s.below m

/-- A loop is about to begin with the active frame. -/
structure Driving (s : Callee σ) (level : Nat) (m : Machine σ) (ds : List Driver) : Prop where
  ready : s.Ready level m ds
  top : ∃ f rest, m.frames = f :: rest ∧ rest.length = level ∧ f.ownsScope = true
  own : level = s.level → s.Repeats

/-- A loop with the given frame is about to make a pass. -/
structure Passing (s : Callee σ) (level : Nat) (m : Machine σ) (f : Frame) (ds : List Driver) : Prop where
  ready : s.Ready level m (⟨level, f⟩ :: ds)
  depth : m.depth = level + 1
  fresh : ¬s.Old f.scope
  own : level = s.level → s.Repeats ∧ f.results = s.own.results ∧ f.looping = true
  loops : s.loops <:+ ds

theorem Outcome.calm (h : s.Outcome m ds) (hs : s.Sound) (hc : m.Calm n) (ha : m.Alters .empty n)
    (hb : n.thread.breakAt = m.thread.breakAt) : s.Outcome n ds := by
  cases h with
  | within h => exact .within (h.calm hs hc ha nofun)
  | left h hbreak =>
    exact .left (h.calm hs hc ha) fun hr hna => hb.trans (hbreak hr (alive_of hc.aborted hna))

/-- As long as there are frames above the frame's level, it has not left. -/
theorem Outcome.inside (h : s.Outcome m ds) (hd : s.level < m.depth) : s.Within m ds := by
  cases h with
  | within h => exact h
  | left h => exact absurd hd (by rw [h.depth]; exact Nat.lt_irrefl _)

/-! ## Steps of a cycle

Fetching and returning by reaching the end. -/

namespace Stage

theorem breakAt_of_nextStep {step : Step} (hs : m.nextStep level = (n, step)) :
    n.thread.breakAt = m.thread.breakAt := by
  cases nextStep_cases hs with
  | drained h => rfl
  | exhausted h hf he => rfl
  | advanced h hf he hq hne => exact hq.breakAt

/-- A fetch changes the active frame alone, and the instruction that it has found is ready to be tried. -/
theorem fetched (h : s.Stage level m ds) (hs : s.Sound) (ha : m.aborted = false) {key text : String}
    (hf : m.nextStep level = (n, .instruction key text)) : s.Ready level n ds := by
  obtain ⟨hc, -, hd⟩ := nextStep_calm hf (by simp)
  have hin := h.outcome.inside (hc.depth ▸ h.floor.trans_lt hd)
  exact ⟨hin.calm hs hc (alters_nextStep hf .empty) nofun, h.floor, h.base, hd,
    fun hr hl => (h.inLoop hr hl).instruction hl.ge ha hf⟩

/-- If the frame of a loop returns although it does not loop any more, there has been a break. -/
theorem breakAt_of_exhausted (h : InLoop s.below m) (ha : m.aborted = false)
    (hf : m.nextStep s.level = (n, .exhausted)) {rest : List Frame} (hn : n.frames = f :: rest)
    (hrest : rest.length = s.level) (hl : f.looping = false) : n.thread.breakAt = some s.level := by
  obtain ⟨hc, -, hd⟩ := nextStep_calm hf (by simp)
  have hm : s.below.length < m.depth := hc.depth ▸ hd
  unfold depth at hm
  cases h with
  | looping h =>
    rw [(h.fetch hf).active hn hrest] at hl
    cases hl
  -- The loop has been left, and the mark was made when it was.
  | ending hf' hex hb => exact (breakAt_of_nextStep hf).trans hb
  | ended hf' hb =>
    rw [hf'] at hm
    exact absurd hm (Nat.lt_irrefl _)
  | stopped hf' ha' =>
    rw [ha] at ha'
    cases ha'

/-- A frame that is exhausted returns. If it is the callee, its results go to the caller's scope; all others are
above it. -/
theorem exhausted (h : s.Stage level m ds) (hs : s.Sound) (ha : m.aborted = false)
    (hres : m.DefaultAbove s.level) (hf : m.nextStep level = (n, .exhausted)) :
    s.Stage level (n.returnFrame none).1 ds := by
  obtain ⟨hc, -, hd⟩ := nextStep_calm hf (by simp)
  have hm := h.outcome.inside (hc.depth ▸ h.floor.trans_lt hd)
  have hn := hm.calm hs hc (alters_nextStep hf .empty) nofun
  refine ⟨?_, h.floor, h.base, fun hr hl => (h.inLoop hr hl).exhausted hl.ge ha hf⟩
  cases hframes : n.frames with
  | nil =>
    unfold depth at hd
    rw [hframes] at hd
    cases hd
  | cons f rest =>
    have hlen := le_length_of_lt_depth hframes hd
    cases hl : f.looping with
    -- The frame of a loop stays where it is for its next pass, and is the loop's affair.
    | true => exact .within (hn.endPass hs hframes (h.base.trans hlen) (h.floor.trans hlen) hl)
    | false =>
      have hdefault := hres.calm hc f rest (hframes ▸ List.suffix_rfl)
      rcases hn.returnFrame hs hframes (h.base.trans hlen) (h.floor.trans hlen) hdefault none with
        hin | ⟨hleft, hown⟩
      · exact .within hin
      · -- The callee itself has returned, so that the cycle was its own.
        have hlevel : level = s.level := Nat.le_antisymm (hown ▸ hlen) h.floor
        refine .left hleft fun hr _ => ?_
        have hbreak := breakAt_of_exhausted (h.inLoop hr hlevel) ha (hlevel ▸ hf) hframes hown hl
        obtain ⟨o, hq, he⟩ := returnFrame_eq hframes none
        rw [he]
        exact hq.breakAt.trans hbreak

end Stage

/-! ## Steps of an instruction

Attempts at commands, with calls and loops among them. -/

theorem alters_breakLoop (m : Machine σ) : m.Alters .empty m.breakLoop.1 := by
  unfold breakLoop
  split
  · exact .of_thread m _ _
  · exact .of_thread m _ m.thread

namespace Ready

/-- What writes nothing at all. -/
theorem writes (h : s.Ready level m ds) (hs : s.Sound) (hw : m.Writes .empty n) : s.Ready level n ds where
  within := h.within.calm hs hw.quiet.calm hw.alters nofun
  floor := h.floor
  base := h.base
  deeper := hw.quiet.calm.depth.symm ▸ h.deeper
  looping hr hl := (h.looping hr hl).congr hw.quiet.frames hw.quiet.breakAt

theorem stage (h : s.Ready level m ds) {b : Option (Barrier σ)} (hs : s.Sound) :
    s.Stage level (m.withBarrier b) ds where
  outcome := .within (h.within.marks hs rfl)
  floor := h.floor
  base := h.base
  inLoop hr hl := .looping ((h.looping hr hl).congr rfl rfl)

/-- An attempt writes to the current scope, which is one of the callee's. -/
theorem works {ok : Bool} (h : s.Ready level m ds) (hs : s.Sound) (hres : m.DefaultAbove s.level)
    (hw : Works m n ok) : s.Outcome n ds := by
  have hd : s.level < m.depth := h.floor.trans_lt h.deeper
  cases hw with
  | kept hw => exact .within ((h.within.writes hs hd hw).marks hs rfl)
  | called hw action results params =>
    have hq := (h.writes hs hw).within
    exact .within (hq.push hs (hw.quiet.calm.depth.symm ▸ hd) action results params)
  | @returned o hw explicit =>
    have ho := h.within.writes hs hd hw
    have hdepth : level < o.depth := hw.quiet.calm.depth.symm ▸ h.deeper
    cases hframes : o.frames with
    | nil =>
      unfold depth at hdepth
      rw [hframes] at hdepth
      cases hdepth
    | cons f rest =>
      have hlen := le_length_of_lt_depth hframes hdepth
      have hdefault := hres.calm hw.quiet.calm f rest (hframes ▸ List.suffix_rfl)
      rcases ho.returnEarly hs hframes (h.base.trans hlen) (h.floor.trans hlen) hdefault explicit with
        hin | ⟨hleft, hown⟩
      · exact .within hin
      · refine .left hleft fun hr _ => ?_
        -- The active frame is that of the loop, so its return is the break.
        have hlevel : level = s.level := Nat.le_antisymm (hown ▸ hlen) h.floor
        have hlooping := (h.looping hr hlevel).congr hw.quiet.frames hw.quiet.breakAt
        obtain ⟨o', hq, he⟩ := returnEarly_cons hframes explicit
        rw [if_pos (hlooping.active hframes hown)] at hq
        rw [he, ← hown]
        exact hq.breakAt
  | broke => exact .within (h.within.calm hs (breakLoop_calm m) (alters_breakLoop m) nofun)

/-- The frame of a loop gets a scope like any other. -/
theorem began (h : s.Ready level m ds) (hs : s.Sound) {body : String} {results : List String}
    {params : Table Value} (hw : m.Writes .empty o)
    (hn : ((o.push body results params).setLooping true).Writes .empty n) :
    s.Within n ds ∧ n.depth = m.depth + 1 := by
  have ho := h.writes hs hw
  have hp := ho.within.push hs (h.floor.trans_lt ho.deeper) body results params
  have hl : s.Within ((o.push body results params).setLooping true) ds :=
    hp.calm hs (setLooping_calm _ true) (.of_thread _ .empty _) nofun
  refine ⟨hl.calm hs hn.quiet.calm hn.alters nofun, hn.quiet.calm.depth.trans ?_⟩
  exact congrArg (· + 1) hw.quiet.calm.depth

theorem refused (h : s.Ready level m ds) (hs : s.Sound) (hb : Begins m n none) : s.Within n ds := by
  cases hb with
  | refused hw => exact (h.writes hs hw).within
  | unwound hw body results params hn =>
    have hle := h.deeper.le
    exact (h.began hs hw hn).1.unwind hs (h.base.trans hle) (h.floor.trans hle)

/-- A loop begins above the callee, or is the callee itself. -/
theorem entered (h : s.Ready level m ds) (hs : s.Sound) {invocation : Invocation σ} {loop : Loop}
    (hl : m.entered invocation = some (n, some loop)) : s.Driving m.depth n ds := by
  have hlt : s.level < m.depth := h.floor.trans_lt h.deeper
  obtain ⟨f, hf, hown, -⟩ := (entered_cases hl).frame
  have hn : s.Within n ds := by
    cases begins_of_entered hl with
    | began hw body results params hn => exact (h.began hs hw hn).1
  refine ⟨⟨hn, hlt.le, h.base.trans h.deeper.le, ?_, ?_⟩, ⟨f, m.frames, hf, rfl, hown⟩, ?_⟩
  · unfold depth
    rw [hf]
    exact Nat.lt_succ_self _
  · exact fun _ he => absurd he hlt.ne'
  · exact fun he => absurd he hlt.ne'

end Ready

/-! ## Steps of a loop

The body of a loop is a run of the same kind, one level higher. -/

theorem Driving.begin (h : s.Driving level m ds) (hs : s.Sound) {rest : List Frame}
    (hf : m.disown.frames = f :: rest) : s.Passing level m.disown f ds := by
  obtain ⟨f₀, rest₀, hframes, hlen, howns⟩ := h.top
  have hdis : m.disown.frames = { f₀ with ownsScope := false } :: rest₀ := congrArg frames (disown_of_cons hframes)
  have hbreak : m.disown.thread.breakAt = m.thread.breakAt := congrArg (·.thread.breakAt) (disown_of_cons hframes)
  obtain ⟨rfl, rfl⟩ := List.cons_eq_cons.1 (hdis.symm.trans hf)
  subst hlen
  have hw := h.ready.within.beginLoop hs hframes howns h.ready.base h.ready.floor
  have hdepth : m.disown.depth = rest₀.length + 1 := congrArg List.length hdis
  have hsuf : f₀ :: rest₀ <:+ m.frames := hframes ▸ List.suffix_rfl
  have hlooping : s.Repeats → rest₀.length = s.level → Looping s.below m.disown := by
    intro hr hl
    have hm := h.ready.looping hr hl
    -- The active frame loops, so that what is below it is what is below the loop.
    refine ⟨?_, hbreak.trans hm.breakAt⟩
    obtain ⟨above, g, hg, habove, hglooping⟩ := hm.frames
    have hactive := hm.active hframes hl
    cases above with
    | nil =>
      rw [hframes] at hg
      obtain ⟨rfl, rfl⟩ := List.cons_eq_cons.1 hg
      exact ⟨[], _, hdis, nofun, hactive⟩
    | cons g' above =>
      rw [hframes] at hg
      obtain ⟨rfl, -⟩ := List.cons_eq_cons.1 hg
      rw [habove f₀ List.mem_cons_self] at hactive
      cases hactive
  refine ⟨⟨hw, h.ready.floor, le_rfl, ?_, hlooping⟩, hdepth, ?_, ?_, h.ready.within.stands.loops⟩
  · rw [hdepth]
    exact Nat.lt_succ_self _
  · exact h.ready.within.fresh (f := f₀) hsuf h.ready.floor
  · intro hl
    have hactive : f₀.looping = true := (h.ready.looping (h.own hl) hl).active hframes hl
    exact ⟨h.own hl, h.ready.within.own (f := f₀) hsuf hl, hactive⟩

namespace Passing

/-- Writing in the scope of the loop's frame. -/
theorem writes (h : s.Passing level m f ds) (hs : s.Sound) (hw : m.Writes (.scope m.currentScope) n) :
    s.Passing level n f ds where
  ready :=
    { within := h.ready.within.writes hs (h.ready.floor.trans_lt h.ready.deeper) hw
      floor := h.ready.floor
      base := h.ready.base
      deeper := hw.quiet.calm.depth.symm ▸ h.ready.deeper
      looping := fun hr hl => (h.ready.looping hr hl).congr hw.quiet.frames hw.quiet.breakAt }
  depth := hw.quiet.calm.depth.trans h.depth
  fresh := h.fresh
  own := h.own
  loops := h.loops

theorem depth_pred (h : s.Passing level m f ds) : m.depth - 1 = level := by
  rw [h.depth]
  rfl

/-- The loop's frame returns once there is nothing left to pass over. -/
theorem done (h : s.Passing level m f ds) (hs : s.Sound) (hres : m.DefaultAbove s.level) :
    (s.Within ((m.setLooping false).returnFrame none).1 (⟨level, f⟩ :: ds) ∨
      s.Left ((m.setLooping false).returnFrame none).1 (⟨level, f⟩ :: ds)) ∧
      ((m.setLooping false).returnFrame none).1.depth = level := by
  have hm : m.frames.length = level + 1 := h.depth
  cases hframes : m.frames with
  | nil =>
    rw [hframes] at hm
    cases hm
  | cons g rest =>
    rw [hframes] at hm
    have hlen : rest.length = level := Nat.succ.inj hm
    -- The last return of a loop is that of an ordinary frame.
    have hset : (m.setLooping false).frames = { g with looping := false } :: rest :=
      congrArg frames (setLooping_of_cons hframes false)
    have hcalm := setLooping_calm m false
    have halters : m.Alters .empty (m.setLooping false) := by
      rw [setLooping_of_cons hframes]
      exact .of_thread m _ _
    have hdefault := hres.calm hcalm { g with looping := false } rest (hset ▸ List.suffix_rfl)
    have hw := h.ready.within.calm hs hcalm halters nofun
    refine ⟨(hw.returnFrame hs hset hlen.ge (hlen ▸ h.ready.floor) hdefault none).imp_right And.left, ?_⟩
    obtain ⟨n, hq, he⟩ := returnFrame_eq hset none
    rw [he]
    exact (congrArg List.length hq.frames).trans hlen

end Passing

theorem Outcome.unwind (h : s.Outcome m ds) (hs : s.Sound) (hbase : Driver.base ds ≤ level)
    (hlevel : s.level ≤ level) (hd : level ≤ m.depth) :
    s.Outcome (m.unwind level) ds ∧ (m.unwind level).depth = level := by
  refine ⟨?_, depth_unwind_of_le hd⟩
  cases h with
  | within h => exact .within (h.unwind hs hbase hlevel)
  | left h hb =>
    have he : m.unwind level = m := by
      rw [unwind_eq, h.depth, Nat.sub_eq_zero_of_le hlevel]
      rfl
    rw [he]
    exact .left h hb

theorem Outcome.over (h : s.Outcome m ds) : s.Within m ds ∨ s.Left m ds := by
  cases h with
  | within h => exact .inl h
  | left h _ => exact .inr h

/-- A mark that ends a loop is taken away. -/
theorem alters_of_takeBreak {index : Nat} {broken : Bool} (h : m.takeBreak index = (n, broken)) :
    m.Alters .empty n := by
  cases broken with
  | true =>
    obtain ⟨-, rfl⟩ := takeBreak_eq_true_iff.1 h
    exact .of_thread m _ _
  | false =>
    obtain ⟨-, rfl⟩ := takeBreak_eq_false_iff.1 h
    exact .of_thread _ _ _

theorem Outcome.broken (h : s.Outcome m ds) (hs : s.Sound) {index : Nat} {broken : Bool}
    (ht : m.takeBreak index = (n, broken)) : s.Within n ds ∨ s.Left n ds := by
  have hc := calm_of_takeBreak ht
  have ha := alters_of_takeBreak ht
  cases h with
  | within h => exact .inl (h.calm hs hc ha nofun)
  | left h _ => exact .inr (h.calm hs hc ha)

/-- A loop whose frame has returned for good is about to end. -/
theorem Outcome.unbroken (h : s.Outcome m ds) (hs : s.Sound) (ha : m.aborted = false) (hd : m.depth = level)
    (hown : level = s.level → s.Repeats) (ht : m.takeBreak level = (n, false)) :
    s.Within n ds ∧ n.depth = level := by
  have hc := calm_of_takeBreak ht
  have halters := alters_of_takeBreak ht
  refine ⟨?_, hc.depth.trans hd⟩
  cases h with
  | within h => exact h.calm hs hc halters nofun
  | left h hb =>
    have hlevel : level = s.level := hd.symm.trans h.depth
    have hmark : m.thread.breakAt = some level := (hb (hown hlevel) ha).trans (congrArg some hlevel.symm)
    exact absurd hmark (takeBreak_eq_false_iff.1 ht).1

theorem Passing.again (h : s.Passing level m f ds) (hs : s.Sound) (hn : s.Within n (⟨level, f⟩ :: ds))
    (hd : n.depth = level) (hgoing : s.Repeats → level = s.level → n.frames = s.below ∧ n.thread.breakAt = none) :
    s.Passing level (n.repush f) f ds := by
  have hdepth : (n.repush f).depth = level + 1 := congrArg (· + 1) hd
  refine ⟨⟨?_, h.ready.floor, le_rfl, ?_, ?_⟩, hdepth, h.fresh, h.own, h.loops⟩
  · exact hn.repush hs hd h.ready.floor h.fresh fun hl => (h.own hl).2.1
  · rw [hdepth]
    exact Nat.lt_succ_self level
  · intro hr hl
    obtain ⟨hframes, hbreak⟩ := hgoing hr hl
    refine ⟨⟨[], { f with ip := 0, activation := n.world.activations }, ?_, nofun, (h.own hl).2.2⟩, hbreak⟩
    show _ :: n.frames = _
    rw [hframes]
    rfl

/-- The end of a loop, which takes its hold away. -/
theorem leave (hs : s.Sound) {d : Driver} (h : s.Within n (d :: ds) ∨ s.Left n (d :: ds)) (hd : n.depth = d.level)
    (hlevel : s.level ≤ d.level) (hloops : s.loops <:+ ds) :
    s.Within (n.withScopes (·.release d.frame.scope)) ds ∨
      s.Left (n.withScopes (·.release d.frame.scope)) ds :=
  h.imp (fun h => h.leaveLoop hs hd hlevel hloops) fun h => h.leaveLoop hs hd hloops

end Callee
end Sequencer
