import Sequencer.Proofs.RangeLoop

/-!
# The results of a loop

The frame of a loop is taken off the stack at the end of every pass, at a break, by a return of its own and once
there are no more passes. Only one of these may pass results on. Along a whole run of a loop nothing of it is seen
from outside until its frame returns for the last time, and after this return nothing is left to do but to end.
-/

namespace Sequencer

variable {σ : Type} {e : Engine σ}

open Machine Snapshot

/-- All that is left is to end: a cycle that finds no frame, jobs of the host program to wait for, and callers. -/
def Task.Closing : Task σ → Prop
  | .cycle _ => True
  | .join _ => True
  | .done _ => True
  | _ => False

/-- The names that a loop gives its results to. -/
def Invocation.loopResults : Invocation σ → Option (List String)
  | .loopFor c => some (splitNames c.result)
  | .loopRange c => some (splitNames c.result)
  | _ => none

/-- The active frame has some frames below it, and the given names for its results. -/
def Machine.Heading (level : Nat) (results : List String) (m : Machine σ) : Prop :=
  ∃ f below, m.frames = f :: below ∧ below.length = level ∧ f.results = results

/-- The frame of a loop, which has some frames below it, returns for the last time. -/
inductive Snapshot.LastReturn (level : Nat) (results : List String) : Snapshot σ → Snapshot σ → Prop
  /-- There is nothing left to pass over. -/
  | exhausted {m n loop f outer} (hm : m.Heading level results) (hb : m.beforePass loop = (n, .done)) :
      LastReturn level results ⟨m, .passes loop f, outer⟩ ⟨n.lastReturn, .done true, outer⟩
  /-- A break has taken the mark of the loop from the frame, and left it without instructions. -/
  | broken {m outer} (hm : m.Heading level results) (hl : m.repeating = false) :
      LastReturn level results ⟨m, .leave level, outer⟩ ⟨(m.returnFrame none).1, .cycle level, outer⟩
  /-- An instruction of the frame itself returns. What it returns may have been given to the scope before. -/
  | returned {m n invocation explicit outer} (hm : m.Heading level results) (hl : m.repeating = true)
      (hn : m.Writes (.scope m.currentScope) n) :
      LastReturn level results ⟨m, .perform invocation, outer⟩ ⟨(n.returnEarly explicit).1, .done true, outer⟩

namespace Callee

variable {s : Callee σ} {m n o : Machine σ} {ds : List Driver} {level : Nat} {ok : Bool}

/-! ## What the caller sees -/

/-- The scope of the caller is as it was at the beginning. -/
def Unchanged (s : Callee σ) (t : Snapshot σ) : Prop :=
  t.machine.scopes.env? s.caller = s.start.scopes.env? s.caller

/-- The frame has left the stack, nothing is run any more, and the scope of the caller stays as it is. -/
structure Settled (s : Callee σ) (final : Machine σ) (t : Snapshot σ) : Prop where
  depth : t.machine.depth = s.level
  closing : t.task.Closing
  scope : t.machine.scopes.env? s.caller = final.scopes.env? s.caller

/-- The caller's scope was there before the loop. -/
theorem Sound.old_caller (hs : s.Sound) : s.Old s.caller :=
  ⟨hs.accounted.balanced.parent_live (hs.accounted.caller hs.frames).1, hs.accounted.caller_ne hs.frames⟩

/-- In the loop nothing writes to the caller's scope. -/
theorem Within.unchanged (h : s.Within m ds) (hs : s.Sound) {task : Task σ} {callers : List (Caller σ)} :
    s.Unchanged ⟨m, task, callers⟩ :=
  h.spares.envs s.caller hs.old_caller nofun

/-- From one snapshot to another the frame returns for the last time, in one step. Before it the caller sees nothing,
and after it the caller has got all there is. -/
structure Publishes (s : Callee σ) (e : Engine σ) (a b : Snapshot σ) : Prop where
  once : ∃ u v, Throughout e s.Unchanged a u ∧ Step e u v ∧ LastReturn s.level s.own.results u v ∧
    Throughout e (s.Settled v.machine) v b

namespace Publishes

variable {a b c : Snapshot σ}

/-- What leaves the caller's scope alone may come before. -/
theorem after (h : Throughout e s.Unchanged a b) (h' : s.Publishes e b c) : s.Publishes e a c := by
  obtain ⟨u, v, hbefore, hrest⟩ := h'.once
  exact ⟨u, v, h.trans hbefore, hrest⟩

/-- What is settled already may come behind. -/
theorem closes (h : s.Publishes e a b) (h' : Throughout e (s.Settled b.machine) b c) : s.Publishes e a c := by
  obtain ⟨u, v, hbefore, step, hlast, hafter⟩ := h.once
  have hb := hafter.last.scope
  exact ⟨u, v, hbefore, step, hlast, hafter.trans (h'.mono fun x hx => ⟨hx.depth, hx.closing, hx.scope.trans hb⟩)⟩

end Publishes

/-- How a task in the body of a loop is done: the caller sees nothing of it, or the frame of the loop has returned for
the last time and has left the mark of the loop. -/
inductive Way (s : Callee σ) (e : Engine σ) (a : Snapshot σ) (n : Machine σ) (ok : Bool) (outer : List (Caller σ)) :
    Prop
  | quiet (h : Throughout e s.Unchanged a ⟨n, .done ok, outer⟩)
      (hn : s.level < n.depth ∨ n.thread.breakAt = none)
  | told (h : s.Publishes e a ⟨n, .done ok, outer⟩) (hd : n.depth = s.level)
      (hb : n.thread.breakAt = some s.level) (hok : ok = true)

/-- How a loop at some level is done: the caller sees nothing of it if it is another loop or fails. -/
inductive LoopWay (s : Callee σ) (e : Engine σ) (level : Nat) (a : Snapshot σ) (n : Machine σ) (ok : Bool)
    (outer : List (Caller σ)) : Prop
  | quiet (h : Throughout e s.Unchanged a ⟨n, .done ok, outer⟩) (hn : s.level < level ∨ ok = false)
  | told (h : s.Publishes e a ⟨n, .done ok, outer⟩) (hd : n.depth = s.level) (hl : level = s.level) (hok : ok = true)

variable {a b : Snapshot σ} {outer : List (Caller σ)}

/-- It may be the way there that leaves the scope alone. -/
theorem Way.after (h : Throughout e s.Unchanged a b) (h' : s.Way e b n ok outer) : s.Way e a n ok outer := by
  cases h' with
  | quiet hw hn => exact .quiet (h.trans hw) hn
  | told hp hd hb hok => exact .told (.after h hp) hd hb hok

/-- Nothing that fails has ended the loop. -/
theorem Way.failed (h : s.Way e a n false outer) :
    Throughout e s.Unchanged a ⟨n, .done false, outer⟩ ∧ (s.level < n.depth ∨ n.thread.breakAt = none) := by
  cases h with
  | quiet hw hn => exact ⟨hw, hn⟩
  | told _ _ _ hok => cases hok

/-- The same for a loop. -/
theorem LoopWay.after (h : Throughout e s.Unchanged a b) (h' : s.LoopWay e level b n ok outer) :
    s.LoopWay e level a n ok outer := by
  cases h' with
  | quiet hw hn => exact .quiet (h.trans hw) hn
  | told hp hd hl hok => exact .told (.after h hp) hd hl hok

/-- A cycle that the frame has left finds nothing to do. -/
theorem Publishes.drain (h : s.Publishes e a ⟨m, .cycle level, outer⟩) (hd : m.depth = s.level)
    (hb : m.thread.breakAt = some s.level) (hl : s.level ≤ level) (rest : Cycles e m level n ok)
    (hn : n.aborted = false) : s.Way e a n ok outer := by
  have hle : m.depth ≤ level := hd.trans_le hl
  obtain ⟨rfl, rfl⟩ := rest.of_depth_le hle hn
  have hm : ∀ {t : Task σ}, t.Closing → s.Settled n ⟨n, t, outer⟩ := fun ht => ⟨hd, ht, rfl⟩
  refine .told (h.closes ?_) hd hb rfl
  exact .begin (.drained hn (nextStep_of_le hle)) (hm trivial) (.refl (hm trivial))

/-- As long as the frame has not returned for the last time, all that was there is as it was. -/
theorem Outcome.quiet (h : s.Outcome m ds) (hr : s.Repeats) (ha : m.aborted = false)
    (hm : s.level < m.depth ∨ m.thread.breakAt = none) : s.Within m ds := by
  cases h with
  | within h => exact h
  | left h hb =>
    rcases hm with hd | hnone
    · exact absurd hd (by rw [h.depth]; exact Nat.lt_irrefl _)
    · rw [hb hr ha] at hnone
      cases hnone

/-- A loop gives the scope of its frame up, which is not the scope of the caller. -/
theorem Stands.env?_release {d : Driver} (h : s.Stands m (d :: ds)) (hs : s.Sound) (hd : m.depth = d.level)
    (hlevel : s.level ≤ d.level) (hloops : s.loops <:+ ds) :
    (m.scopes.release d.frame.scope).env? s.caller = m.scopes.env? s.caller := by
  have hn := h.turn (.leaveLoop d hd) le_rfl hlevel hloops
  exact env?_of_sub (Arena.release_sub m.scopes d.frame.scope) (hn.isLive hs hs.old_caller)

/-- If nothing is above the frame, it is the active one. -/
theorem Within.heading (h : s.Within m ds) (hd : m.depth = s.level + 1) : m.Heading s.level s.own.results := by
  unfold depth at hd
  obtain ⟨f, below, hf⟩ := List.exists_cons_of_length_eq_add_one hd
  rw [hf] at hd
  have hlen : below.length = s.level := Nat.succ.inj hd
  exact ⟨f, below, hf, hlen, h.own (hf ▸ List.suffix_rfl) hlen⟩

/-- A loop that is no longer repeated, but would still be marked if it went on, has been broken. -/
theorem repeating_of_exhausted {below : List Frame} (h : InLoop below m) (ha : m.aborted = false)
    (hf : m.nextStep below.length = (n, .exhausted)) (hb : n.thread.breakAt ≠ none) : n.repeating = false := by
  obtain ⟨hd, hlt⟩ := depth_of_nextStep hf nofun
  have hbreak := Stage.breakAt_of_nextStep hf
  cases h with
  | looping h => exact absurd (hbreak.trans h.breakAt) hb
  | ended _ h => exact absurd (hbreak.trans h) hb
  | stopped _ h =>
    rw [ha] at h
    cases h
  | @ending above hm hex _ =>
    cases nextStep_cases hf with
    | exhausted _ hf' _ =>
      cases above with
      | nil => exact absurd (congrArg List.length hm) hlt.ne'
      | cons g above =>
        unfold repeating
        rw [hm]
        exact (hex g List.mem_cons_self).1
    | advanced _ hf' he _ _ =>
      cases above with
      | nil => exact absurd (congrArg List.length hm) hlt.ne'
      | cons g above =>
        rw [hm] at hf'
        cases hf'
        rw [(hex _ List.mem_cons_self).2] at he
        cases he

/-- An attempt that runs no instructions. If it is the last return of the frame of the loop, it has marked the loop. -/
theorem Ready.immediate (h : s.Ready level m ds) (hs : s.Sound) (hr : s.Repeats) (hres : m.DefaultAbove s.level)
    {invocation : Invocation σ} (hi : m.immediate invocation = some (n, ok)) (hw : Works m n ok)
    (ha : n.aborted = false) (outer : List (Caller σ)) : s.Way e ⟨m, .perform invocation, outer⟩ n ok outer := by
  have ho := h.works hs hres hw
  have hd : s.level < m.depth := h.floor.trans_lt h.deeper
  by_cases hnext : s.level < n.depth ∨ n.thread.breakAt = none
  · have hn := ho.quiet hr ha hnext
    -- unless the frame of the loop has gone, nothing of what the attempt has done is seen outside
    exact .quiet (.begin (.immediate hi) (h.within.unchanged hs) (.refl (hn.unchanged hs))) hnext
  · obtain ⟨hle, -⟩ := not_or.1 hnext
    -- Only a return takes the last frame of the body away: commands of other kinds leave the stack as high as it was.
    cases hw with
    | kept hw => exact absurd (hw.quiet.calm.depth.symm ▸ hd) hle
    | @called o hw => exact absurd (hd.trans (hw.quiet.calm.depth.symm ▸ Nat.lt_succ_self _)) hle
    | broke => exact absurd ((breakLoop_calm m).depth.symm ▸ hd) hle
    | @returned o hw explicit =>
      have hdepth : m.depth = o.depth := hw.quiet.calm.depth.symm
      obtain ⟨f, below, hframes⟩ := List.exists_cons_of_length_pos (Nat.zero_lt_of_lt (hdepth ▸ hd))
      have hlen : o.depth = below.length + 1 := congrArg List.length hframes
      have hgone : (o.returnEarly explicit).1.depth = below.length :=
        congrArg List.length (frames_returnEarly hframes explicit)
      have hfloor := h.floor
      have hdeeper := h.deeper
      -- the frame that returns is that of the loop itself
      have hlevel : level = s.level := by omega
      have hown : below.length = s.level := by omega
      have hlooping := (h.looping hr hlevel).active (hw.quiet.frames.symm.trans hframes) hown
      have hrepeating : m.repeating = true := by
        unfold repeating
        rw [hw.quiet.frames.symm.trans hframes]
        exact hlooping
      obtain ⟨q, hq, he⟩ := returnEarly_cons hframes explicit
      rw [if_pos hlooping] at hq
      -- So it is put aside for the loop, and the loop is marked.
      have hok : (o.returnEarly explicit).2 = true := by rw [he]
      have hbreak : (o.returnEarly explicit).1.thread.breakAt = some s.level := by
        rw [he, ← hown]
        exact hq.breakAt
      rw [hok] at hi ⊢
      have hlast : LastReturn s.level s.own.results ⟨m, .perform invocation, outer⟩
          ⟨(o.returnEarly explicit).1, .done true, outer⟩ := .returned (h.within.heading (by omega)) hrepeating hw
      have hstep : Snapshot.Step e ⟨m, .perform invocation, outer⟩ ⟨(o.returnEarly explicit).1, .done true, outer⟩ :=
        .begin (.immediate hi) outer
      refine .told ⟨_, _, .refl (h.within.unchanged hs), hstep, hlast, .refl ?_⟩ (hgone.trans hown) hbreak rfl
      exact ⟨hgone.trans hown, trivial, rfl⟩

/-- A frame without further instructions returns. If this is the last return of the frame of the loop, it has been
broken, and has left the mark of the loop. -/
theorem Stage.broken (h : s.Stage level m ds) (hr : s.Repeats) (ha : m.aborted = false)
    (hin : s.Within n ds) (hf : m.nextStep level = (n, .exhausted)) (hn : (n.returnFrame none).1.aborted = false)
    (hstage : s.Stage level (n.returnFrame none).1 ds)
    (hnext : ¬(s.level < (n.returnFrame none).1.depth ∨ (n.returnFrame none).1.thread.breakAt = none)) :
    LastReturn s.level s.own.results ⟨n, .leave level, outer⟩ ⟨(n.returnFrame none).1, .cycle level, outer⟩ ∧
      (n.returnFrame none).1.depth = s.level ∧ (n.returnFrame none).1.thread.breakAt = some s.level := by
  obtain ⟨hd, hlt⟩ := depth_of_nextStep hf nofun
  obtain ⟨hle, hbreak⟩ := not_or.1 hnext
  have hdepth := depth_returnFrame n none
  have hfloor := h.floor
  have hlevel : level = s.level := by omega
  have hlast : (n.returnFrame none).1.thread.breakAt = some s.level :=
    ((hstage.inLoop hr hlevel).breakAt hn).resolve_left hbreak
  subst hlevel
  refine ⟨.broken (hin.heading (by omega)) ?_, by omega, hlast⟩
  obtain ⟨f, below, hframes, -⟩ := hin.heading (by omega)
  obtain ⟨o, hq, he⟩ := returnFrame_eq hframes none
  refine repeating_of_exhausted (h.inLoop hr rfl) ha hf fun hnone => hbreak ?_
  rw [he]
  exact hq.breakAt.trans hnone

end Callee

namespace Machine

/-- The mark of a loop is found when the frame has gone, and taken away. -/
theorem of_takeBreak {m n : Machine σ} {level : Nat} {broken : Bool} (hd : m.depth = level)
    (h : (m.unwind level).takeBreak level = (n, broken)) :
    if broken then m.thread.breakAt = some level ∧ n = m.withBreak none else m.thread.breakAt ≠ some level ∧ n = m := by
  rw [unwind_of_le hd.le] at h
  cases broken with
  | true => exact takeBreak_eq_true_iff.1 h
  | false => exact takeBreak_eq_false_iff.1 h

/-- After a pass that leaves no mark, the caller has seen nothing yet. -/
theorem unmarked_way {s : Callee σ} {a : Snapshot σ} {o q : Machine σ} {level : Nat} {outer : List (Caller σ)}
    (h : s.Way e a o true outer) (hd : o.depth = level) (ht : (o.unwind level).takeBreak level = (q, false)) :
    Throughout e s.Unchanged a ⟨o, .done true, outer⟩ := by
  cases h with
  | quiet hw _ => exact hw
  | told _ hq hbreak _ => exact absurd (hbreak.trans (congrArg some (hq.symm.trans hd))) (of_takeBreak hd ht).1

/-- Where no thread is waited for, nothing happens until the jobs are done that a thread would notice. -/
theorem Joins.throughout : ∀ {m : Machine σ} {failed : Nat} {n : Machine σ} {failed' : Nat},
    Joins e m failed n failed' → m.jobs = [] → ∀ {P : Snapshot σ → Prop} {outer : List (Caller σ)},
      (∀ (o : Machine σ) (t : Task σ), o.scopes = m.scopes → o.frames = m.frames → t.Closing → P ⟨o, t, outer⟩) →
      Throughout e P ⟨m, .join failed, outer⟩ ⟨n, .done true, outer⟩
  | m, _, _, _, .done hj, _, _, _, hP => .begin (.joined hj) (hP m _ rfl rfl trivial) (.refl (hP m _ rfl rfl trivial))
  | m, _, _, _, .next hj run rest, hjobs, _, _, hP => by
    obtain ⟨hthreads, hrest⟩ := threadless_of_nextJob hjobs hj
    have ih := @Joins.throughout _ _ _ _ rest hrest
    obtain ⟨b, rfl⟩ := withBarrier_of_nextJob hj
    cases run with
    | host => exact .begin (.worked hj) (hP m _ rfl rfl trivial) (ih hP)
    | unknown | simple | called => cases hthreads

/-- The end of a cycle with a barrier of its own. -/
theorem Joins.closes {m n : Machine σ} {failed : Nat} (h : Joins e m 0 n failed) (hjobs : m.jobs = [])
    {P : Snapshot σ → Prop} (hP : ∀ (o : Machine σ) (t : Task σ) (callers : List (Caller σ)), o.scopes = m.scopes →
      o.frames = m.frames → t.Closing → P ⟨o, t, callers⟩) (b : Option (Barrier σ)) (ok : Bool)
    (outer : List (Caller σ)) :
    Throughout e P ⟨m, .done ok, .opened b :: outer⟩ ⟨n.withBarrier b, .done (ok && !n.aborted), outer⟩ := by
  obtain ⟨host, c, hn⟩ := h.of_jobs_eq_nil hjobs
  have hscopes : n.scopes = m.scopes := by rw [hn]; rfl
  refine .resume .joins (hP m _ _ rfl rfl trivial) ?_
  refine .trans (h.throughout hjobs fun o t ho hf ht => hP o t _ ho hf ht) ?_
  exact .resume .closed (hP n _ _ hscopes h.stack.1 trivial) (.refl (hP _ _ _ hscopes h.stack.1 trivial))

/-! ### The beginning of a loop

A loop begins with a scope for its frame. Nothing is written to any other scope by that. -/

section

variable {others : Multiset ScopeId} {m n : Machine σ} {ds : List Driver} {id : ScopeId}

theorem Begins.detached {loop : Loop} (h : Begins m n (some loop)) : n.request.detached = m.request.detached := by
  cases h with
  | began hw _ _ _ hn => exact hn.detached.trans hw.detached

/-- The active scope is one of those that are held. -/
theorem Accounted.mem_currentScope (h : Accounted others m ds) :
    m.currentScope ∈ heldBy m.frames ds + others := by
  rw [currentScope_eq]
  cases hf : m.frames with
  | nil => exact Multiset.mem_add.2 (.inr h.root)
  | cons f below =>
    have hst := h.stacked
    rw [hf] at hst
    exact Multiset.mem_add.2 (.inl (hst.mem_heldBy List.mem_cons_self))

/-- What is held is held with more frames on the stack. -/
theorem mem_heldBy_of_suffix {fs gs : List Frame} (hid : id ∈ heldBy gs ds + others) (hsuf : gs <:+ fs) :
    id ∈ heldBy fs ds + others := by
  have hrests : RestsOn fs gs := hsuf.map Frame.core
  exact Multiset.mem_of_le (add_le_add_left (heldBy_le hrests ds) others) hid

/-- The frame of a loop gets a scope of its own, and all other scopes stay as they are. -/
theorem Accounted.enterLoop (h : Accounted others m ds) (hid : id ∈ heldBy m.frames ds + others)
    {body result : String} {params : Table Value} {r : Except StorageError Unit}
    (hl : m.enterLoop body result params = (n, r)) :
    n.scopes.env? id = m.scopes.env? id ∧ ∃ fs, n.frames = fs ++ m.frames ∧ Accounted others n ds := by
  have hw := writes_resolve m params
  unfold Machine.enterLoop at hl
  cases he : m.resolve params with
  | mk o r' =>
    rw [he] at hl hw
    have henv : o.scopes.env? id = m.scopes.env? id := hw.envs id nofun
    have ho := (h.calm hw.quiet.calm).1
    cases r' with
    | error err =>
      cases hl
      exact ⟨henv, [], hw.quiet.frames, ho⟩
    | ok values =>
      cases hl
      rw [← hw.quiet.frames] at hid
      have hpush := (ho.push body (splitNames result) values).1
      have halters := (ho.alters_push .empty body (splitNames result) values).1
      have hlive := hpush.isLive (mem_heldBy_of_suffix hid (List.suffix_cons _ _))
      have hstays := halters.envs id (ho.isLive hid) hlive nofun
      exact ⟨hstays.trans henv, [_], congrArg _ hw.quiet.frames, (hpush.calm (setLooping_calm _ true)).1⟩

/-- Nothing that is held changes until a loop has begun, or has turned out not to. -/
theorem Accounted.entering (h : Accounted others m ds) (hid : id ∈ heldBy m.frames ds + others)
    {invocation : Invocation σ} {loop : Option Loop} (hl : m.entered invocation = some (n, loop))
    (outer : List (Caller σ)) :
    Throughout e (fun t => t.machine.scopes.env? id = m.scopes.env? id) ⟨m, .perform invocation, outer⟩
      ⟨n, loop.elim (.done false) .drive, outer⟩ := by
  unfold entered at hl
  cases invocation with
  | loopFor c =>
    have hfor : m.enterFor c = (n, loop) := Option.some.inj hl
    have henv : n.scopes.env? id = m.scopes.env? id := by
      unfold enterFor at hfor
      rcases he : m.enterLoop c.body c.result c.initial with ⟨o, err | _⟩
      all_goals
        rw [he] at hfor
        cases hfor
        exact (h.enterLoop hid he).1
    cases loop with
    | none => exact .begin (.refused hfor) rfl (.refl henv)
    | some loop => exact .begin (.looped hfor) rfl (.refl henv)
  | loopRange c =>
    have hrange : m.enterRange c = (n, loop) := Option.some.inj hl
    unfold enterRange at hrange
    rcases he : m.enterLoop c.body c.result c.params with ⟨o, err | _⟩
    · rw [he] at hrange
      cases hrange
      exact .begin (.rejected he) rfl (.refl (h.enterLoop hid he).1)
    · obtain ⟨henv, fs, hframes, ho⟩ := h.enterLoop hid he
      have hread := writes_read o c.range
      refine .begin (.ranged he) rfl ?_
      simp only [he] at hrange
      rcases hr : o.read c.range with ⟨q, err | v⟩
      · rw [hr] at hrange hread
        cases hrange
        -- what is held is held without the frame
        have hq := (ho.calm hread.quiet.calm).1
        have hbase : Driver.base ds ≤ m.depth := h.stacked.base_le
        have hgone := (hq.unwind m.depth hbase).1
        have hsplit : q.frames = fs ++ m.frames := hread.quiet.frames.trans hframes
        have hfs : (q.unwind m.depth).frames = m.frames := unwind_suffix ⟨fs, hsplit.symm⟩
        have hlive : q.scopes.isLive id := hq.isLive (mem_heldBy_of_suffix hid ⟨fs, hsplit.symm⟩)
        have hstays := (alters_unwind q .empty m.depth).envs id hlive (hgone.isLive (hfs.symm ▸ hid)) (fun _ h => h.elim)
        exact .begin (.unreadable hr) henv (.refl (hstays.trans ((hread.envs id (fun _ h => h.elim)).trans henv)))
      · rw [hr] at hrange hread
        cases hrange
        have hn : n.scopes.env? id = m.scopes.env? id := (hread.envs id (fun _ h => h.elim)).trans henv
        refine .begin (.chosen hr) henv ?_
        cases v <;> exact .refl hn
  | _ => cases hl

end

variable {s : Callee σ}

/-- The caller sees nothing of the beginning of another loop. -/
theorem entering_unchanged {level : Nat} (h : s.Ready level m ds) (hs : s.Sound) {invocation : Invocation σ}
    {loop : Option Loop} (hl : m.entered invocation = some (n, loop)) (outer : List (Caller σ)) :
    Throughout e s.Unchanged ⟨m, .perform invocation, outer⟩ ⟨n, loop.elim (.done false) .drive, outer⟩ := by
  have hle := s.held_le h.within.stands.loops h.within.stands.rests
  have hid : s.caller ∈ heldBy m.frames ds + s.others :=
    Multiset.mem_of_le hle (hs.accounted.caller hs.frames).2
  have hm : m.scopes.env? s.caller = s.start.scopes.env? s.caller := h.within.spares.envs s.caller hs.old_caller nofun
  exact (h.within.stands.accounted.entering hid hl outer).mono fun t ht => ht.trans hm

/-- The body of a loop begins, and the caller sees nothing of it. -/
theorem pass_unchanged {loop : Loop} {f : Frame} (h : s.Passing (m.depth - 1) m f ds) (hs : s.Sound)
    (htame : Moment.Always e s.level (Moment.Tame e s.level) (.passes m loop f))
    (hb : m.beforePass loop = (n, .run)) (outer : List (Caller σ)) :
    s.Ready (m.depth - 1) n (⟨m.depth - 1, f⟩ :: ds) ∧
      Moment.Always e s.level (Moment.Tame e s.level) (.runCycle n (m.depth - 1)) ∧
      Throughout e s.Unchanged ⟨m, .passes loop f, outer⟩
        ⟨n, .runCycle (m.depth - 1), .pass (m.depth - 1) loop f :: outer⟩ := by
  have hbody := h.body hs hb
  refine ⟨hbody, htame.next (h.ready.floor.trans_lt h.ready.deeper) (.passed hb), ?_⟩
  exact .begin (.passed hb) (h.ready.within.unchanged hs) (.refl (hbody.within.unchanged hs))

/-- The frame of a loop is put back on the stack, where another pass could begin. -/
theorem put_back {loop : Loop} {again : Option Loop} {f : Frame} {o p q : Machine σ}
    (h : s.Passing (m.depth - 1) m f ds) (hs : s.Sound)
    (htame : Moment.Always e s.level (Moment.Tame e s.level) (.passes m loop f))
    (hb : m.beforePass loop = (n, .run)) (run : RunsCycle e n (m.depth - 1) o true)
    (ht : (o.unwind (m.depth - 1)).takeBreak (m.depth - 1) = (p, false))
    (hnext : (p.repush f).afterPass loop = (q, again)) :
    s.Passing (m.depth - 1) (p.repush f) f ds ∧ s.Passing (m.depth - 1) q f ds ∧
      Moment.Always e s.level (Moment.Tame e s.level) (.between (p.repush f) loop f) := by
  have hlt := h.ready.floor.trans_lt h.ready.deeper
  have ho := run.contained hs (h.body hs hb) (htame.next hlt (.passed hb))
  have hput := htame.next hlt (.put hb run ht)
  have hbetween := h.put hs hb run ho ht
  exact ⟨hbetween, hbetween.next hs hput hnext, hput⟩

mutual

/-- A cycle of the loop's body publishes nothing by itself. If it ends with success below the loop, the final return
was among what it has done. -/
theorem Cycles.way (hs : s.Sound) (hr : s.Repeats) : ∀ {m : Machine σ} {level : Nat} {n : Machine σ} {ok : Bool},
    Cycles e m level n ok → n.aborted = false → ∀ {ds : List Driver}, s.Stage level m ds →
      (s.level < m.depth ∨ m.thread.breakAt = none) →
      Moment.Always e s.level (Moment.Tame e s.level) (.cycle m level) →
      ∀ outer, s.Way e ⟨m, .cycle level, outer⟩ n ok outer
  | _, _, _, _, .aborted ha, hn, _, _, _, _, _ => by
    rw [hn] at ha
    cases ha
  | m, level, _, _, .drained ha hf, hn, _, h, hm, _, outer => by
    have hin := h.outcome.quiet hr ha hm
    cases nextStep_cases hf with
    | drained _ => exact .quiet (.begin (.drained ha hf) (hin.unchanged hs) (.refl (hin.unchanged hs))) hm
    | advanced _ _ _ _ hne => exact absurd rfl hne
  | m, level, _, _, .exhausted (n := q) ha hf rest, hn, _, h, hm, htame, outer => by
    obtain ⟨hc, -, hdeep⟩ := nextStep_calm hf (by simp)
    have hlt := h.floor.trans_lt (hc.depth ▸ hdeep)
    have hin := h.outcome.quiet hr ha hm
    have hq := hin.calm hs hc (alters_nextStep hf .empty) nofun
    have hstage := h.exhausted hs ha (htame.here hlt).results hf
    have hleave : Throughout e s.Unchanged ⟨m, .cycle level, outer⟩ ⟨q, .leave level, outer⟩ :=
      .begin (.exhausted ha hf) (hin.unchanged hs) (.refl (hq.unchanged hs))
    -- the frame that leaves is above that of the loop, or it is the one of the loop and its return ends the loop
    by_cases hnext : s.level < (q.returnFrame none).1.depth ∨ (q.returnFrame none).1.thread.breakAt = none
    · have hgone := hstage.outcome.quiet hr (rest.alive hn) hnext
      have hrest := rest.way hs hr hn hstage hnext (htame.next hlt (.exhausted ha hf)) outer
      exact .after (hleave.trans (.begin .left (hq.unchanged hs) (.refl (hgone.unchanged hs)))) hrest
    · obtain ⟨hlast, hd, hb⟩ := h.broken hr ha hq hf (rest.alive hn) hstage hnext
      have hpublish : s.Publishes e ⟨m, .cycle level, outer⟩ _ :=
        ⟨_, _, hleave, .begin .left outer, hlast, .refl ⟨hd, trivial, rfl⟩⟩
      exact hpublish.drain hd hb h.floor rest hn
  | _, _, _, _, .undecodable ha hf hdec, hn, _, h, hm, htame, outer => by
    have hin := h.outcome.quiet hr ha hm
    have hready := h.fetched hs ha hf
    refine .quiet (.begin (.undecodable ha hf hdec) (hin.unchanged hs) (.refl (hready.within.unchanged hs))) ?_
    exact .inl (h.floor.trans_lt hready.deeper)
  | _, _, _, _, .forked ha hf hd hp _, hn, _, h, hm, htame, outer => by
    obtain ⟨hc, -, hdeep⟩ := nextStep_calm hf (by simp)
    have hlt := h.floor.trans_lt (hc.depth ▸ hdeep)
    -- nothing is started on the side
    exact absurd ⟨ha, _, _, _, _, _, hf, hd, hp⟩ (htame.here hlt).alone
  | m, level, _, _, @Cycles.dispatched _ _ _ _ _ _ _ _ _ o _ _ _ ha hf hd hp step hgo rest, hn, ds, h, hm, htame,
      outer => by
    obtain ⟨hc, -, hdeep⟩ := nextStep_calm hf (by simp)
    have hlt := h.floor.trans_lt (hc.depth ▸ hdeep)
    have hin := h.outcome.quiet hr ha hm
    have hready := h.fetched hs ha hf
    have hna := rest.alive hn
    have hstep := htame.next hlt (.dispatched ha hf hd hp)
    have ho := step.contained hs hready hstep
    have hfetch : Throughout e s.Unchanged ⟨m, .cycle level, outer⟩ _ :=
      .begin (.fetched ha hf hd hp) (hin.unchanged hs) (.refl (hready.within.unchanged hs))
    refine .after hfetch ?_
    cases step.way hs hr hna hready hstep (.cycle level _ :: outer) with
    | quiet hw hq =>
      have htame' := htame.next hlt (.advanced ha hf hd hp step hgo)
      have hrest := rest.way hs hr hn (hready.advance step ho) hq htame' outer
      exact .after hw (.after (.resume (.advanced hgo) hw.last (.refl hw.last)) hrest)
    | told hw hq hb hok =>
      have hgone : Throughout e (s.Settled o) ⟨o, .done _, .cycle level _ :: outer⟩ ⟨o, .cycle level, outer⟩ :=
        .resume (.advanced hgo) ⟨hq, trivial, rfl⟩ (.refl ⟨hq, trivial, rfl⟩)
      exact (hw.closes hgone).drain hq hb h.floor rest hn
  | m, level, _, _, .failed ha hf hd hp step hstop, hn, _, h, hm, htame, outer => by
    obtain ⟨hc, -, hdeep⟩ := nextStep_calm hf (by simp)
    have hlt := h.floor.trans_lt (hc.depth ▸ hdeep)
    have hin := h.outcome.quiet hr ha hm
    have hready := h.fetched hs ha hf
    have hfetch : Throughout e s.Unchanged ⟨m, .cycle level, outer⟩ _ :=
      .begin (.fetched ha hf hd hp) (hin.unchanged hs) (.refl (hready.within.unchanged hs))
    refine .after hfetch ?_
    cases step.way hs hr hn hready (htame.next hlt (.dispatched ha hf hd hp)) (.cycle level _ :: outer) with
    | quiet hw hq => exact .quiet (hw.trans (.resume (.failed hstop) hw.last (.refl hw.last))) hq
    | told _ _ _ hok =>
      rw [hok] at hstop
      cases hstop

/-- With the barrier closed behind it, the cycle goes the same way. Whatever is waited for stands on stacks of its
own. -/
theorem RunsCycle.way (hs : s.Sound) (hr : s.Repeats) : ∀ {m : Machine σ} {level : Nat} {n : Machine σ} {ok : Bool},
    RunsCycle e m level n ok → n.aborted = false → ∀ {ds : List Driver}, s.Ready level m ds →
      Moment.Always e s.level (Moment.Tame e s.level) (.runCycle m level) →
      ∀ outer, s.Way e ⟨m, .runCycle level, outer⟩ n ok outer
  | m, level, _, _, @RunsCycle.closed _ _ _ _ p ok o _ run jobs, hn, _, h, htame, outer => by
    have hstage := h.stage (b := some .new) hs
    have htame' := htame.next (h.floor.trans_lt h.deeper) .opened
    obtain ⟨hframes, hbreak⟩ := jobs.stack
    have ho : o.aborted = false := hn
    have hjobs : p.jobs = [] := (run.contained hs hstage htame').2
    have hm : s.level < (m.withBarrier (some .new)).depth := h.floor.trans_lt h.deeper
    have hopen : Throughout e s.Unchanged ⟨m, .runCycle level, outer⟩ _ :=
      .begin .opened (h.within.unchanged hs) (.refl ((hstage.outcome.inside hm).unchanged hs))
    refine .after hopen ?_
    have hdepth : o.depth = p.depth := congrArg List.length hframes
    cases run.way hs hr (alive_of jobs.aborted ho) hstage (.inl hm) htame' (.opened m.thread.barrier :: outer) with
    | quiet hw hq =>
      have hclose := jobs.closes hjobs (P := s.Unchanged) (fun q t callers hscopes _ _ => by
        show q.scopes.env? s.caller = _
        rw [hscopes]
        exact hw.last) m.thread.barrier ok outer
      exact .quiet (hw.trans hclose) (hq.imp (fun h => h.trans_eq hdepth.symm) hbreak.trans)
    | told hw hq hb hok =>
      have hclose := jobs.closes hjobs (P := s.Settled p) (fun q t callers hscopes hf ht =>
        ⟨(congrArg List.length hf).trans hq, ht, by rw [hscopes]⟩) m.thread.barrier ok outer
      exact .told (hw.closes hclose) (hdepth.trans hq) (hbreak.trans hb) (by rw [hok, ho]; rfl)

/-- An instruction may be attempted several times, but ends with one attempt. -/
theorem Dispatches.way (hs : s.Sound) (hr : s.Repeats) : ∀ {m : Machine σ} {c : Command σ} {i : Instruction}
    {key : String} {n : Machine σ} {ok : Bool}, Dispatches e m c i key n ok → n.aborted = false →
    ∀ {ds : List Driver} {level : Nat}, s.Ready level m ds →
      Moment.Always e s.level (Moment.Tame e s.level) (.dispatch m c i key) →
      ∀ outer, s.Way e ⟨m, .dispatch c i key, outer⟩ n ok outer
  | _, _, _, _, _, _, .unprepared hp, hn, _, _, h, htame, outer => by
    have hready := h.writes hs (writes_prepare hp)
    refine .quiet (.begin (.unprepared hp) (h.within.unchanged hs) (.refl (hready.within.unchanged hs))) ?_
    exact .inl (h.floor.trans_lt hready.deeper)
  | _, _, _, _, _, _, .prepared hp run, hn, _, _, h, htame, outer => by
    have hready := h.writes hs (writes_prepare hp)
    have hlt := h.floor.trans_lt h.deeper
    have hrun := run.way hs hr hn hready (htame.next hlt (.prepared hp)) outer
    exact .after (.begin (.prepared hp) (h.within.unchanged hs) (.refl (hready.within.unchanged hs))) hrun

/-- Attempts that fail leave the caller's scope alone, so that only the last one matters. -/
theorem Attempts.way (hs : s.Sound) (hr : s.Repeats) : ∀ {m : Machine σ} {invocation : Invocation σ} {key : String}
    {pause total : Int64} {n : Machine σ} {ok : Bool}, Attempts e m invocation key pause total n ok →
    n.aborted = false → ∀ {ds : List Driver} {level : Nat}, s.Ready level m ds →
      Moment.Always e s.level (Moment.Tame e s.level) (.attempts m invocation key pause total) →
      ∀ outer, s.Way e ⟨m, .attempts invocation key pause total, outer⟩ n ok outer
  | _, _, _, _, _, _, _, .spent ht, hn, _, _, h, _, outer =>
    .quiet (.begin (.spent ht) (h.within.unchanged hs) (.refl (h.within.unchanged hs)))
      (.inl (h.floor.trans_lt h.deeper))
  | m, _, key, _, _, _, _, .succeeded ht run, hn, _, _, h, htame, outer => by
    have hnote := h.writes hs (writes_note m _ (.attempted m.thread.id key))
    have hrun := htame.next (h.floor.trans_lt h.deeper) (.tried ht)
    refine .after (.begin (.tried ht) (h.within.unchanged hs) (.refl (hnote.within.unchanged hs))) ?_
    -- an attempt that succeeds is the last one, so that what it publishes is published once
    cases run.way hs hr hn hnote hrun (.attempts _ _ _ _ :: outer) with
    | quiet hw hq => exact .quiet (hw.trans (.resume .succeeded hw.last (.refl hw.last))) hq
    | told hw hq hb hok =>
      exact .told (hw.closes (.resume .succeeded ⟨hq, trivial, rfl⟩ (.refl ⟨hq, trivial, rfl⟩))) hq hb hok
  | m, invocation, key, _, _, _, _, .gaveUp ht run hl, hn, _, _, h, htame, outer => by
    have hnote := h.writes hs (writes_note m _ (.attempted m.thread.id key))
    have hrun := htame.next (h.floor.trans_lt h.deeper) (.tried ht)
    obtain ⟨hw, hq⟩ := (run.way hs hr hn hnote hrun (.attempts invocation key _ _ :: outer)).failed
    have hback := hw.trans (.resume (.gaveUp hl) hw.last (.refl hw.last))
    exact .quiet (.begin (.tried ht) (h.within.unchanged hs) hback) hq
  | m, invocation, key, pause, _, _, _, .retried ht run hl rest, hn, _, _, h, htame, outer => by
    have hlt := h.floor.trans_lt h.deeper
    have hnote := h.writes hs (writes_note m _ (.attempted m.thread.id key))
    have hrun := htame.next hlt (.tried ht)
    -- a failed attempt published nothing, and the next one begins like the first
    have hna := not_aborted_of_lastAttempt hl
    obtain ⟨hw, -⟩ := (run.way hs hr hna hnote hrun (.attempts invocation key _ _ :: outer)).failed
    have hagain := hnote.retry hs run (run.contained hs hnote hrun) hna pause
    have hback := hw.trans (.resume (.retried hl) hw.last (.refl (hagain.within.unchanged hs)))
    have hrest := rest.way hs hr hn hagain (htame.next hlt (.retried ht run hl)) outer
    exact .after (.begin (.tried ht) (h.within.unchanged hs) hback) hrest

/-- An attempt either returns from the frame of the loop, or runs a loop inside of it. -/
theorem Performs.way (hs : s.Sound) (hr : s.Repeats) : ∀ {m : Machine σ} {invocation : Invocation σ} {n : Machine σ}
    {ok : Bool}, Performs e m invocation n ok → n.aborted = false →
    ∀ {ds : List Driver} {level : Nat}, s.Ready level m ds →
      Moment.Always e s.level (Moment.Tame e s.level) (.perform m invocation) →
      ∀ outer, s.Way e ⟨m, .perform invocation, outer⟩ n ok outer
  | _, _, _, _, .immediate hi, hn, _, _, h, htame, outer => by
    have ht := htame.here (h.floor.trans_lt h.deeper)
    exact h.immediate hs hr ht.results hi (works_of_immediate hi h.within.outside ht.names) hn outer
  | m, _, n, _, .refused hl, hn, _, _, h, htame, outer => by
    have hbegin : Throughout e _ _ _ := entering_unchanged h hs hl outer
    have hd : n.depth = m.depth := congrArg List.length (entered_cases hl).stays
    exact .quiet hbegin (.inl (h.floor.trans_lt (hd.symm ▸ h.deeper)))
  | m, _, _, _, .looped hl run, hn, _, _, h, htame, outer => by
    have hlt := h.floor.trans_lt h.deeper
    have hbegin : Throughout e _ _ _ := entering_unchanged h hs hl outer
    have hdrive := h.entered hs hl
    obtain ⟨-, hd⟩ := run.contained hs hdrive (htame.next hlt (.looped hl))
    cases run.way hs hr hn hdrive (htame.next hlt (.looped hl)) outer with
    | quiet hw _ => exact .quiet (hbegin.trans hw) (.inl (hd.symm ▸ hlt))
    | told _ _ hl _ => exact absurd hl hlt.ne'

/-- A loop inside of another one publishes to the body around it, not to the caller. -/
theorem Drives.way (hs : s.Sound) (hr : s.Repeats) : ∀ {m : Machine σ} {loop : Loop} {n : Machine σ} {ok : Bool},
    Drives e m loop n ok → n.aborted = false → ∀ {ds : List Driver} {level : Nat}, s.Driving level m ds →
      Moment.Always e s.level (Moment.Tame e s.level) (.drive m loop) →
      ∀ outer, s.LoopWay e level ⟨m, .drive loop, outer⟩ n ok outer
  | m, _, _, _, .frameless hnil, _, _, _, h, _, _ => by
    obtain ⟨f, rest, hf, -, -⟩ := h.top
    rw [disown_of_cons hf] at hnil
    cases hnil
  | m, loop, _, _, .driven (f := f) (n := n) hf run, hn, ds, level, h, htame, outer => by
    have hlt := h.ready.floor.trans_lt h.ready.deeper
    have hpass := h.begin hs hf
    obtain ⟨hend, hd⟩ := run.contained hs hpass (htame.next hlt (.driven hf))
    have hstands : s.Stands n (⟨level, f⟩ :: ds) := hend.elim (·.stands) (·.stands)
    have hscope := hstands.env?_release hs hd h.ready.floor h.ready.within.stands.loops
    have hbegin : Throughout e s.Unchanged ⟨m, .drive loop, outer⟩ _ :=
      .begin (.driven hf) (h.ready.within.unchanged hs) (.refl (hpass.ready.within.unchanged hs))
    refine .after hbegin ?_
    cases run.way hs hr hn hpass (htame.next hlt (.driven hf)) (.release _ f :: outer) with
    | quiet hw hq => exact .quiet (hw.trans (.resume .released hw.last (.refl (hscope.trans hw.last)))) hq
    | told hw hq hl hok =>
      exact .told (hw.closes (.resume .released ⟨hq, trivial, rfl⟩ (.refl ⟨hq, trivial, hscope⟩))) hq hl hok

/-- Between the passes of an inner loop the frames of the outer one stay as they are. -/
theorem Passes.way (hs : s.Sound) (hr : s.Repeats) : ∀ {m : Machine σ} {loop : Loop} {f : Frame} {n : Machine σ}
    {ok : Bool}, Passes e m loop f n ok → n.aborted = false →
    ∀ {ds : List Driver} {level : Nat}, s.Passing level m f ds →
      Moment.Always e s.level (Moment.Tame e s.level) (.passes m loop f) →
      ∀ outer, s.LoopWay e level ⟨m, .passes loop f, outer⟩ n ok outer
  | m, loop, f, o, ok, .done (n := n) hb hret, hn, _, level, h, htame, outer => by
    obtain ⟨hend, hd⟩ := (Passes.done (f := f) hb hret).contained hs h htame
    rcases h.ready.floor.lt_or_eq with hlt | rfl
    · -- another loop, whose results go to a frame above
      have ho : s.Within o _ := hend.resolve_right fun hleft => hlt.ne (hleft.depth.symm.trans hd)
      exact .quiet (.begin (.finished hb hret) (h.ready.within.unchanged hs) (.refl (ho.unchanged hs))) (.inl hlt)
    · have hpos : 0 < n.depth := (quiet_beforePass hb).calm.depth.symm ▸ Nat.zero_lt_of_lt h.ready.deeper
      obtain ⟨rfl, rfl⟩ : n.lastReturn = o ∧ true = ok := Prod.mk.inj ((returnFrame_setLooping hpos).symm.trans hret)
      have hlast : LastReturn s.level s.own.results ⟨m, .passes loop f, outer⟩ _ :=
        .exhausted (h.ready.within.heading h.depth) hb
      refine .told ⟨_, _, .refl (h.ready.within.unchanged hs), .begin (.finished hb hret) outer, hlast, ?_⟩ hd rfl rfl
      exact .refl ⟨hd, trivial, rfl⟩
  | m, _, _, _, _, .refused hb, hn, _, level, h, htame, outer => by
    obtain rfl : m.depth - 1 = level := h.depth_pred
    have hpass := h.writes hs (writes_beforePass hb)
    have hgone := hpass.ready.within.unwind hs le_rfl hpass.ready.floor
    exact .quiet (.begin (.stopped hb) (h.ready.within.unchanged hs) (.refl (hgone.unchanged hs))) (.inr rfl)
  | m, loop, f, _, _, .failed (o := o) hb run, hn, _, level, h, htame, outer => by
    obtain rfl : m.depth - 1 = level := h.depth_pred
    obtain ⟨hbody, hrun, hbegin⟩ := pass_unchanged h hs htame hb outer
    have ho := run.contained hs hbody hrun
    obtain ⟨hw, hq⟩ := (run.way hs hr hn hbody hrun (.pass (m.depth - 1) loop f :: outer)).failed
    have hgone := (ho.quiet hr hn hq).unwind hs le_rfl h.ready.floor
    exact .quiet (hbegin.trans (hw.trans (.resume .unwound hw.last (.refl (hgone.unchanged hs))))) (.inr rfl)
  | m, loop, f, n, _, .broken (o := o) hb run ht, hn, _, level, h, htame, outer => by
    obtain rfl : m.depth - 1 = level := h.depth_pred
    obtain ⟨hbody, hrun, hbegin⟩ := pass_unchanged h hs htame hb outer
    have hd : o.depth = m.depth - 1 := (run.depth hbody.deeper.le).1 rfl
    -- whatever the body has done, the loop only takes the mark that is meant for it
    refine .after hbegin ?_
    cases run.way hs hr run.not_aborted hbody hrun (.pass _ loop f :: outer) with
    | quiet hw hq =>
      obtain ⟨hbreak, rfl⟩ := of_takeBreak hd ht
      rcases hq with hq | hnone
      · exact .quiet (hw.trans (.resume (.broken ht) hw.last (.refl hw.last))) (.inl (hd ▸ hq))
      · rw [hnone] at hbreak
        cases hbreak
    -- the frame has returned in the body of this pass, and the mark is the loop's own
    | told hw hq _ _ =>
      obtain ⟨-, rfl⟩ := of_takeBreak hd ht
      have hclose : Throughout e (s.Settled o) ⟨o, .done true, .pass _ loop f :: outer⟩ _ :=
        .resume (.broken ht) ⟨hq, trivial, rfl⟩ (.refl ⟨hq, trivial, rfl⟩)
      exact .told (hw.closes hclose) hq (hd.symm.trans hq) rfl
  | m, loop, f, _, _, .repeated (o := o) hb run ht hnext rest, hn, _, level, h, htame, outer => by
    obtain rfl : m.depth - 1 = level := h.depth_pred
    obtain ⟨hbody, hrun, hbegin⟩ := pass_unchanged h hs htame hb outer
    obtain ⟨hbetween, hagain, hnames⟩ := put_back h hs htame hb run ht hnext
    have hd : o.depth = m.depth - 1 := (run.depth hbody.deeper.le).1 rfl
    have hway := run.way hs hr run.not_aborted hbody hrun (.pass (m.depth - 1) loop f :: outer)
    have hw := unmarked_way hway hd ht
    have hlt := hbetween.ready.floor.trans_lt hbetween.ready.deeper
    -- the frame was put back without a mark, so that nothing was published in this pass
    have hrest := rest.way hs hr hn hagain (hnames.next hlt (.again hnext)) outer
    refine .after (hbegin.trans (hw.trans (.resume (.put ht) hw.last ?_))) hrest
    exact .begin (.again hnext) (hbetween.ready.within.unchanged hs) (.refl (hagain.ready.within.unchanged hs))
  | m, loop, f, _, _, .stuck (o := o) hb run ht hnext, hn, _, level, h, htame, outer => by
    obtain rfl : m.depth - 1 = level := h.depth_pred
    obtain ⟨hbody, hrun, hbegin⟩ := pass_unchanged h hs htame hb outer
    obtain ⟨hbetween, hagain, -⟩ := put_back h hs htame hb run ht hnext
    have hd : o.depth = m.depth - 1 := (run.depth hbody.deeper.le).1 rfl
    have hway := run.way hs hr run.not_aborted hbody hrun (.pass (m.depth - 1) loop f :: outer)
    have hw := unmarked_way hway hd ht
    have hgone := hagain.ready.within.unwind hs le_rfl hbetween.ready.floor
    refine .quiet (hbegin.trans (hw.trans (.resume (.put ht) hw.last ?_))) (.inr rfl)
    exact .begin (.stuck hnext) (hbetween.ready.within.unchanged hs) (.refl (hgone.unchanged hs))

end

/-- The frame of a loop has the names that the loop gives its results to. -/
theorem frame_of_entered {m n : Machine σ} {invocation : Invocation σ} {results : List String} {loop : Loop}
    (hi : invocation.loopResults = some results) (hl : m.entered invocation = some (n, some loop)) :
    ∃ f, n.frames = f :: m.frames ∧ f.results = results := by
  cases invocation with
  | loopFor c =>
    cases hi
    obtain ⟨o, values, hq, rfl⟩ := covers_quiet.of_looped (Option.some.inj hl)
    exact ⟨_, congrArg _ hq.frames, rfl⟩
  | loopRange c =>
    cases hi
    have hrange : m.enterRange c = (n, some loop) := Option.some.inj hl
    unfold enterRange at hrange
    rcases he : m.enterLoop c.body c.result c.params with ⟨o, err | _⟩
    · rw [he] at hrange
      cases hrange
    · obtain ⟨q, values, hq, rfl⟩ := covers_quiet.of_ranged he
      simp only [he] at hrange
      rcases hr : ((q.push c.body (splitNames c.result) values).setLooping true).read c.range with ⟨r, err | v⟩
      all_goals
        rw [hr] at hrange
        cases hrange
      exact ⟨_, (covers_quiet.of_read hr).frames.trans (congrArg _ hq.frames), rfl⟩
  | _ => cases hi

end Machine

/-- What a host command does to variables, it does under default names. -/
def WritesDefaults (run : Machine σ → Effect σ) : Prop := ∀ m, ∀ u ∈ (run m).updates, DefaultLevel u.target

namespace Moment

open Machine

/-- A loop over a collection whose body calls nothing: no frame is above its own, no instruction on the side is waited
for, and what is written is written under default names. -/
inductive Idle (level : Nat) : Moment σ → Prop
  | cycle {m l} (hd : m.depth ≤ level + 1) (hj : m.jobs = []) : Idle level (.cycle m l)
  | dispatch {m c i key} (hd : m.depth ≤ level + 1)
      (hc : ∀ payload o run, c.prepare payload o = .ok run → WritesDefaults run) :
      Idle level (.dispatch m (.host c) i key)
  | attempts {m run key pause total} (hd : m.depth ≤ level + 1) (hw : WritesDefaults run) :
      Idle level (.attempts m (.host run) key pause total)
  | perform {m run} (hd : m.depth ≤ level + 1) (hw : WritesDefaults run) : Idle level (.perform m (.host run))
  | runCycle {m l} (hd : m.depth ≤ level + 1) : Idle level (.runCycle m l)
  | drive {m items index key value} (hd : m.depth ≤ level + 1) : Idle level (.drive m (.over items index key value))
  | passes {m items index key value f} (hd : m.depth ≤ level + 1) :
      Idle level (.passes m (.over items index key value) f)
  | between {m items index key value f} (hd : m.depth ≤ level + 1) :
      Idle level (.between m (.over items index key value) f)
  | join {m failed} (hd : m.depth ≤ level + 1) (hj : m.jobs = []) : Idle level (.join m failed)
  | job {m work} (hd : m.depth ≤ level + 1) : Idle level (.job m (.host work))

end Moment

/-- All commands are the host program's, which start their own work on the side and write under default names. -/
def Engine.Hosted (e : Engine σ) : Prop := ∀ name c, e.registry.get? name = some c → c.isAsync = true ∧
  ∀ h, c = .host h → ∀ payload m run, h.prepare payload m = .ok run → WritesDefaults run

namespace Engine.Hosted

variable {e : Engine σ} {m : Machine σ} {text : String} {i : Instruction} {c : Command σ}

/-- A host command may run on the side. -/
theorem isAsync (he : e.Hosted) (hdec : m.decode e text = some (i, c)) : c.isAsync = true :=
  (he _ _ (registered_of_decode hdec)).1

/-- It is a command of the host program. -/
theorem exists_host (he : e.Hosted) (hdec : m.decode e text = some (i, c)) :
    ∃ h, c = .host h ∧ ∀ payload o run, h.prepare payload o = .ok run → WritesDefaults run := by
  obtain ⟨hc, hw⟩ := he _ _ (registered_of_decode hdec)
  cases c with
  | builtin b => cases hc
  | host h => exact ⟨h, rfl, hw h rfl⟩

/-- Such an engine never has to refuse one. -/
theorem not_parallel (he : e.Hosted) (hdec : m.decode e text = some (i, c)) (hp : (i.parallel && !c.isAsync) = true) :
    False := by
  rw [he.isAsync hdec, Bool.not_true, Bool.and_false] at hp
  cases hp

end Engine.Hosted

namespace Machine

variable {e : Engine σ} {m n : Machine σ}

/-- Fetching registers nothing. -/
theorem nextStep_awaits {level : Nat} {step : Step} (h : m.nextStep level = (n, step)) : m.Awaits n := by
  cases nextStep_cases h with
  | drained => exact .of_eq rfl
  | exhausted => exact .of_eq rfl
  | advanced _ _ _ hq => exact .of_eq hq.barrier

/-- What is prepared for a host command is a host command. -/
theorem exists_host_of_prepare {c : HostCommand σ} {i : Instruction} {key : String} {invocation : Invocation σ}
    (h : m.prepare e (.host c) i key = (n, .ok invocation)) :
    ∃ run, invocation = .host run ∧ c.prepare i.payload n = .ok run := by
  have hp := outcome_of_prepare h
  unfold Command.prepare at hp
  rcases hrun : c.prepare i.payload n with err | run
  · simp [hrun] at hp
  · simp only [hrun, Except.ok.injEq] at hp
    exact ⟨run, hp.symm, rfl⟩

/-- A host command moves no frame. -/
theorem frames_performHost (m : Machine σ) (run : Machine σ → Effect σ) : (m.performHost run).1.frames = m.frames := by
  have hupdated := (quiet_updateAll { m with world := { m.world with host := (run m).host } } (run m).updates).frames
  unfold performHost
  cases ha : (run m).abort with
  | none =>
    simp only [ha]
    exact hupdated
  | some message =>
    simp only [ha]
    exact (quiet_abort _ message).frames.trans hupdated

/-- Neither does one that is performed. -/
theorem Performs.frames_of_host {run : Machine σ → Effect σ} {ok : Bool} (h : Performs e m (.host run) n ok) :
    n.frames = m.frames := by
  cases h with
  | immediate hi =>
    have he : m.performHost run = (n, ok) := Option.some.inj hi
    have hframes := frames_performHost m run
    rwa [he] at hframes
  | refused hl => cases hl
  | looped hl => cases hl

/-- However often it is attempted. -/
theorem Attempts.frames_of_host : ∀ {m : Machine σ} {invocation : Invocation σ} {key : String} {pause total : Int64}
    {n : Machine σ} {ok : Bool}, Attempts e m invocation key pause total n ok →
      (∃ run, invocation = .host run) → n.frames = m.frames
  | _, _, _, _, _, _, _, .spent _, _ => rfl
  | _, _, _, _, _, _, _, .succeeded _ run, h => by
    obtain ⟨_, rfl⟩ := h
    exact run.frames_of_host
  | _, _, _, _, _, _, _, .gaveUp _ run _, h => by
    obtain ⟨_, rfl⟩ := h
    exact run.frames_of_host
  | _, _, _, _, _, _, _, .retried _ run _ rest, h => by
    have hrest := rest.frames_of_host h
    obtain ⟨_, rfl⟩ := h
    exact hrest.trans run.frames_of_host

/-- Or when it is dispatched. -/
theorem Dispatches.frames_of_host {c : HostCommand σ} {i : Instruction} {key : String} {ok : Bool}
    (h : Dispatches e m (.host c) i key n ok) : n.frames = m.frames := by
  cases h with
  | unprepared hp => exact (quiet_prepare hp).frames
  | prepared hp run =>
    obtain ⟨f, hf, -⟩ := exists_host_of_prepare hp
    exact (run.frames_of_host ⟨f, hf⟩).trans (quiet_prepare hp).frames

end Machine

namespace Moment

open Machine

namespace Idle

variable {e : Engine σ} {level : Nat} {t u : Moment σ}

/-- Nothing at such a moment touches what is below. -/
theorem tame (h : Idle level t) (he : e.Hosted) : t.Tame e level := by
  have hd : t.machine.depth ≤ level + 1 := by cases h <;> assumption
  refine ⟨?_, ?_, ?_⟩
  · intro hforks
    cases h with
    | cycle =>
      obtain ⟨-, n, key, text, i, c, -, hdec, hp⟩ := hforks
      exact he.not_parallel hdec hp
    | _ => exact hforks
  · intro name hname
    cases h with
    | perform _ hw =>
      obtain ⟨u, hu, rfl⟩ := List.mem_map.1 hname
      exact hw _ u hu
    | _ => cases hname
  · intro f rest hsuf hlt
    have hle : rest.length + 1 ≤ t.machine.depth := hsuf.length_le
    omega

/-- A cycle takes frames off the stack, and no more. -/
theorem of_cycles : ∀ {m : Machine σ} {l : Nat} {n : Machine σ} {ok : Bool}, Cycles e m l n ok → e.Hosted →
    m.jobs = [] → n.depth ≤ m.depth ∧ n.jobs = []
  | _, _, _, _, .aborted _, _, hj => ⟨le_rfl, hj⟩
  | _, _, _, _, .drained _ hf, _, hj => by
    cases nextStep_cases hf with
    | drained _ => exact ⟨le_rfl, hj⟩
    | advanced _ _ _ _ hne => exact absurd rfl hne
  | _, _, _, _, .exhausted (n := n) _ hf rest, he, hj => by
    have hn := (depth_of_nextStep hf nofun).1
    have hjobs := (nextStep_awaits hf).jobs.trans hj
    obtain ⟨hrest, hdone⟩ := of_cycles rest he ((Awaits.of_eq (barrier_returnFrame n none)).jobs.trans hjobs)
    rw [depth_returnFrame] at hrest
    exact ⟨by omega, hdone⟩
  | _, _, _, _, .undecodable _ hf _, _, hj =>
    ⟨(depth_of_nextStep hf nofun).1.le, (nextStep_awaits hf).jobs.trans hj⟩
  | _, _, _, _, .forked _ _ hdec hp _, he, _ => (he.not_parallel hdec hp).elim
  | _, _, _, _, .dispatched _ hf hdec _ step _ rest, he, hj => by
    obtain ⟨c, rfl, -⟩ := he.exists_host hdec
    have hn := (depth_of_nextStep hf nofun).1
    have hstep : _ = _ := congrArg List.length step.frames_of_host
    obtain ⟨hrest, hdone⟩ := of_cycles rest he (((nextStep_awaits hf).trans step.awaits).jobs.trans hj)
    exact ⟨hrest.trans (hstep.le.trans hn.le), hdone⟩
  | _, _, _, _, .failed _ hf hdec _ step _, he, hj => by
    obtain ⟨c, rfl, -⟩ := he.exists_host hdec
    have hn := (depth_of_nextStep hf nofun).1
    have hstep : _ = _ := congrArg List.length step.frames_of_host
    exact ⟨hstep.le.trans hn.le, ((nextStep_awaits hf).trans step.awaits).jobs.trans hj⟩

/-- A moment that comes next is of the same kind. -/
theorem next (h : Idle level t) (he : e.Hosted) (hn : t.Next e u) : Idle level u := by
  -- A host command moves no frame and waits for nobody, so that the height of the stack is all there is to follow.
  cases hn with
  | exhausted ha hf =>
    obtain ⟨hd, hj⟩ := h
    have hn := (depth_of_nextStep hf nofun).1
    refine .cycle (by rw [depth_returnFrame]; omega) ?_
    exact (Awaits.of_eq (barrier_returnFrame _ none)).jobs.trans ((nextStep_awaits hf).jobs.trans hj)
  | forked ha hf hdec hp => exact (he.not_parallel hdec hp).elim
  | dispatched ha hf hdec hp =>
    obtain ⟨hd⟩ := h
    obtain ⟨c, rfl, hc⟩ := he.exists_host hdec
    exact .dispatch ((depth_of_nextStep hf nofun).1.trans_le hd) hc
  | advanced ha hf hdec hp step hgo =>
    obtain ⟨hd, hj⟩ := h
    obtain ⟨c, rfl, -⟩ := he.exists_host hdec
    have hstep : _ = _ := congrArg List.length step.frames_of_host
    refine .cycle (hstep.trans_le ((depth_of_nextStep hf nofun).1.trans_le hd)) ?_
    exact ((nextStep_awaits hf).trans step.awaits).jobs.trans hj
  | opened =>
    cases h with
    | runCycle hd => exact .cycle hd rfl
  | joined run =>
    cases h with
    | runCycle hd =>
      obtain ⟨hle, hj⟩ := of_cycles run he rfl
      exact .join (hle.trans hd) hj
  | prepared hp =>
    cases h with
    | dispatch hd hc =>
      obtain ⟨f, rfl, hf⟩ := exists_host_of_prepare hp
      exact .attempts ((quiet_prepare hp).calm.depth.trans_le hd) (hc _ _ f hf)
  | tried ht =>
    cases h with
    | attempts hd hw => exact .perform hd hw
  | retried ht run hl =>
    cases h with
    | attempts hd hw => exact .attempts ((congrArg List.length run.frames_of_host).trans_le hd) hw
  | looped hl =>
    cases h with
    | perform hd => cases hl
  | driven hf =>
    cases h with
    | drive hd => exact .passes ((depth_disown _).trans_le hd)
  | passed hb =>
    cases h with
    | passes hd => exact .runCycle ((quiet_beforePass hb).calm.depth.trans_le hd)
  -- the pass ends with the stack cut down to the loop, whose frame is put back on top
  | @put m _ _ _ o n' hb run ht =>
    cases h with
    | passes hd =>
      have hn' := depth_of_takeBreak ht
      rw [depth_unwind] at hn'
      refine .between ?_
      show n'.depth + 1 ≤ level + 1
      omega
  | again hn =>
    cases h with
    | between hd =>
      cases hn
      exact .passes hd
  | @begun m failed job n hj =>
    cases h with
    | join hd hnone =>
      obtain ⟨b, rfl⟩ := withBarrier_of_nextJob hj
      cases job with
      | host work => exact .job hd
      -- jobs on other stacks were excluded from the beginning
      | instruction thread frames i key => cases (jobs_of_nextJob hj).1.symm.trans hnone
  | waited hj run =>
    cases h with
    | join hd hnone =>
      have hjobs := (List.append_eq_nil_iff.1 ((jobs_of_nextJob hj).1.symm.trans hnone)).2
      obtain ⟨b, rfl⟩ := withBarrier_of_nextJob hj
      exact .join hd hjobs
  | copied hc => cases h
  | called hc step hd => cases h

/-- Where all commands are the host program's, a loop over a collection stays tame. -/
theorem always (h : Idle level t) (he : e.Hosted) : Moment.Always e level (Moment.Tame e level) t := by
  rintro u hu -
  have hidle : Idle level u := by
    induction hu with
    | refl => exact h
    | tail _ hstep ih => exact ih.next he hstep.2
  exact hidle.tame he

end Idle

end Moment

namespace Pool

/-- The results of a loop reach its caller once, and only if the loop succeeds. That no break is pending when the loop
begins is so in every run, see `Engine.unbroken_at_work`. -/
theorem loop_results_once {p : Pool σ} (hp : p.Reachable) {w : Worker σ} {others : Multiset (Worker σ)}
    (hw : p.workers = w ::ₘ others) (hactive : p.world.request.detached = false) (hb : w.thread.breakAt = none)
    {invocation : Invocation σ} {results : List String} (hloop : invocation.loopResults = some results)
    (htame : ∀ o loop, (p.machine w).entered invocation = some (o, some loop) →
      Moment.Always e w.thread.frames.length (Moment.Tame e w.thread.frames.length) (.drive o loop))
    {n : Machine σ} {ok : Bool} (hrun : ∃ fuel, perform e fuel (p.machine w) invocation = some (n, ok))
    (ha : n.aborted = false) :
    (∀ t, Reaches e ⟨p.machine w, .perform invocation, []⟩ t → w.thread.frames.length < t.machine.depth →
      t.machine.scopes.env? (p.machine w).currentScope = p.scopes.env? (p.machine w).currentScope) ∧
    (ok = false → ∀ t, Reaches e ⟨p.machine w, .perform invocation, []⟩ t →
      t.machine.scopes.env? (p.machine w).currentScope = p.scopes.env? (p.machine w).currentScope) ∧
    (ok = true → ∃ u v, Reaches e ⟨p.machine w, .perform invocation, []⟩ u ∧ Snapshot.Step e u v ∧
      LastReturn w.thread.frames.length results u v ∧ ∀ t, Reaches e ⟨p.machine w, .perform invocation, []⟩ t →
        (Reaches e t u ∧
          t.machine.scopes.env? (p.machine w).currentScope = p.scopes.env? (p.machine w).currentScope) ∨
        (Reaches e v t ∧ t.machine.depth = w.thread.frames.length ∧ t.task.Closing ∧
          t.machine.scopes.env? (p.machine w).currentScope = v.machine.scopes.env? (p.machine w).currentScope)) := by
  let m := p.machine w
  have hpool : p = m.within w.loops others := by
    obtain ⟨world, workers⟩ := p
    obtain rfl : workers = w ::ₘ others := hw
    rfl
  have hacc : Accounted (holders p.root others) m w.loops := hp.sound.accounted hw
  obtain ⟨fuel, hrun⟩ := hrun
  have hid := hacc.mem_currentScope
  cases performs_of_perform fuel hrun with
  | immediate hi => cases invocation <;> cases hloop <;> cases hi
  | refused hl =>
    have hquiet := hacc.entering (e := e) hid hl []
    refine ⟨fun t ht _ => (hquiet.of_reaches ht).1, fun _ t ht => (hquiet.of_reaches ht).1, nofun⟩
  | @looped _ _ o loop _ _ hl run =>
    have hbegin : Throughout e _ _ _ := hacc.entering hid hl []
    have hentered := entered_cases hl
    obtain ⟨f, hf, howns, hlooping⟩ := hentered.frame
    obtain ⟨f', hf', hresults⟩ := frame_of_entered hloop hl
    obtain ⟨rfl, -⟩ := List.cons_eq_cons.1 (hf.symm.trans hf')
    have hbase : Driver.base w.loops ≤ w.thread.frames.length := hacc.stacked.base_le
    have hstance : Stance w.thread.frames w.loops 0 others m := ⟨.refl _, hbase, Multiset.zero_le _⟩
    have habove := (hentered.leads hstance).above
    have ho : (o.within w.loops others).Reachable := habove.reachable (hpool ▸ hp)
    have hroot : o.request.root = m.request.root := habove.onward.root
    -- the frame of the loop, called from the scope that is active before it
    let c : Callee σ := ⟨o, f, w.thread.frames, w.loops, holders o.request.root others⟩
    have hbegins : Begins m o (some loop) := begins_of_entered hl
    have hs : c.Sound := ⟨ho.sound.accounted rfl, hf, hbase, hbegins.detached.trans hactive⟩
    have hr : c.Repeats := ⟨hlooping, hentered.breakAt.trans hb⟩
    have hcaller : c.caller = m.currentScope := by
      rw [currentScope_eq, ← hroot]
      rfl
    have hstart : o.scopes.env? m.currentScope = p.scopes.env? m.currentScope := hbegin.last
    have hsame : ∀ t, c.Unchanged t → t.machine.scopes.env? m.currentScope = p.scopes.env? m.currentScope := by
      intro t ht
      unfold Callee.Unchanged at ht
      rw [hcaller] at ht
      exact ht.trans hstart
    -- either nothing was published, or one step has told it all: the last return
    cases run.way hs hr ha (hs.driving hr howns) (htame o loop hl) [] with
    | quiet hw hn =>
      have hquiet := hbegin.trans (hw.mono hsame)
      have hok : ok = false := hn.resolve_left (Nat.lt_irrefl _)
      subst hok
      exact ⟨fun t ht _ => (hquiet.of_reaches ht).1, fun _ t ht => (hquiet.of_reaches ht).1, nofun⟩
    | told hw _ _ hok =>
      obtain ⟨u, v, hbefore, step, hlast, hafter⟩ := hw.once
      have hquiet := hbegin.trans (hbefore.mono hsame)
      have hsplit := fun t ht => hquiet.before_or_after (v := t) step hafter ht
      refine ⟨fun t ht hd => ?_, fun hfalse => ?_, fun _ => ⟨u, v, hquiet.reaches, step, hresults ▸ hlast, ?_⟩⟩
      · rcases hsplit t ht with ⟨-, h⟩ | ⟨-, h⟩
        · exact h
        · exact absurd h.depth hd.ne'
      · rw [hok] at hfalse
        cases hfalse
      · intro t ht
        rcases hsplit t ht with h | ⟨hvt, h⟩
        · exact .inl h
        · have henv := h.scope
          rw [hcaller] at henv
          exact .inr ⟨hvt, h.depth, h.closing, henv⟩

/-- The engine has no commands but one of its host program, which writes nothing. -/
theorem hosted_hosting : hosting.Hosted := by
  intro name c hc
  simp only [hosting, Table.get?] at hc
  split_ifs at hc
  cases hc
  refine ⟨rfl, ?_⟩
  rintro h ⟨⟩ payload m run hrun n
  cases hrun
  exact nofun

/-- The caller gets the last letter, once, though there are two passes. -/
theorem loop_results_once_letters : ∃ n : Machine Unit,
    (∃ fuel, perform hosting fuel letterByLetter (.loopRange overLetters) = some (n, true)) ∧
    (n.lookup "FOR_VALUE").map Value.text = some "b" ∧
    ∃ u v, Reaches hosting ⟨letterByLetter, .perform (.loopRange overLetters), []⟩ u ∧
      Snapshot.Step hosting u v ∧ LastReturn 1 (splitNames overLetters.result) u v ∧
      ∀ t, Reaches hosting ⟨letterByLetter, .perform (.loopRange overLetters), []⟩ t →
        (Reaches hosting t u ∧ t.machine.scopes.env? letterByLetter.currentScope =
          letterByLetter.scopes.env? letterByLetter.currentScope) ∨
        (Reaches hosting v t ∧ t.machine.depth = 1 ∧ t.task.Closing ∧
          t.machine.scopes.env? letterByLetter.currentScope =
            v.machine.scopes.env? letterByLetter.currentScope) := by
  have hp : (letterByLetter.within [] 0).Reachable := reachable_beginner _
  have hw : (letterByLetter.within [] 0).workers = ⟨letterByLetter.thread, []⟩ ::ₘ 0 := rfl
  have hresult : (perform hosting 20 letterByLetter (.loopRange overLetters)).map
      (fun r => (r.2, r.1.aborted, (r.1.lookup "FOR_VALUE").map Value.text)) = some (true, false, some "b") := by
    decide +kernel
  obtain ⟨⟨n, ok⟩, hn, he⟩ := Option.map_eq_some_iff.1 hresult
  have hok : ok = true := congrArg Prod.fst he
  have ha : n.aborted = false := congrArg (fun r => r.2.1) he
  have hlast : (n.lookup "FOR_VALUE").map Value.text = some "b" := congrArg (fun r => r.2.2) he
  subst hok
  have htame : ∀ o loop, letterByLetter.entered (.loopRange overLetters) = some (o, some loop) →
      Moment.Always hosting 1 (Moment.Tame hosting 1) (.drive o loop) := by
    intro o loop hl
    obtain ⟨f, hf, -⟩ := (entered_cases hl).frame
    have hd : o.depth ≤ 2 := (congrArg List.length hf).le
    have hrange : letterByLetter.enterRange overLetters = (o, some loop) := Option.some.inj hl
    obtain ⟨q, hread⟩ : ∃ q, ((letterByLetter.push "BODY" (splitNames "FOR_VALUE") overLetters.params).setLooping
        true).read overLetters.range = (q, .ok (some (.arr [.str "a", .str "b"]))) := ⟨_, rfl⟩
    cases (enterRange_of_read (c := overLetters) (n := letterByLetter) rfl hread).symm.trans hrange
    exact Moment.Idle.always (.drive hd) hosted_hosting
  obtain ⟨-, -, honce⟩ := loop_results_once hp hw rfl rfl rfl htame ⟨20, hn⟩ ha
  exact ⟨n, ⟨20, hn⟩, hlast, honce rfl⟩

end Pool
end Sequencer
