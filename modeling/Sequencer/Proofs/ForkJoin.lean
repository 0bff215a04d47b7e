import Sequencer.Proofs.Lockstep
import Sequencer.Proofs.Splitting

/-!
# Starting on the side and waiting at once

An instruction with the mark for running on the side works on a copy of the stack. If its thread waits for it at
once, it is as if the instruction had been run without the mark: the copy goes the same way, and all that it holds
is given up in the end.
-/

namespace Sequencer

variable {σ : Type}

/-! ## The copy

The thread on the side gets a copy of the stack, which differs from the stack in what is masked. -/

namespace Machine

/-- The copy of a thread, about to run an instruction on the side. -/
def copy (m : Machine σ) : Machine σ := ⟨m.fork.1.world, m.fork.2⟩

/-- Runs an instruction on the thread itself: dispatches its command, and runs all frames that this has put on the
stack to their ends. -/
def runInline (e : Engine σ) (fuel : Nat) (m : Machine σ) (c : Command σ) (i : Instruction) (key : String) :
    Option (Machine σ × Bool) :=
  match dispatch e fuel m c i key with
  | none => none
  | some (n, ok) => if ok && m.depth < n.depth then cycle e fuel n m.depth else some (n, ok)

section

variable {others : Multiset ScopeId} {m m' n : Machine σ} {ds : List Driver} {b b' : Option (Barrier σ)}

theorem masked_copy (hb : m.thread.breakAt = none) : m.copy.masked = m.masked := by
  have hscopes : m.copy.scopes.uncounted = m.scopes.uncounted := uncounted_retainFrames m.frames m.scopes
  have hframes : m.copy.frames.map Frame.owning = m.frames.map Frame.owning := by
    show (m.frames.map Frame.owning).map Frame.owning = _
    rw [List.map_map]
    rfl
  unfold masked
  rw [hscopes, hframes, hb]
  rfl

/-- A copy begins where its thread is. -/
theorem abreast_copy (h : Accounted others m ds) (hb : m.thread.breakAt = none) :
    Abreast others m.frames m.thread.barrier none m m.copy ds :=
  ⟨h, masked_copy hb, rfl, .refl m.frames, rfl, rfl⟩

/-- When a copy is given up, its references are, and all that is left is what its thread would have left. -/
theorem Abreast.finish (h : Abreast others n.frames b b' n m' ds) :
    m'.finish.request = n.request ∧ m'.finish.store = n.store ∧ m'.finish.world.host = n.world.host ∧
      m'.finish.world.journal.map Event.anonymous = n.world.journal.map Event.anonymous := by
  have hframes : m'.frames = n.frames.map Frame.owning := by
    obtain ⟨above, he, hm'⟩ := h.twins.frames
    rw [hm', List.append_left_eq_self.1 he.symm]
    rfl
  -- Giving up the copy takes back the references that it held, so the counts are the same again.
  have hscopes : m'.finish.scopes = n.scopes := by
    show releaseFrames m'.scopes (m'.frames.take (m'.frames.length - 0)) = n.scopes
    rw [Nat.sub_zero, List.take_length, h.twins.scopes, hframes]
    exact releaseFrames_owning h.accounted.balanced h.isLive_base
  -- Everything else is the same without the counts.
  have hmasked := congrArg Machine.world h.twins.masked
  have hrequest : m'.masked.request = n.masked.request := congrArg World.request hmasked
  have hstore : m'.masked.store = n.masked.store := congrArg World.store hmasked
  have hhost : m'.masked.world.host = n.masked.world.host := congrArg World.host hmasked
  have hjournal : m'.masked.world.journal = n.masked.world.journal := congrArg World.journal hmasked
  refine ⟨?_, hstore, hhost, hjournal⟩
  show { m'.masked.request with scopes := m'.finish.scopes } = { n.masked.request with scopes := n.scopes }
  rw [hrequest, hscopes]

end

/-- The mark of an instruction has no bearing on how its command is tried. -/
theorem Dispatches.withMark {e : Engine σ} {m n : Machine σ} {c : Command σ} {i : Instruction} {key : String}
    {ok : Bool} (h : Dispatches e m c i key n ok) (parallel : Bool) :
    Dispatches e m c { i with parallel } key n ok := by
  cases h with
  | unprepared hp => exact .unprepared hp
  | prepared hp run => exact .prepared hp run

theorem withBarrier_self {m : Machine σ} {b : Option (Barrier σ)} (h : m.thread.barrier = b) : m.withBarrier b = m := by
  subst h
  rfl

end Machine

namespace Moment

/-- The moments of an instruction that is run on the thread itself. -/
inductive Inline (e : Engine σ) (m : Machine σ) (c : Command σ) (i : Instruction) (key : String) : Moment σ → Prop
  | dispatched {t} (h : Relation.ReflTransGen (Next e) (.dispatch m c i key) t) : Inline e m c i key t
  | drained {n t} (step : Machine.Dispatches e m c i key n true) (hd : m.depth < n.depth)
      (h : Relation.ReflTransGen (Next e) (.cycle n m.depth) t) : Inline e m c i key t

end Moment

namespace Machine

/-- A call and its cycle, put together, are what the inline run computes with enough fuel. -/
theorem exists_runInline {e : Engine σ} {m o n : Machine σ} {c : Command σ} {i : Instruction} {key : String} {ok : Bool}
    (step : Dispatches e m c i key o true) (hd : m.depth < o.depth) (run : Cycles e o m.depth n ok) :
    ∃ fuel, m.runInline e fuel c i key = some (n, ok) := by
  obtain ⟨a, hstep⟩ := step.settles.bound
  obtain ⟨b, hrun⟩ := run.settles.bound
  refine ⟨max a b, ?_⟩
  unfold runInline
  rw [hstep _ (le_max_left a b)]
  simp only [Bool.true_and]
  rw [if_pos (decide_eq_true hd)]
  exact hrun _ (le_max_right a b)

/-- What an instruction does on its thread, it does as a job on a copy of it. -/
theorem runsJob_of_runInline {e : Engine σ} (he : e.Discreet) {others : Multiset ScopeId} {m n : Machine σ}
    {ds : List Driver} (h : Accounted others m ds) (hb : m.thread.breakAt = none) {b : Barrier σ}
    (hbar : m.thread.barrier = some b) {c : Builtin} {i : Instruction} {key : String} (hsuf : m.frames <:+ n.frames)
    (hc : e.registry.get? i.command = some (.builtin c)) {fuel : Nat}
    (hrun : m.runInline e fuel (.builtin c) i key = some (n, true))
    (hall : ∀ t, Moment.Inline e m (.builtin c) i key t → t.Apart e m.frames) :
    ∃ (m' : Machine σ) (b' : Option (Barrier σ)), Abreast others n.frames (some b) b' n m' ds ∧ n.frames = m.frames ∧
      RunsJob e m.copy.world (.instruction m.copy.thread.id m.copy.frames { i with parallel := true } key)
        m'.finish.world true := by
  -- the copy and the thread itself go abreast from here on
  have hcopy := abreast_copy h hb
  have hbase := hcopy.base_le
  have hlength : m.copy.frames.length = m.depth := List.length_map _
  have hdispatched : Moment.Throughout e (Moment.Apart e m.frames) (.dispatch m (.builtin c) i key) :=
    fun t ht => hall t (.dispatched ht)
  rw [hbar] at hcopy
  unfold runInline at hrun
  cases hstep : dispatch e fuel m (.builtin c) i key with
  | none =>
    rw [hstep] at hrun
    cases hrun
  | some r =>
    obtain ⟨o, ok⟩ := r
    have step := dispatches_of_dispatch fuel hstep
    rw [hstep] at hrun
    simp only at hrun
    split_ifs at hrun with hgo
    · -- Frames have come on the stack, and both run them to their ends.
      obtain ⟨rfl, hd⟩ := (Bool.and_eq_true_iff.1 hgo).imp_right of_decide_eq_true
      have hdrained : Moment.Throughout e (Moment.Apart e m.frames) (.cycle o m.depth) :=
        fun t ht => hall t (.drained step hd ht)
      obtain ⟨o', hstep', ho⟩ :=
        step.abreast he hcopy (le_max_of_le_left hbase) nofun hdispatched hdrained.here.above
      have run := cycles_of_cycle fuel hrun
      have hopened := ho.withBarrier (some b) (some .new)
      rw [withBarrier_self ho.twins.barrier] at hopened
      obtain ⟨n', hrun', hn⟩ := run.abreast he hopened le_rfl hbase hdrained hsuf
      have hframes : n.frames = m.frames := (hsuf.eq_of_length_le (run.depth_le rfl)).symm
      have hback := hn.withBarrier (some b) o'.thread.barrier
      rw [withBarrier_self hn.twins.barrier] at hback
      have hclosed := RunsCycle.closed hrun' (Joins.done (nextJob_of_new hn.twins.barrier') : Joins e n' 0 n' 0)
      rw [hn.twins.aborted, run.not_aborted rfl, ← hlength] at hclosed
      refine ⟨_, _, hframes.symm ▸ hback, hframes, .called hc (hstep'.withMark true) ?_ hclosed⟩
      rw [Bool.true_and, hlength]
      exact decide_eq_true (ho.twins.depth.symm ▸ hd)
    · -- Nothing has come on the stack, and both are done with the step.
      cases hrun
      obtain ⟨n', hstep', hn⟩ := step.abreast he hcopy (le_max_of_le_left hbase) nofun hdispatched hsuf
      have hnot : ¬m.depth < n.depth := by simpa using hgo
      have hframes : n.frames = m.frames := (hsuf.eq_of_length_le (Nat.le_of_not_lt hnot)).symm
      refine ⟨n', none, hframes.symm ▸ hn, hframes, .simple hc (hstep'.withMark true) ?_⟩
      rw [Bool.true_and, hlength]
      exact decide_eq_false (hn.twins.depth.symm ▸ hnot)

end Machine

/-! ## The whole picture

The run on the side and the one in line go abreast from their beginning to their end. -/

namespace Pool

/-- Starting a built-in command on the side and waiting for it at once is the same as running it in its place, as
long as it succeeds, starts nothing else on the side and leaves the frames alone that were on the stack. No break is
pending where an instruction is about to run, see `Engine.unbroken_at_work`. -/
theorem fork_joined_eq_inline {p : Pool σ} (hp : p.Reachable) {w : Worker σ} {others : Multiset (Worker σ)}
    (hw : p.workers = w ::ₘ others) (hb : w.thread.breakAt = none) {b : Barrier σ}
    (hbar : w.thread.barrier = some b) {e : Engine σ} (he : e.Discreet) {text key : String} {i : Instruction}
    {c : Builtin} (hdec : (p.machine w).decode e text = some (i, .builtin c)) {fuel : Nat} {n : Machine σ}
    (hrun : (p.machine w).runInline e fuel (.builtin c) i key = some (n, true))
    (hall : ∀ t, Moment.Inline e (p.machine w) (.builtin c) i key t → t.Apart e w.thread.frames)
    (hn : w.thread.frames <:+ n.frames) :
    (p.machine w).decode e ("!" ++ text) = some ({ i with parallel := true }, .builtin c) ∧
      ∃ job fuel' n', ((p.machine w).forkInstruction { i with parallel := true } key).thread.barrier =
          some (b.register job) ∧
        Machine.join e fuel' (((p.machine w).forkInstruction { i with parallel := true } key).withBarrier
          (some (Barrier.new.register job))) 0 = some (n', 0) ∧
        n'.request = n.request ∧ n'.store = n.store ∧ n'.world.host = n.world.host ∧
        n'.world.journal.map Event.anonymous = n.world.journal.map Event.anonymous ∧
        n'.frames = w.thread.frames ∧ n.frames = w.thread.frames := by
  -- The job makes the same run on its copy, abreast of the inline one.
  obtain ⟨m', b', hab, hframes, hjob⟩ := Machine.runsJob_of_runInline he (hp.sound.accounted hw) hb hbar hn
    (Machine.registered_of_decode hdec) hrun hall
  let started := (p.machine w).forkInstruction { i with parallel := true } key
  -- The join finds this job only, and it does not fail.
  have joins : Machine.Joins e (started.withBarrier (some (Barrier.new.register _))) 0
      { started.withBarrier (some .new) with world := m'.finish.world } 0 := .next rfl hjob (.done rfl)
  obtain ⟨fuel', hjoin⟩ := joins.settles.bound
  obtain ⟨hrequest, hstore, hhost, hjournal⟩ := hab.finish
  refine ⟨Machine.decode_bang hdec, _, fuel', _, ?_, hjoin fuel' le_rfl, hrequest, hstore, hhost, hjournal, rfl,
    hframes⟩
  show (w.thread.barrier.map _) = _
  rw [hbar]
  rfl

/-- A thread in a cycle, with a variable in the scope of its only frame. -/
def client : Machine Unit :=
  ((World.new (Store.ofProperties []) (Request.new [] none) ()).enter.push "OUTER" []
    [("x", .str "old")]).withBarrier (some .new)

theorem client_reachable : (client.within [] 0).Reachable := by
  let m := (World.new (Store.ofProperties []) (Request.new [] none) ()).enter.push "OUTER" [] [("x", .str "old")]
  have hm : (m.within [] 0).Reachable := .begin ⟨rfl, [], none, false, rfl⟩ "OUTER" [] _
  have hturn : Turn 0 m [] client [] := .calm (.of_thread m rfl)
  exact hm.step (@Step.turn Unit (m.within [] 0) ⟨m.thread, []⟩ 0 _ _ rfl hturn)

/-- An engine that can call, and nothing else. -/
def calling : Engine Unit := ⟨[("call", .builtin .call)], fun _ => .error .notFound⟩

theorem calling_discreet : calling.Discreet := by
  intro name c h
  rw [calling, Table.get?] at h
  split_ifs at h
  · cases h
  · cases h

/-- A call that gets a new value for the variable. -/
def errand : CallSpec := ⟨"INNER", [("x", .str "new")], "x"⟩

def errandPayload : String := "\x7b\"action\":\"INNER\",\"params\":\x7b\"x\":\"new\"\x7d,\"result\":\"x\"\x7d"

def errandStep : Instruction := ⟨true, false, .none, "call", errandPayload⟩

theorem decode_errand : client.decode calling ("call:" ++ errandPayload) = some (errandStep, .builtin .call) :=
  Machine.decode_of_splitMarker (by decide +kernel) (by decide +kernel) rfl

/-- Whether a command has become the call of the errand. -/
def isErrand : Except CommandError (Invocation Unit) → Bool
  | .ok (.call ⟨action, [(name, .str value)], result⟩) =>
    action == "INNER" && name == "x" && value == "new" && result == "x"
  | _ => false

theorem eq_errand_of_isErrand {r : Except CommandError (Invocation Unit)} (h : isErrand r = true) :
    r = .ok (.call errand) := by
  unfold isErrand at h
  split at h
  · simp only [Bool.and_eq_true, beq_iff_eq] at h
    obtain ⟨⟨⟨rfl, rfl⟩, rfl⟩, rfl⟩ := h
    rfl
  · cases h

/-- The machines that the call and the return lead to. -/
def preparedErrand : Machine Unit := (client.prepare calling (.builtin .call) errandStep "OUTER_1").1

def triedErrand : Machine Unit := preparedErrand.note (.attempted preparedErrand.thread.id "OUTER_1")

def calledErrand : Machine Unit := triedErrand.push "INNER" ["x"] [("x", .str "new")]

def fetchedErrand : Machine Unit := (calledErrand.nextStep 1).1

def returnedErrand : Machine Unit := (fetchedErrand.returnFrame none).1

theorem prepare_errand : client.prepare calling (.builtin .call) errandStep "OUTER_1" =
    (preparedErrand, .ok (.call errand)) :=
  Prod.ext rfl (eq_errand_of_isErrand (by decide +kernel))

theorem performCall_errand (m : Machine Unit) :
    m.performCall errand = (m.push "INNER" ["x"] [("x", .str "new")], true) := by
  have hnames : splitNames "x" = ["x"] := by decide +kernel
  have hempty : ¬("INNER".isEmpty = true) := by decide +kernel
  have hreturn : ¬("INNER" = Machine.returnAction) := by decide +kernel
  show (if "INNER".isEmpty then _ else if "INNER" = Machine.returnAction then _ else _) = _
  rw [if_neg hempty, if_neg hreturn, errand, hnames]
  rfl

theorem nextStep_errand : calledErrand.nextStep 1 = (fetchedErrand, .exhausted) :=
  Prod.ext rfl (by decide +kernel)

theorem frames_triedErrand : triedErrand.frames = client.frames := (Machine.quiet_prepare prepare_errand).frames

theorem frames_calledErrand : ∃ f, calledErrand.frames = f :: client.frames :=
  ⟨_, congrArg (List.cons _) frames_triedErrand⟩

theorem depth_calledErrand : client.depth < calledErrand.depth := by
  obtain ⟨f, hf⟩ := frames_calledErrand
  unfold Machine.depth
  rw [hf]
  exact Nat.lt_succ_self _

theorem frames_fetchedErrand : ∃ f, fetchedErrand.frames = f :: client.frames := by
  obtain ⟨f, hf⟩ := frames_calledErrand
  cases Machine.nextStep_cases nextStep_errand with
  | advanced _ hf' _ hq _ =>
    rw [hf] at hf'
    cases hf'
    exact ⟨_, hq.frames⟩

theorem frames_returnedErrand : returnedErrand.frames = client.frames := by
  obtain ⟨f, hf⟩ := frames_fetchedErrand
  exact Machine.frames_returnFrame hf none

theorem performs_errand {n : Machine Unit} {ok : Bool}
    (h : Machine.Performs calling triedErrand (.call errand) n ok) : n = calledErrand ∧ ok = true := by
  cases h with
  | immediate hi =>
    have he : triedErrand.performCall errand = (n, ok) := Option.some.inj hi
    rw [performCall_errand] at he
    cases he
    exact ⟨rfl, rfl⟩
  | refused hl => cases hl
  | looped hl => cases hl

theorem dispatches_errand : Machine.Dispatches calling client (.builtin .call) errandStep "OUTER_1" calledErrand true :=
  .prepared prepare_errand (.succeeded (by decide) (.immediate (congrArg some (performCall_errand _))))

theorem eq_calledErrand {n : Machine Unit} {ok : Bool}
    (h : Machine.Dispatches calling client (.builtin .call) errandStep "OUTER_1" n ok) : n = calledErrand := by
  cases h with
  | unprepared hp =>
    rw [prepare_errand] at hp
    cases hp
  | prepared hp run =>
    rw [prepare_errand] at hp
    cases hp
    cases run with
    | spent ht => exact absurd ht (by decide)
    | succeeded ht run => exact (performs_errand run).1
    | gaveUp ht run hl => cases (performs_errand run).2
    | retried ht run hl rest => cases (performs_errand run).2

theorem depth_returnedErrand : returnedErrand.depth = 1 := congrArg List.length frames_returnedErrand

theorem cycles_errand : Machine.Cycles calling calledErrand 1 returnedErrand true :=
  .exhausted (by decide +kernel) nextStep_errand
    (.drained (by decide +kernel) (Machine.nextStep_of_le depth_returnedErrand.le))

/-- The moments of the call. -/
theorem dispatched_errand {t : Moment Unit}
    (h : Relation.ReflTransGen (Moment.Next calling) (.dispatch client (.builtin .call) errandStep "OUTER_1") t) :
    t = .dispatch client (.builtin .call) errandStep "OUTER_1" ∨
      t = .attempts preparedErrand (.call errand) "OUTER_1" 0 0 ∨ t = .perform triedErrand (.call errand) := by
  induction h with
  | refl => exact .inl rfl
  | tail _ hnext ih =>
    rcases ih with rfl | rfl | rfl
    · cases hnext with
      | prepared hp =>
        rw [prepare_errand] at hp
        cases hp
        exact .inr (.inl rfl)
    · cases hnext with
      | tried ht => exact .inr (.inr rfl)
      | retried ht run hl => cases (performs_errand run).2
    · cases hnext with
      | looped hl => cases hl

/-- The moments of the return. -/
theorem drained_errand {t : Moment Unit}
    (h : Relation.ReflTransGen (Moment.Next calling) (.cycle calledErrand 1) t) :
    t = .cycle calledErrand 1 ∨ t = .cycle returnedErrand 1 := by
  induction h with
  | refl => exact .inl rfl
  | tail _ hnext ih =>
    -- The callee has no instruction: it returns, and the cycle is at its end.
    rcases ih with rfl | rfl
    · cases hnext with
      | exhausted ha hs =>
        rw [nextStep_errand] at hs
        cases hs
        exact .inr rfl
      | forked ha hs hdec hp | dispatched ha hs hdec hp | advanced ha hs hdec hp step hgo =>
        rw [nextStep_errand] at hs
        cases hs
    · cases hnext with
      | exhausted ha hs | forked ha hs hdec hp | dispatched ha hs hdec hp | advanced ha hs hdec hp step hgo =>
        rw [Machine.nextStep_of_le depth_returnedErrand.le] at hs
        cases hs

/-- The errand stays with its own frame: nothing that it does reaches the frames of the client. -/
theorem apart_errand {t : Moment Unit} (h : Moment.Inline calling client (.builtin .call) errandStep "OUTER_1" t) :
    t.Apart calling client.frames := by
  have htried : client.frames <:+ triedErrand.frames := by rw [frames_triedErrand]
  obtain ⟨f, hcalled⟩ := frames_calledErrand
  cases h with
  | dispatched h =>
    rcases dispatched_errand h with rfl | rfl | rfl
    · exact ⟨id, rfl, List.suffix_rfl⟩
    · exact ⟨id, rfl, htried⟩
    · exact ⟨id, rfl, htried⟩
  | drained step hd h =>
    obtain rfl := eq_calledErrand step
    rcases drained_errand h with rfl | rfl
    · refine ⟨?_, rfl, hcalled ▸ List.suffix_cons f _⟩
      rintro ⟨-, n, key, text, i, c, hs, -⟩
      rw [nextStep_errand] at hs
      cases hs
    · refine ⟨?_, rfl, frames_returnedErrand ▸ List.suffix_rfl⟩
      rintro ⟨-, n, key, text, i, c, hs, -⟩
      rw [Machine.nextStep_of_le depth_returnedErrand.le] at hs
      cases hs

/-- Both ways, the variable has its new value in the end. -/
theorem fork_joined_eq_inline_errand : ∃ job fuel n',
    client.decode calling ("!" ++ ("call:" ++ errandPayload)) =
      some ({ errandStep with parallel := true }, .builtin .call) ∧
    Machine.join calling fuel ((client.forkInstruction { errandStep with parallel := true } "OUTER_1").withBarrier
      (some (Barrier.new.register job))) 0 = some (n', 0) ∧
    n'.request = returnedErrand.request ∧
    (n'.scopes.getLocal? client.currentScope "x").bind Value.str? = some "new" := by
  obtain ⟨fuel, hrun⟩ := Machine.exists_runInline dispatches_errand depth_calledErrand cycles_errand
  have hw : (client.within [] 0).workers = ⟨client.thread, []⟩ ::ₘ 0 := rfl
  obtain ⟨hdecode, job, fuel', n', -, hjoin, hrequest, -⟩ := fork_joined_eq_inline client_reachable hw rfl rfl
    calling_discreet decode_errand hrun (fun t ht => apart_errand ht) (frames_returnedErrand ▸ List.suffix_rfl)
  have hscopes : n'.scopes = returnedErrand.scopes := congrArg Request.scopes hrequest
  refine ⟨job, fuel', n', hdecode, hjoin, hrequest, ?_⟩
  rw [hscopes]
  decide +kernel

end Pool
end Sequencer
