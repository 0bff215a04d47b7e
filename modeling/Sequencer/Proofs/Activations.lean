import Sequencer.Proofs.Endings
import Sequencer.Proofs.Splitting

/-!
# Each instruction once

An activation is one call of an action, or one pass of a loop. The thread that has begun it fetches its instructions one
after the other. A thread that is started on the side has copies of the frames that were on the stack then, but fetches
from none of them, so that an instruction is not dispatched again because of it. So it is in whatever order the threads
take their steps.
-/

namespace Sequencer

open Machine Snapshot

variable {σ : Type} {e : Engine σ}

/-! ## Logs of runs

What the steps of a scene do to its ledger has been said move by move. Here the moves of a whole run come together, so
that its log is one of a sound ledger. -/

namespace Scene

/-- What is known of the threads at some point of a run, with its log. The last to wait for a thread, if any, waits for it
to leave all frames. -/
structure Logged (w : World σ) (t : Scene σ) (log : List Event) : Prop where
  journal : t.world.journal = log ++ w.journal
  sound : t.ledger.Sound log
  leveled : ∀ a ∈ t.actors, (a.snapshot t.world).Leveled
  leaving : ∀ a ∈ t.actors, Leveled ⟨⟨t.world, a.thread⟩, a.task, a.callers ++ [.started 0]⟩
  fresh : ∀ a ∈ t.actors, (a.snapshot t.world).Fresh
  orderly : t.Orderly

variable {w : World σ} {s t : Scene σ} {log : List Event}

theorem Step.logged (h : Step e s t) (hs : s.Logged w log) :
    ∃ log', t.Logged w log' ∧ Ledger.Follows log s.ledger log' t.ledger := by
  obtain ⟨log', hsound, hfollows⟩ := Ledger.sound_of_moves (h.moves hs.leveled hs.orderly) hs.sound
  have hleaving : Layered [(.started 0 : Caller σ)] := trivial
  refine ⟨log', ⟨?_, hsound, invariant_leveled_alone.step h hs.leveled, (invariant_leveled hleaving).step h hs.leaving,
    invariant_fresh.step h hs.fresh, h.stays_orderly hs.orderly⟩, hfollows⟩
  obtain ⟨events, rfl, hjournal⟩ := hfollows.events
  have hjournal : t.world.journal = events ++ s.world.journal := hjournal
  rw [hjournal, hs.journal, List.append_assoc]

theorem Reaches.logged (h : Reaches e s t) (hs : s.Logged w log) :
    ∃ log', t.Logged w log' ∧ Ledger.Follows log s.ledger log' t.ledger := by
  induction h with
  | refl => exact ⟨log, hs, .refl _ _⟩
  | tail _ hstep ih =>
    obtain ⟨log', ht, hfollows⟩ := ih
    obtain ⟨log'', hu, hfollows'⟩ := hstep.logged ht
    exact ⟨log'', hu, hfollows.trans hfollows'⟩

/-- There is one log only. -/
theorem Logged.unique (h : t.Logged w log) {log' : List Event} (h' : t.world.journal = log' ++ w.journal) :
    log' = log := List.append_cancel_right (h'.symm.trans h.journal)

/-- What was closed once stays closed, and nothing more is fetched for it. -/
theorem Logged.closed {log' : List Event} (hs : s.Logged w log) (h : Reaches e s t) (ht : t.Logged w log')
    {activation : Nat} (ha : activation ∈ begun log) (hclosed : ¬s.Open activation) :
    ¬t.Open activation ∧ fetchedFor log' activation = fetchedFor log activation := by
  obtain ⟨log'', ht', hfollows⟩ := h.logged hs
  cases ht.unique ht'.journal
  rw [← open_ledger] at hclosed ⊢
  exact hfollows.closed activation ha hclosed

end Scene

/-- A frame is left with a blank instruction, which starts nothing on the side. -/
theorem Snapshot.Fetches.not_forks {s : Snapshot σ} {level : Nat} {f : Frame} {below : List Frame}
    (hfetch : s.Fetches level f below) (htext : (s.machine.fetched f below).textOf f.advance.key = "") :
    ¬s.Forks e := by
  obtain ⟨m, task, outer⟩ := s
  obtain ⟨htask, ha, hlevel, hf, hmore⟩ := hfetch
  cases htask
  exact not_forks_of_begins (.exhausted ha (nextStep_of_blank hlevel hf hmore htext)) (by rintro _ ⟨⟩) outer

/-- A blank instruction is the last one of its activation. -/
theorem Snapshot.Fetches.closes {s u : Snapshot σ} {others : Multiset (Actor σ)} {level : Nat} {f : Frame}
    {below : List Frame} (hfetch : s.Fetches level f below) {log : List Event}
    (hsound : (s.among others).ledger.Sound log) (hs : s.Leveled)
    (htext : (s.machine.fetched f below).textOf f.advance.key = "") (h : s.Step e u) :
    ¬(u.among others).Open f.activation := by
  have hbase := hfetch.base_le hs
  obtain ⟨m, task, outer⟩ := s
  obtain ⟨htask, ha, hlevel, hf, hmore⟩ := hfetch
  cases htask
  cases h.unique (.begin (.exhausted ha (nextStep_of_blank hlevel hf hmore htext)) outer)
  -- before the fetch the frame was one of those that may fetch, and the only one of its activation
  have hfirst : (Snapshot.among ⟨m, .cycle level, outer⟩ others).ledger.standing = (m.thread.id, f) ::ₘ
      (↑((own (base outer) below).map (m.thread.id, ·)) + Scene.standing others) := by
    rw [ledger_among]
    show ↑((own (base outer) m.frames).map (m.thread.id, ·)) + Scene.standing others = _
    rw [hf, own_cons hbase]
    exact coe_cons_add _ _ _
  have hnodup := hsound.standing_nodup
  rw [hfirst, Multiset.map_cons] at hnodup
  intro hopen
  refine (Multiset.nodup_cons.1 hnodup).1 ?_
  rcases Scene.open_among.1 hopen with ⟨g, hg, hg', -⟩ | ⟨a, ha, g, hg, hg', -⟩
  · have hg : g ∈ (own (base outer) (f.advance :: below)).tail := hg
    rw [← own_tail] at hg
    refine Multiset.mem_map.2 ⟨(m.thread.id, g), Multiset.mem_add.2 (.inl ?_), hg'⟩
    exact Multiset.mem_coe.2 (List.mem_map.2 ⟨g, hg, rfl⟩)
  · refine Multiset.mem_map.2 ⟨(a.thread.id, g), Multiset.mem_add.2 (.inr (Multiset.mem_bind.2 ⟨a, ha, ?_⟩)), hg'⟩
    exact Multiset.mem_coe.2 (List.mem_map.2 ⟨g, hg, rfl⟩)

/-! ## Runs of an action

An action starts with an empty log. Each activation that it comes to later has its instructions fetched in order, up
to where the activation ends, and never afterwards. -/

namespace Engine

/-- What the threads of a run of an action come to in some order of their steps. -/
def Comes (e : Engine σ) (w : World σ) (action : String) (t : Scene σ) : Prop :=
  Scene.Reaches e ((started w action).among 0) t

/-- An earlier step of some thread has ended an activation for a reason, and since then nothing was fetched for it. -/
def Ended (e : Engine σ) (w : World σ) (action : String) (t : Scene σ) (log : List Event) (activation : Nat) : Prop :=
  ∃ s u past, e.Comes w action s ∧ Scene.Step e s u ∧ Scene.Reaches e u t ∧ Scene.Ends e activation s u ∧
    u.world.journal = past ++ w.journal ∧ fetchedFor log activation = fetchedFor past activation

/-- What the log of a run says of activations and their instructions, at some point of the run. -/
structure InOrder (e : Engine σ) (w : World σ) (action : String) (t : Scene σ) (log : List Event) : Prop where
  /-- An activation begins once. -/
  begun : (begun log).Nodup
  /-- It is for the thread that has begun an activation to fetch its instructions. -/
  fetched : ∀ thread activation key depth live, .fetched thread activation key depth live ∈ log →
    ∃ name, .entered thread activation name ∈ log
  /-- They are fetched in order, from the first one on. -/
  keys : ∀ thread activation name, .entered thread activation name ∈ log → ∃ k,
    fetchedFor log activation = (List.range k).map fun i => Properties.instructionKey name (i + 1)
  /-- An activation stays open until there is a reason for it to end. -/
  ended : ∀ activation ∈ Sequencer.begun log,
    t.Open activation ∨ ¬t.Open activation ∧ Ended e w action t log activation
  /-- After a blank instruction no other is fetched. -/
  blank : ∀ s u others level f below past, e.Comes w action (Snapshot.among s others) → s.Fetches level f below →
    (s.machine.fetched f below).textOf f.advance.key = "" → s.Step e u → Scene.Reaches e (u.among others) t →
    u.machine.world.journal = past ++ w.journal →
    ¬t.Open f.activation ∧ fetchedFor log f.activation = fetchedFor past f.activation
  /-- Once the thread that all began with is done there is no other, and if it has succeeded all activations have
  ended. -/
  complete : ∀ thread ok others, t.actors = ⟨thread, .done ok, []⟩ ::ₘ others →
    others = 0 ∧ (ok = true → ∀ activation, ¬t.Open activation)
  /-- A thread that begins with the copy of a stack never fetches for an activation that is on it. -/
  copied : ∀ m level n c i key outer others, m.Sends e level n c i key →
    e.Comes w action (Snapshot.among ⟨m, .cycle level, outer⟩ others) →
    Scene.Reaches e
      (Snapshot.among ⟨n.forkInstruction i key, .cycle level, outer⟩ (.side n.fork.2 c i key ::ₘ others)) t →
    ∀ f ∈ n.fork.2.frames, ∀ key depth live, .fetched n.fork.2.id f.activation key depth live ∉ log
  /-- All threads that there are have numbers of their own. -/
  threads : (t.actors.map (·.thread.id)).Nodup
  /-- An instruction is dispatched as often as it was fetched, at most. -/
  dispatched : ∀ key, timesPrepared log key ≤ timesFetched log key

theorem logged_started (w : World σ) (action : String) :
    ((started w action).among 0).Logged w [.entered w.threads w.activations action] := by
  -- The new thread has not pushed a frame yet.
  have hleaving : Leveled ⟨(started w action).machine, (started w action).task, [.started 0]⟩ := by
    refine ⟨trivial, ⟨Nat.le_refl 0, Nat.zero_le _⟩, fun d ok hyields => ⟨fun hok => (hyields.2 hok).le, trivial⟩⟩
  have horderly : (started w action).actor.Orderly := ⟨trivial, trivial⟩
  refine ⟨rfl, ?_, Scene.forall_singleton (leveled_started w action), Scene.forall_singleton hleaving,
    Scene.forall_singleton nofun, Scene.orderly_singleton horderly rfl _⟩
  constructor
  case begun_nodup => exact List.nodup_singleton _
  case entered_lt =>
    intro thread activation name hmem
    cases List.mem_singleton.1 hmem
    exact ⟨Nat.lt_succ_self _, Nat.lt_succ_self _⟩
  case fetched =>
    intro thread activation key depth live hmem
    cases List.mem_singleton.1 hmem
  case keys => exact fun _ => rfl
  case standing =>
    intro p hp
    cases Multiset.mem_singleton.1 hp
    exact ⟨List.mem_singleton_self _, fun _ => rfl⟩
  case standing_nodup => exact Multiset.nodup_singleton _
  case known =>
    intro a ha
    cases Multiset.mem_singleton.1 ha
    exact List.mem_singleton_self _
  case crew_nodup => exact Multiset.nodup_singleton _
  case crew_lt =>
    intro thread hthread
    cases Multiset.mem_singleton.1 hthread
    exact Nat.lt_succ_self _
  case due => exact fun _ => Nat.le_refl _

theorem Comes.logged {w : World σ} {action : String} {t : Scene σ} (ht : e.Comes w action t) : ∃ log, t.Logged w log := by
  obtain ⟨log, ht, -⟩ := Scene.Reaches.logged ht (logged_started w action)
  exact ⟨log, ht⟩

/-- An activation is open until it ends. -/
theorem Comes.open_or_ended {w : World σ} {action : String} {t : Scene σ} (ht : e.Comes w action t)
    {log : List Event} (hlog : t.Logged w log) {activation : Nat} (ha : activation ∈ begun log) :
    t.Open activation ∨ ¬t.Open activation ∧ Ended e w action t log activation := by
  induction ht generalizing log with
  | refl =>
    cases (logged_started w action).unique hlog.journal
    cases List.mem_singleton.1 ha
    exact .inl (Scene.open_among.2 (.inl ⟨_, List.mem_singleton_self _, rfl, rfl⟩))
  | @tail s u hs hstep ih =>
    obtain ⟨past, hpast⟩ := Comes.logged hs
    obtain ⟨log', hlog', hfollows⟩ := hstep.logged hpast
    cases hlog'.unique hlog.journal
    have hpassage := hstep.passage hpast.leveled hpast.fresh hpast.orderly
    rcases hfollows.begins activation ha with ha | hle
    · rcases ih hpast ha with hopen | ⟨hclosed, s', u', past', hs', hstep', hreach, hends, hjournal, hsame⟩
      · by_cases hu : u.Open activation
        · exact .inl hu
        · have hends := (hpassage.ends activation hopen).resolve_left hu
          exact .inr ⟨hu, s, u, log, hs, hstep, .refl _, hends, hlog.journal, rfl⟩
      · obtain ⟨hclosed', hsame'⟩ := hpast.closed (.single hstep) hlog ha hclosed
        exact .inr ⟨hclosed', s', u', past', hs', hstep', hreach.tail hstep, hends, hjournal, hsame'.trans hsame⟩
    · obtain ⟨thread, name, hentered⟩ := mem_begun.1 ha
      exact .inl (hpassage.opens activation hle (hlog.sound.entered_lt hentered).2)

/-- A thread that begins with the copy of a stack has begun none of the activations on it. -/
theorem Comes.not_fetched {w : World σ} {action : String} {m n : Machine σ} {level : Nat} {c : Command σ}
    {i : Instruction} {key : String} {outer : List (Caller σ)} {others : Multiset (Actor σ)} {t : Scene σ}
    {log : List Event} (hsends : m.Sends e level n c i key)
    (hs : e.Comes w action (Snapshot.among ⟨m, .cycle level, outer⟩ others))
    (ht : Scene.Reaches e
      (Snapshot.among ⟨n.forkInstruction i key, .cycle level, outer⟩ (.side n.fork.2 c i key ::ₘ others)) t)
    (hlog : t.Logged w log) {f : Frame} (hf : f ∈ n.fork.2.frames) {key' : String} {depth live : Nat} :
    .fetched n.fork.2.id f.activation key' depth live ∉ log := by
  obtain ⟨past, hpast⟩ := hs.logged
  obtain ⟨log', hlog', hfollows⟩ := (Scene.Reaches.head (.fork hsends outer others) ht).logged hpast
  cases hlog'.unique hlog.journal
  obtain ⟨events, hevents, -⟩ := hfollows.events
  have hknown : f.activation ∈ (Snapshot.among ⟨m, .cycle level, outer⟩ others).ledger.known := by
    rw [ledger_among]
    refine Multiset.mem_add.2 (.inl (Multiset.mem_coe.2 ?_))
    show f.activation ∈ m.frames.map (·.activation)
    rw [← hsends.activations, ← Scene.activations_fork]
    exact List.mem_map_of_mem hf
  exact hpast.sound.not_fetched hlog.sound hevents hknown hsends.threads.ge

theorem Comes.inOrder {w : World σ} {action : String} {t : Scene σ} (ht : e.Comes w action t) {log : List Event}
    (hlog : t.Logged w log) : InOrder e w action t log := by
  constructor
  case begun => exact hlog.sound.begun_nodup
  case fetched => exact fun thread activation key depth live hmem => hlog.sound.fetched hmem
  case keys => exact fun thread activation name hmem => ⟨_, hlog.sound.keys hmem⟩
  case ended => exact fun activation ha => ht.open_or_ended hlog ha
  -- nothing is fetched for the activation any more, since its frame is gone after the step
  case blank =>
    intro s u others level f below past hs hfetch htext hstep hreach hjournal
    obtain ⟨before, hbefore⟩ := hs.logged
    have hleveled := hbefore.leveled _ (Multiset.mem_cons_self _ _)
    have hforks : ¬s.Forks e := hfetch.not_forks htext
    have hawaits : ¬s.Awaits := Snapshot.not_awaits_of_task fun failed h => by cases hfetch.task.symm.trans h
    obtain ⟨past', hpast, hfollows⟩ := (Scene.Step.act hstep hforks hawaits others).logged hbefore
    cases hpast.unique hjournal
    obtain ⟨events, rfl, -⟩ := hfollows.events
    have hopen : (s.among others).Open f.activation := Scene.open_among.2 (.inl (hfetch.open hleveled))
    have hbegun := begun_append events (hbefore.sound.begun_of_open (Scene.open_ledger.2 hopen))
    exact hpast.closed hreach hlog hbegun (hfetch.closes hbefore.sound hleveled htext hstep)
  -- when the first thread is done no other is left, so that nothing is open
  case complete =>
    intro thread ok others ha
    have hmem : (⟨thread, .done ok, []⟩ : Actor σ) ∈ t.actors := ha ▸ Multiset.mem_cons_self _ _
    have horderly : Scene.Orderly ⟨t.world, ⟨thread, .done ok, []⟩ ::ₘ others⟩ := ha ▸ hlog.orderly
    have hothers := horderly.alone rfl rfl
    refine ⟨hothers, ?_⟩
    rintro rfl activation ⟨b, hb, f, hf, -⟩
    rw [ha, hothers] at hb
    cases Multiset.mem_singleton.1 hb
    have hdepth : thread.frames.length ≤ 0 := ((hlog.leaving _ hmem).accepts _ _ ⟨rfl, rfl⟩).1 rfl
    have hf : f ∈ own 0 thread.frames := hf
    rw [own_eq_nil hdepth] at hf
    cases hf
  -- the instructions of the frames that were copied are fetched by the parent alone
  case copied =>
    intro m level n c i key outer others hsends hs hreach f hf key' depth live
    exact Comes.not_fetched hsends hs hreach hlog hf
  case threads => exact hlog.sound.crew_nodup
  case dispatched => exact fun key => Nat.le_trans (Nat.le_add_right _ _) (hlog.sound.due key)

/-- At every point of a run, in whatever order its threads take their steps, each activation has fetched its instructions
once and in order, from the first one on and as far as it has come: to a blank one, or to where a return, a break or a
failure has ended it. It was the thread that has begun the activation that has fetched them, whatever threads were
started on the side. So it is when the run has ended, and a run by itself is one of these orders. -/
theorem fetched_once_in_order (w : World σ) (action : String) :
    (∀ t, e.Comes w action t → ∃ log, t.world.journal = log ++ w.journal ∧ InOrder e w action t log) ∧
    ∀ fuel w' ok, e.execute fuel w action = some (w', ok) → ∃ n log,
      e.Comes w action (Snapshot.among ⟨n, .done ok, []⟩ 0) ∧ w' = n.finish.world ∧
      w'.journal = log ++ w.journal ∧ InOrder e w action (Snapshot.among ⟨n, .done ok, []⟩ 0) log := by
  constructor
  · intro t ht
    obtain ⟨log, hlog⟩ := Comes.logged ht
    exact ⟨log, hlog.journal, Comes.inOrder ht hlog⟩
  · intro fuel w' ok hrun
    obtain ⟨n, hreach, rfl⟩ := reaches_of_execute hrun
    have hplays := (runsCycle_iff.2 hreach).plays [] 0
    obtain ⟨log, hlog⟩ := Comes.logged hplays
    exact ⟨n, log, hplays, rfl, hlog.journal, Comes.inOrder hplays hlog⟩

/-- A command of the host program that succeeds at once. -/
def tick : Command Unit := .host ⟨false, fun _ _ => .ok fun _ => .simple () true⟩

def forking : Engine Unit := ⟨[("tick", tick)], fun _ => .error .notFound⟩

/-- A world with an action that starts its first instruction on the side. -/
def forked : World Unit :=
  World.new (Store.ofProperties [("RUN_1", .str "!tick:"), ("RUN_2", .str "tick:")]) (Request.new [] none) ()

/-- The thread on the side may be at work before the second instruction is fetched. -/
theorem reaches_forked : ∃ t, forking.Comes forked "RUN" t ∧ .attempted 1 "RUN_1" ∈ t.world.journal ∧
    fetchedFor t.world.journal 0 = ["RUN_1"] := by
  let m := (started forked "RUN").machine.withBarrier (some .new)
  let n := (m.nextStep 0).1
  let i : Instruction := ⟨true, true, ⟨0, 0, 0⟩, "tick", ""⟩
  have hfetch : m.nextStep 0 = (n, .instruction "RUN_1" "!tick:") := Prod.ext rfl (by decide +kernel)
  have hdecode : n.decode forking "!tick:" = some (i, tick) :=
    decode_of_splitMarker (by decide +kernel) (by decide +kernel) rfl
  have hsends : m.Sends forking 0 n tick i "RUN_1" := ⟨rfl, ⟨_, hfetch, hdecode⟩, rfl⟩
  let parent : Actor Unit := ⟨(n.forkInstruction i "RUN_1").thread, .cycle 0, [.opened none]⟩
  have hside : ∃ t, Scene.Reaches forking ⟨n.fork.1.world, .side n.fork.2 tick i "RUN_1" ::ₘ parent ::ₘ 0⟩ t ∧
      .attempted 1 "RUN_1" ∈ t.world.journal ∧ fetchedFor t.world.journal 0 = ["RUN_1"] := by
    refine ⟨_, .begin (m := ⟨n.fork.1.world, n.fork.2⟩) (.prepared rfl) nofun nofun
      (.begin (.tried (by decide)) nofun nofun (.refl _)), ?_, ?_⟩ <;> decide +kernel
  obtain ⟨t, hreach, hfacts⟩ := hside
  rw [Multiset.cons_swap] at hreach
  exact ⟨t, .begin .opened nofun nofun (.head (.fork hsends _ _) hreach), hfacts⟩

/-- So it is in this order, and in that of the run by itself, where the instruction on the side is dispatched last. -/
theorem fetched_once_in_order_forked :
    (∃ t, .attempted 1 "RUN_1" ∈ t.world.journal ∧ fetchedFor t.world.journal 0 = ["RUN_1"] ∧
      InOrder forking forked "RUN" t t.world.journal) ∧
    ∃ w' n, forking.execute 20 forked "RUN" = some (w', true) ∧ .prepared 1 "RUN_1" ∈ w'.journal ∧
      fetchedFor w'.journal 0 = ["RUN_1", "RUN_2", "RUN_3"] ∧
      InOrder forking forked "RUN" (Snapshot.among ⟨n, .done true, []⟩ 0) w'.journal := by
  constructor
  · obtain ⟨t, hreach, hattempted, hfetched⟩ := reaches_forked
    obtain ⟨log, hjournal, hlog⟩ := (fetched_once_in_order forked "RUN").1 t hreach
    cases hjournal.trans (List.append_nil log)
    exact ⟨t, hattempted, hfetched, hlog⟩
  · obtain ⟨⟨w', ok⟩, hrun, hfacts⟩ : ∃ r, forking.execute 20 forked "RUN" = some r ∧ r.2 = true ∧
        .prepared 1 "RUN_1" ∈ r.1.journal ∧ fetchedFor r.1.journal 0 = ["RUN_1", "RUN_2", "RUN_3"] := by
      have hresult : (forking.execute 20 forked "RUN").any (fun r => r.2 = true ∧ .prepared 1 "RUN_1" ∈ r.1.journal ∧
          fetchedFor r.1.journal 0 = ["RUN_1", "RUN_2", "RUN_3"]) = true := by decide +kernel
      obtain ⟨r, hr, hfacts⟩ := (Option.any_eq_true _ _).1 hresult
      exact ⟨r, hr, of_decide_eq_true hfacts⟩
    obtain ⟨rfl, hprepared, hfetched⟩ := hfacts
    obtain ⟨n, log, -, -, hjournal, hlog⟩ := (fetched_once_in_order forked "RUN").2 20 w' true hrun
    cases hjournal.trans (List.append_nil log)
    exact ⟨w', n, hrun, hprepared, hfetched, hlog⟩

end Engine
end Sequencer
