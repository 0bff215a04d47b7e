import Mathlib.Data.Multiset.Range
import Mathlib.Logic.Relation
import Sequencer.Proofs.Derivation

/-!
# Joining

A cycle puts the handles of the threads that it starts on a barrier, and in the end it joins them. Meanwhile these
threads run, and may start threads in turn and put their handles on the same barrier, so that the one that joins takes
the handles there are and comes back for more, until it finds none. That no thread is left by then, that none was
joined twice, and that the number of failures is right, is shown here for threads that run in any order: for all that
is known of a thread, it starts and registers others and ends in one way or another.

The interpreter runs the jobs of its barrier when it joins them, one after the other. That is one of these orders.
-/

namespace Sequencer

/-- How a thread ends: with what it returns, or in a panic. -/
inductive Exit where
  | returned (ok : Bool)
  | panicked
  deriving Repr, DecidableEq

/-- What counts as a failure. -/
def Exit.failed : Exit → Bool
  | .returned ok => !ok
  | .panicked => true

/-- How far the thread that joins has come. -/
inductive Joiner where
  /-- It starts threads and does not join any yet. -/
  | starting
  /-- It has some handles of a batch left to join, and has counted some failures. -/
  | joining (batch : List Nat) (failed : Nat)
  /-- It has returned the number of failures. -/
  | returned (failed : Nat)
  deriving Repr, DecidableEq

namespace Joiner

/-- The handles that are taken from the barrier and not joined yet. -/
def batch : Joiner → List Nat
  | .joining batch _ => batch
  | .starting | .returned _ => []

/-- The failures counted so far. -/
def failed : Joiner → Nat
  | .starting => 0
  | .joining _ failed | .returned failed => failed

end Joiner

/-- A barrier, the threads around it and the one that joins them. The threads are numbered in the order in which they
start, and a handle is the number of its thread. -/
structure Joining where
  joiner : Joiner
  /-- The handles on the barrier. -/
  pending : List Nat
  /-- How many threads have started. -/
  started : Nat
  /-- How the threads have ended that have. -/
  exit : Nat → Option Exit
  /-- Handles that are not on the barrier yet, each with the thread that is to put it there, if it is not the one that
  joins. -/
  loose : Multiset (Option Nat × Nat)
  /-- All handles that were ever put on the barrier, the last one in front. -/
  registered : List Nat
  /-- All that were joined, the last one in front. -/
  joined : List Nat

namespace Joining

variable {s t : Joining}

/-- A thread has started and has not ended. -/
def Running (s : Joining) (h : Nat) : Prop := h < s.started ∧ s.exit h = none

/-- Who may start threads and put them on the barrier: each thread while it runs, and the one that joins before it
does so. -/
def Active (s : Joining) : Option Nat → Prop
  | none => s.joiner = .starting
  | some h => s.Running h

/-- Whether a thread has ended in failure. -/
def failedAt (s : Joining) (h : Nat) : Bool := (s.exit h).any Exit.failed

/-- A thread starts, and whoever starts it has its handle. -/
def start (s : Joining) (holder : Option Nat) : Joining :=
  { s with started := s.started + 1, loose := (holder, s.started) ::ₘ s.loose }

/-- A handle goes onto the barrier, behind the others. -/
def register (s : Joining) (holder : Option Nat) (h : Nat) : Joining :=
  { s with loose := s.loose.erase (holder, h), pending := s.pending ++ [h], registered := h :: s.registered }

/-- A thread ends. -/
def finish (s : Joining) (h : Nat) (x : Exit) : Joining := { s with exit := Function.update s.exit h (some x) }

/-- All handles on the barrier are taken as a batch. -/
def take (s : Joining) (failed : Nat) : Joining := { s with joiner := .joining s.pending failed, pending := [] }

/-- The first thread of a batch is joined. -/
def collect (s : Joining) (h : Nat) (batch : List Nat) (failed : Nat) (x : Exit) : Joining :=
  { s with joiner := .joining batch (if x.failed then failed + 1 else failed), joined := h :: s.joined }

/-- What happens around a barrier. All threads are started by the one that joins or by threads that were started by
it, and whoever starts a thread puts its handle on the barrier before ending, or before joining. The one that joins
waits for each thread of a batch, takes the next batch after that, and returns once it has taken an empty one. -/
inductive Step (s : Joining) : Joining → Prop
  | start (holder : Option Nat) (hactive : s.Active holder) : Step s (s.start holder)
  | register (holder : Option Nat) (h : Nat) (hactive : s.Active holder) (hloose : (holder, h) ∈ s.loose) :
    Step s (s.register holder h)
  | finish (h : Nat) (x : Exit) (hrunning : s.Running h) (hnone : ∀ i, (some h, i) ∉ s.loose) : Step s (s.finish h x)
  | join (hjoiner : s.joiner = .starting) (hnone : ∀ i, (none, i) ∉ s.loose) :
    Step s { s with joiner := .joining [] 0 }
  | take (failed : Nat) (hjoiner : s.joiner = .joining [] failed) (hpending : s.pending ≠ []) : Step s (s.take failed)
  | collect (h : Nat) (batch : List Nat) (failed : Nat) (x : Exit) (hjoiner : s.joiner = .joining (h :: batch) failed)
      (hexit : s.exit h = some x) : Step s (s.collect h batch failed x)
  | leave (failed : Nat) (hjoiner : s.joiner = .joining [] failed) (hpending : s.pending = []) :
    Step s { s with joiner := .returned failed }

/-- A new barrier. -/
def new : Joining := ⟨.starting, [], 0, fun _ => none, 0, [], []⟩

/-- What can come to be around a barrier. -/
def Reachable (s : Joining) : Prop := Relation.ReflTransGen Step new s

/-! ## Where the handles are

A handle is found in one place at any time: with the thread that was started, in the barrier, or with the one who
joins it. The invariant says which, and counts. -/

/-- Each handle is in one place: not registered yet, on the barrier, in the batch, or joined. -/
structure Sound (s : Joining) : Prop where
  started : Multiset.range s.started = s.loose.map Prod.snd + s.registered
  registered : (s.registered : Multiset Nat) = s.pending + (s.joiner.batch + s.joined)
  /-- What is not registered yet is still going to be, by somebody who was there before. -/
  loose : ∀ holder h, (holder, h) ∈ s.loose → s.Active holder ∧ ∀ i, holder = some i → i < h
  joined : ∀ h ∈ s.joined, (s.exit h).isSome
  counted : s.joiner.failed = s.joined.countP s.failedAt
  returned : ∀ failed, s.joiner = .returned failed → s.loose = 0 ∧ s.pending = []

namespace Sound

/-- Each thread that has started is in one of the four places. -/
theorem mem (h : s.Sound) {i : Nat} (hi : i < s.started) :
    (∃ holder, (holder, i) ∈ s.loose) ∨ i ∈ s.pending ∨ i ∈ s.joiner.batch ∨ i ∈ s.joined := by
  have hmem := Multiset.mem_range.2 hi
  rw [h.started, h.registered] at hmem
  simpa using hmem

/-- Nobody is joined before the end. -/
theorem not_mem_joined (h : s.Sound) {i : Nat} (hexit : s.exit i = none) : i ∉ s.joined := by
  intro hmem
  have hended := h.joined i hmem
  rw [hexit] at hended
  cases hended

/-- If all handles there are have been joined, no thread is left. -/
theorem not_running (h : s.Sound) (hloose : s.loose = 0) (hpending : s.pending = []) (hbatch : s.joiner.batch = [])
    (i : Nat) : ¬s.Running i := by
  rintro ⟨hi, hexit⟩
  have hmem := h.mem hi
  rw [hloose, hpending, hbatch] at hmem
  exact h.not_mem_joined hexit (by simpa using hmem)

/-- If the barrier is found empty, nobody is going to put a handle there. Whoever had one to put there would be a
thread that runs and whose own handle is not there yet: the induction goes to ever older threads. -/
theorem loose_eq_zero (h : s.Sound) (hjoiner : s.joiner ≠ .starting) (hpending : s.pending = [])
    (hbatch : s.joiner.batch = []) : s.loose = 0 := by
  -- The holder of a loose handle is a thread that came before it, is at work, and so is itself held by somebody.
  have hnone : ∀ i holder, (holder, i) ∉ s.loose := by
    intro i
    induction i using Nat.strongRecOn with
    | ind i ih =>
      intro holder hmem
      obtain ⟨hactive, holder_lt⟩ := h.loose holder i hmem
      cases holder with
      | none => exact hjoiner hactive
      | some j =>
        obtain ⟨hj, hexit⟩ := hactive
        rcases h.mem hj with ⟨holder, hmem'⟩ | hmem' | hmem' | hmem'
        · exact ih j (holder_lt j rfl) holder hmem'
        · rw [hpending] at hmem'
          cases hmem'
        · rw [hbatch] at hmem'
          cases hmem'
        · exact h.not_mem_joined hexit hmem'
  exact Multiset.eq_zero_of_forall_notMem fun ⟨holder, i⟩ => hnone i holder

/-- After the return nobody does anything. -/
theorem not_active (h : s.Sound) {failed : Nat} (hjoiner : s.joiner = .returned failed) (holder : Option Nat) :
    ¬s.Active holder := by
  obtain ⟨hloose, hpending⟩ := h.returned failed hjoiner
  cases holder with
  | none =>
    intro hactive
    cases hjoiner.symm.trans hactive
  | some i => exact h.not_running hloose hpending (by rw [hjoiner]; rfl) i

end Sound

theorem sound_new : new.Sound where
  started := rfl
  registered := rfl
  loose := fun _ _ h => absurd h (Multiset.notMem_zero _)
  joined := nofun
  counted := rfl
  returned := nofun

namespace Sound

/-- A thread that is started gives its holder a loose handle. -/
theorem start (h : s.Sound) {holder : Option Nat} (hactive : s.Active holder) : (s.start holder).Sound := by
  have hstays : ∀ o, s.Active o → (s.start holder).Active o := by
    intro o ho
    cases o with
    | none => exact ho
    | some i => exact ⟨Nat.lt_succ_of_lt ho.1, ho.2⟩
  constructor
  case started =>
    show Multiset.range (s.started + 1) = ((holder, s.started) ::ₘ s.loose).map Prod.snd + s.registered
    rw [Multiset.range_succ, h.started, Multiset.map_cons, Multiset.cons_add]
  case registered => exact h.registered
  case loose =>
    intro o i hmem
    rcases Multiset.mem_cons.1 hmem with hnew | hold
    · cases hnew
      refine ⟨hstays holder hactive, ?_⟩
      rintro j rfl
      exact hactive.1
    · obtain ⟨ho, hlt⟩ := h.loose o i hold
      exact ⟨hstays o ho, hlt⟩
  case joined => exact h.joined
  case counted => exact h.counted
  case returned => exact fun failed hjoiner => absurd hactive (h.not_active hjoiner holder)

/-- A handle that is registered is no longer loose: it waits at the barrier. -/
theorem register (h : s.Sound) {holder : Option Nat} {i : Nat} (hactive : s.Active holder)
    (hloose : (holder, i) ∈ s.loose) : (s.register holder i).Sound := by
  constructor
  case started =>
    show Multiset.range s.started = (s.loose.erase (holder, i)).map Prod.snd + ↑(i :: s.registered)
    have hloose := congrArg (Multiset.map Prod.snd) (Multiset.cons_erase hloose)
    rw [h.started, ← hloose, Multiset.map_cons, Multiset.cons_add, ← Multiset.cons_coe, Multiset.add_cons]
  case registered =>
    have hpending : (↑(s.pending ++ [i]) : Multiset Nat) = i ::ₘ ↑s.pending :=
      Multiset.coe_eq_coe.2 (List.perm_append_singleton i s.pending)
    show (↑(i :: s.registered) : Multiset Nat) = ↑(s.pending ++ [i]) + (↑s.joiner.batch + ↑s.joined)
    rw [hpending, Multiset.cons_add, ← h.registered, Multiset.cons_coe]
  case loose =>
    intro o j hmem
    exact h.loose o j (Multiset.mem_of_mem_erase hmem)
  case joined => exact h.joined
  case counted => exact h.counted
  case returned => exact fun failed hjoiner => absurd hactive (h.not_active hjoiner holder)

theorem finish (h : s.Sound) {i : Nat} (x : Exit) (hrunning : s.Running i) (hnone : ∀ j, (some i, j) ∉ s.loose) :
    (s.finish i x).Sound := by
  have hne : ∀ j ∈ s.joined, j ≠ i := by
    rintro j hj rfl
    exact h.not_mem_joined hrunning.2 hj
  constructor
  case started => exact h.started
  case registered => exact h.registered
  case loose =>
    intro holder j hmem
    obtain ⟨hactive, hlt⟩ := h.loose holder j hmem
    refine ⟨?_, hlt⟩
    cases holder with
    | none => exact hactive
    | some k =>
      have hk : k ≠ i := by
        rintro rfl
        exact hnone j hmem
      exact ⟨hactive.1, (Function.update_of_ne hk _ _).trans hactive.2⟩
  case joined =>
    intro j hj
    show (Function.update s.exit i (some x) j).isSome
    rw [Function.update_of_ne (hne j hj)]
    exact h.joined j hj
  case counted =>
    refine h.counted.trans (List.countP_congr fun j hj => ?_)
    show _ ↔ (Function.update s.exit i (some x) j).any Exit.failed = true
    rw [Function.update_of_ne (hne j hj)]
    rfl
  case returned => exact h.returned

/-! What is known of the handles and of the count, where the one that joins is at a known place. -/

theorem registered_of (h : s.Sound) {j : Joiner} (hjoiner : s.joiner = j) :
    (s.registered : Multiset Nat) = s.pending + (j.batch + s.joined) := by
  rw [← hjoiner]
  exact h.registered

theorem counted_of (h : s.Sound) {j : Joiner} (hjoiner : s.joiner = j) : j.failed = s.joined.countP s.failedAt := by
  rw [← hjoiner]
  exact h.counted

theorem join (h : s.Sound) (hjoiner : s.joiner = .starting) (hnone : ∀ i, (none, i) ∉ s.loose) :
    Sound { s with joiner := .joining [] 0 } := by
  constructor
  case started => exact h.started
  case registered => exact (h.registered_of hjoiner :)
  case loose =>
    intro holder i hmem
    cases holder with
    | none => exact absurd hmem (hnone i)
    | some j => exact h.loose (some j) i hmem
  case joined => exact h.joined
  case counted => exact (h.counted_of hjoiner :)
  case returned => exact nofun

/-- The one that joins goes on, and does not touch the handles that are not registered yet. -/
theorem loose_of_joining (h : s.Sound) {batch : List Nat} {failed : Nat} (hjoiner : s.joiner = .joining batch failed)
    {joiner : Joiner} {pending joined : List Nat} (holder : Option Nat) (i : Nat) (hmem : (holder, i) ∈ s.loose) :
    Active { s with joiner := joiner, pending := pending, joined := joined } holder ∧
      ∀ j, holder = some j → j < i := by
  obtain ⟨hactive, hlt⟩ := h.loose holder i hmem
  refine ⟨?_, hlt⟩
  cases holder with
  | none => cases hjoiner.symm.trans hactive
  | some j => exact hactive

/-- The joiner takes all handles that wait, and leaves none. -/
theorem take (h : s.Sound) {failed : Nat} (hjoiner : s.joiner = .joining [] failed) : (s.take failed).Sound := by
  constructor
  case started => exact h.started
  case registered =>
    show (s.registered : Multiset Nat) = ↑([] : List Nat) + (↑s.pending + ↑s.joined)
    rw [h.registered_of hjoiner]
    simp [Joiner.batch]
  case loose => exact h.loose_of_joining hjoiner
  case joined => exact h.joined
  case counted => exact (h.counted_of hjoiner :)
  case returned => exact nofun

/-- A handle that is joined moves from the batch to those that are done, and a failure is counted. -/
theorem collect (h : s.Sound) {i : Nat} {batch : List Nat} {failed : Nat} {x : Exit}
    (hjoiner : s.joiner = .joining (i :: batch) failed) (hexit : s.exit i = some x) :
    (s.collect i batch failed x).Sound := by
  constructor
  case started => exact h.started
  case registered =>
    show (s.registered : Multiset Nat) = ↑s.pending + (↑batch + ↑(i :: s.joined))
    rw [h.registered_of hjoiner]
    show (↑s.pending + (↑(i :: batch) + ↑s.joined) : Multiset Nat) = _
    rw [← Multiset.cons_coe, ← Multiset.cons_coe, Multiset.cons_add, Multiset.add_cons, Multiset.add_cons,
      Multiset.add_cons]
  case loose => exact h.loose_of_joining hjoiner
  case joined =>
    intro j hj
    rcases List.mem_cons.1 hj with rfl | hj
    · show (s.exit j).isSome
      rw [hexit]
      rfl
    · exact h.joined j hj
  case counted =>
    have hcounted := h.counted_of hjoiner
    have hfailed : s.failedAt i = x.failed := by
      unfold failedAt
      rw [hexit]
      rfl
    show (if x.failed then failed + 1 else failed) = (i :: s.joined).countP s.failedAt
    rw [List.countP_cons, hfailed, ← hcounted]
    split_ifs <;> rfl
  case returned => exact nofun

/-- The joiner is finished when the batch is empty and no handle waits. -/
theorem leave (h : s.Sound) {failed : Nat} (hjoiner : s.joiner = .joining [] failed) (hpending : s.pending = []) :
    Sound { s with joiner := .returned failed } := by
  have hbatch : s.joiner.batch = [] := by rw [hjoiner]; rfl
  have hloose := h.loose_eq_zero (by rw [hjoiner]; nofun) hpending hbatch
  constructor
  case started => exact h.started
  case registered => exact (h.registered_of hjoiner :)
  case loose => exact h.loose_of_joining hjoiner
  case joined => exact h.joined
  case counted => exact (h.counted_of hjoiner :)
  case returned => exact fun _ _ => ⟨hloose, hpending⟩

/-- All of this holds after any step of any of them. -/
theorem step (h : s.Sound) (hs : s.Step t) : t.Sound := by
  cases hs with
  | start holder hactive => exact h.start hactive
  | register holder i hactive hloose => exact h.register hactive hloose
  | finish i x hrunning hnone => exact h.finish x hrunning hnone
  | join hjoiner hnone => exact h.join hjoiner hnone
  | take failed hjoiner => exact h.take hjoiner
  | collect i batch failed x hjoiner hexit => exact h.collect hjoiner hexit
  | leave failed hjoiner hpending => exact h.leave hjoiner hpending

end Sound

theorem Reachable.sound (h : s.Reachable) : s.Sound := by
  induction h with
  | refl => exact sound_new
  | tail _ hs ih => exact ih.step hs

/-! ## One after the other

A batch may be joined in any order, and the handles that come in meanwhile make the next batch. -/

/-- Some threads, all started and registered by the one that joins. -/
def prepared (k : Nat) : Joining := ⟨.starting, List.range k, k, fun _ => none, 0, (List.range k).reverse, []⟩

theorem prepared_reachable (k : Nat) : (prepared k).Reachable := by
  induction k with
  | zero => exact .refl
  | succ k ih =>
    have hstart := ih.tail (.start none rfl)
    have hregister := hstart.tail (.register none k rfl (Multiset.mem_cons_self (none, k) 0))
    have hnext : ((prepared k).start none).register none k = prepared (k + 1) := by
      unfold prepared start register
      rw [Multiset.erase_cons_head, List.range_succ, List.reverse_append]
      rfl
    exact hnext ▸ hregister

/-- The threads have run one after the other up to some number, each to its end and joined before the next. -/
def halfway (oks : List Bool) (i : Nat) : Joining where
  joiner := .joining ((List.range oks.length).drop i) ((oks.take i).count false)
  pending := []
  started := oks.length
  exit := fun h => if h < i then oks[h]?.map Exit.returned else none
  loose := 0
  registered := (List.range oks.length).reverse
  joined := (List.range i).reverse

/-- The next thread runs and is joined. -/
theorem halfway_succ {oks : List Bool} {i : Nat} (h : i < oks.length) :
    ((halfway oks i).finish i (.returned oks[i])).collect i ((List.range oks.length).drop (i + 1))
      ((oks.take i).count false) (.returned oks[i]) = halfway oks (i + 1) := by
  -- The count goes on by the outcome that has just been collected.
  have hcount : (if (Exit.returned oks[i]).failed then (oks.take i).count false + 1 else (oks.take i).count false) =
      (oks.take (i + 1)).count false := by
    rw [List.take_add_one, List.getElem?_eq_getElem h, List.count_append]
    cases oks[i] <;> rfl
  have hexit : Function.update (halfway oks i).exit i (some (.returned oks[i])) = (halfway oks (i + 1)).exit := by
    funext j
    unfold halfway Function.update
    by_cases hj : j = i
    · subst hj
      simp [h]
    · have hiff : j < i + 1 ↔ j < i := by omega
      simp [hj, hiff]
  unfold collect finish
  rw [hcount, hexit]
  unfold halfway
  rw [List.range_succ, List.reverse_append]
  rfl

theorem halfway_reachable (oks : List Bool) : ∀ i, i ≤ oks.length → (halfway oks i).Reachable := by
  intro i hi
  induction i with
  | zero =>
    have hjoin := (prepared_reachable oks.length).tail (.join rfl fun i => Multiset.notMem_zero _)
    cases oks with
    | nil => exact hjoin
    | cons ok oks =>
      exact hjoin.tail (.take 0 rfl (List.ne_nil_of_length_eq_add_one List.length_range))
  | succ i ih =>
    have hlt : i < oks.length := hi
    have hrunning : (halfway oks i).Running i := ⟨hlt, if_neg (lt_irrefl i)⟩
    -- The next thread comes to its end, and its handle is the first one of the batch.
    have hfinish := (ih hlt.le).tail (.finish i (.returned oks[i]) hrunning fun j => Multiset.notMem_zero _)
    have hbatch : (List.range oks.length).drop i = i :: (List.range oks.length).drop (i + 1) := by
      rw [List.drop_eq_getElem_cons (by rwa [List.length_range]), List.getElem_range]
    have hjoiner : (halfway oks i).joiner =
        .joining (i :: (List.range oks.length).drop (i + 1)) ((oks.take i).count false) := by
      rw [← hbatch]
      rfl
    have hcollect := hfinish.tail (.collect i _ _ (.returned oks[i]) hjoiner (Function.update_self i _ _))
    exact halfway_succ hlt ▸ hcollect

/-- All the threads have run. -/
theorem exists_returned (oks : List Bool) : ∃ s : Joining, s.Reachable ∧ s.joiner = .returned (oks.count false) ∧
    s.started = oks.length ∧ s.exit = fun h => oks[h]?.map Exit.returned := by
  have hjoiner : (halfway oks oks.length).joiner = .joining [] (oks.count false) := by
    unfold halfway
    rw [List.drop_eq_nil_of_le List.length_range.le, List.take_length]
  refine ⟨_, (halfway_reachable oks oks.length le_rfl).tail (.leave _ hjoiner rfl), rfl, rfl, ?_⟩
  funext h
  show (if h < oks.length then oks[h]?.map Exit.returned else none) = _
  split_ifs with hlt
  · rfl
  · rw [List.getElem?_eq_none (not_lt.1 hlt)]
    rfl

end Joining

/-! ## The barrier of the interpreter

The barrier of the interpreter is one of the histories: it joins the oldest job first. -/

namespace Machine

variable {σ : Type}

/-- The jobs on the barrier of the thread. -/
def waiting (m : Machine σ) : List (Job σ) := m.thread.barrier.elim [] Barrier.pending

/-- The jobs of the barrier run one after the other, and each succeeds or not. -/
inductive Collects (e : Engine σ) : Machine σ → List Bool → Machine σ → Prop
  | done {m} (hj : m.nextJob = none) : Collects e m [] m
  | next {m job n w ok oks o} (hj : m.nextJob = some (job, n)) (run : RunsJob e n.world job w ok)
      (rest : Collects e { n with world := w } oks o) : Collects e m (ok :: oks) o

variable {e : Engine σ} {m n : Machine σ}

/-- None of the jobs is left out. -/
theorem Collects.length_eq {oks : List Bool} (h : Collects e m oks n) : oks.length = m.waiting.length := by
  induction h with
  | @done m hj =>
    unfold waiting
    rcases hb : m.thread.barrier with _ | ⟨_ | ⟨job, rest⟩⟩
    · rfl
    · rfl
    · cases hj.symm.trans (nextJob_of_barrier hb)
  | @next m job n w ok oks o hj run rest ih =>
    obtain ⟨jobs, hb, rfl⟩ := barrier_of_nextJob hj
    unfold waiting
    rw [hb]
    exact congrArg Nat.succ ih

theorem collects_of_join (fuel : Nat) {failed failed' : Nat} (h : join e fuel m failed = some (n, failed')) :
    ∃ oks, Collects e m oks n ∧ failed' = failed + oks.count false := by
  induction fuel generalizing m failed with
  | zero =>
    rw [join] at h
    cases h
  | succ fuel ih =>
    rw [join] at h
    split at h
    · next hj =>
      cases h
      exact ⟨[], .done hj, rfl⟩
    · next hj =>
      split at h
      · cases h
      · next ok hrun =>
        obtain ⟨oks, hcollects, hfailed⟩ := ih h
        -- The job that runs first is collected first.
        refine ⟨ok :: oks, .next hj (runsJob_of_runJob fuel hrun) hcollects, hfailed.trans ?_⟩
        cases ok with
        | true =>
          rw [List.count_cons_of_ne (by decide)]
          rfl
        | false =>
          rw [List.count_cons_self, if_neg Bool.false_ne_true]
          omega

end Machine

/-! ## No work is lost

When the barrier is left, no handle is anywhere else than among those that were joined. -/

namespace Joining

variable {s : Joining} {σ : Type}

/-- In whatever order threads start, register others and end: when the join returns, there is nothing left on the
barrier, all handles that were ever put there have been joined once, all threads have ended and so nobody will put
another one there, and the number is that of the threads that have failed. The join of the interpreter returns what
it returns in one of these orders, in which each thread ends as the job in its place. -/
theorem no_work_lost (h : s.Reachable) {failed : Nat} (hreturned : s.joiner = .returned failed) :
    (∀ i ∈ s.registered, s.joined.count i = 1) ∧ s.joined.Perm s.registered ∧ s.pending = [] ∧
    (∀ i, i < s.started → i ∈ s.registered ∧ (s.exit i).isSome) ∧ failed = s.registered.countP s.failedAt ∧
    ∀ (e : Engine σ) fuel (m n : Machine σ) k, Machine.join e fuel m 0 = some (n, k) →
      ∃ oks, Machine.Collects e m oks n ∧ oks.length = m.waiting.length ∧
        ∃ t : Joining, t.Reachable ∧ t.joiner = .returned k ∧ t.started = oks.length ∧
          t.exit = fun i => oks[i]?.map Exit.returned := by
  have hsound := h.sound
  have hbatch : s.joiner.batch = [] := by rw [hreturned]; rfl
  obtain ⟨hloose, hpending⟩ := hsound.returned failed hreturned
  -- nothing waits and nothing is being waited for, so that all that was registered has been joined
  have hperm : s.joined.Perm s.registered := by
    have hregistered := hsound.registered
    rw [hbatch, hpending, Multiset.coe_nil, Multiset.zero_add, Multiset.zero_add] at hregistered
    exact (Multiset.coe_eq_coe.1 hregistered).symm
  -- nothing that was started is still to be registered
  have hstarted : (s.registered : Multiset Nat) = Multiset.range s.started := by
    rw [hsound.started, hloose, Multiset.map_zero, Multiset.zero_add]
  have hnodup : s.registered.Nodup := by
    rw [← Multiset.coe_nodup, hstarted]
    exact Multiset.nodup_range s.started
  refine ⟨?_, hperm, hpending, ?_, ?_, ?_⟩
  · intro i hi
    rw [hperm.count_eq]
    exact List.count_eq_one_of_mem hnodup hi
  · intro i hi
    refine ⟨?_, ?_⟩
    · rw [← Multiset.mem_coe, hstarted]
      exact Multiset.mem_range.2 hi
    · rw [Option.isSome_iff_ne_none]
      exact fun hexit => hsound.not_running hloose hpending hbatch i ⟨hi, hexit⟩
  · exact (hsound.counted_of hreturned).trans (hperm.countP_eq _)
  · intro e fuel m n k hjoin
    obtain ⟨oks, hcollects, hk⟩ := Machine.collects_of_join fuel hjoin
    obtain ⟨t, ht, hjoiner, hall, hexit⟩ := exists_returned oks
    have hk : k = oks.count false := hk.trans (Nat.zero_add _)
    exact ⟨oks, hcollects, hcollects.length_eq, t, ht, hjoiner.trans (congrArg Joiner.returned hk.symm), hall, hexit⟩

/-- A thread is joined while it starts another, which starts a third that panics before it is registered. -/
def nested : Joining :=
  let s := (new.start none).register none 0
  let s := Joining.take { s with joiner := .joining [] 0 } 0
  let s := ((s.start (some 0)).register (some 0) 1).finish 0 (.returned true)
  let s := s.collect 0 [] 0 (.returned true)
  let s := ((s.start (some 1)).finish 2 .panicked).register (some 1) 2
  let s := (s.finish 1 (.returned false)).take 0
  let s := (s.collect 1 [2] 0 (.returned false)).collect 2 [] 1 .panicked
  { s with joiner := .returned 2 }

theorem nested_reachable : nested.Reachable := by
  have h₁ := Relation.ReflTransGen.single (Step.start (s := new) none rfl)
  have h₂ := h₁.tail (.register none 0 rfl (by decide))
  have h₃ := h₂.tail (.join rfl fun i => by simp [start, register, new])
  have h₄ := h₃.tail (.take 0 rfl (by decide))
  have h₅ := h₄.tail (.start (some 0) ⟨by decide, rfl⟩)
  have h₆ := h₅.tail (.register (some 0) 1 ⟨by decide, rfl⟩ (by decide))
  have h₇ := h₆.tail (.finish 0 (.returned true) ⟨by decide, rfl⟩ fun i => by simp [start, register, take, new])
  have h₈ := h₇.tail (.collect 0 [] 0 (.returned true) rfl rfl)
  have h₉ := h₈.tail (.start (some 1) ⟨by decide, rfl⟩)
  have h₁₀ := h₉.tail (.finish 2 .panicked ⟨by decide, rfl⟩ fun i => by
    simp [start, register, take, finish, collect, new])
  have h₁₁ := h₁₀.tail (.register (some 1) 2 ⟨by decide, rfl⟩ (by decide))
  have h₁₂ := h₁₁.tail (.finish 1 (.returned false) ⟨by decide, rfl⟩ fun i => by
    simp [start, register, take, finish, collect, new])
  have h₁₃ := h₁₂.tail (.take 0 rfl (by decide))
  have h₁₄ := h₁₃.tail (.collect 1 [2] 0 (.returned false) rfl rfl)
  have h₁₅ := h₁₄.tail (.collect 2 [] 1 .panicked rfl rfl)
  exact h₁₅.tail (.leave 2 rfl rfl)

/-- There all three threads are joined once, two of them as failures. -/
theorem no_work_lost_nested :
    nested.Reachable ∧ nested.joiner = .returned 2 ∧ nested.registered = [2, 1, 0] ∧
    (∀ i ∈ nested.registered, nested.joined.count i = 1) ∧ 2 = nested.registered.countP nested.failedAt := by
  obtain ⟨honce, -, -, -, hfailed, -⟩ := @no_work_lost nested Unit nested_reachable 2 rfl
  exact ⟨nested_reachable, rfl, rfl, honce, hfailed⟩

end Joining
end Sequencer
