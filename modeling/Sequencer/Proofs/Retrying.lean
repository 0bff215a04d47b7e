import Mathlib.Data.ENat.Lattice
import Mathlib.Data.Set.Card
import Sequencer.Proofs.Snapshots

/-!
# Repeated attempts

A command is prepared once. How often it is tried then depends on its budget: every failure costs a pause, and an
attempt is made as long as nothing is overdrawn. The budget is a word of 64 bits that is counted down by
subtraction, with a look ahead before each wait. Here the number of attempts is computed at once, by a division of
whole numbers, and a run is compared with it.
-/

namespace Sequencer

open Machine

variable {σ : Type}

/-! ## The budget in whole numbers

Pauses and totals are words of 64 bits. Neither of them is negative where it matters, and the difference does not
underflow. -/

/-- How many attempts a total allows where each but the first costs a pause. -/
def budget (pause total : Int) : Nat :=
  if total < 0 then 0 else if pause ≤ 0 then 1 else (total / pause).toNat + 1

namespace Timing

/-- How many attempts a timing allows. -/
def budget (t : Timing) : Nat := Sequencer.budget t.pause.toInt t.total.toInt

end Timing

theorem budget_of_neg {pause total : Int} (h : total < 0) : budget pause total = 0 := if_pos h

theorem budget_pos {pause total : Int} (h : 0 ≤ total) : 0 < budget pause total := by
  unfold budget
  rw [if_neg (not_lt.2 h)]
  split_ifs <;> exact Nat.succ_pos _

/-- Without another pause in the total there is one attempt. -/
theorem budget_last {pause total : Int} (h : 0 ≤ total) (hlast : pause ≤ 0 ∨ total - pause < 0) :
    budget pause total = 1 := by
  unfold budget
  rw [if_neg (not_lt.2 h)]
  split_ifs with hpause
  · rfl
  · have hdiv : total / pause = 0 := Int.ediv_eq_zero_of_lt h (by omega)
    rw [hdiv]
    rfl

/-- A pause buys one attempt. -/
theorem budget_succ {pause total : Int} (hpause : 0 < pause) (h : 0 ≤ total - pause) :
    budget pause total = budget pause (total - pause) + 1 := by
  have hdiv : (total - pause) / pause = total / pause - 1 := by
    rw [Int.sub_ediv_of_dvd _ (dvd_refl pause), Int.ediv_self hpause.ne']
  have hnonneg : 0 ≤ (total - pause) / pause := Int.ediv_nonneg h hpause.le
  unfold budget
  rw [if_neg (by omega), if_neg (by omega), if_neg (by omega), if_neg (by omega)]
  omega

/-- Words are compared as the numbers that they stand for. -/
theorem toInt_nonneg {total : Int64} (h : ¬total < 0) : 0 ≤ total.toInt :=
  not_lt.1 fun hlt => h (Int64.lt_iff_toInt_lt.2 hlt)

/-- What is left after a pause is a word again. -/
theorem toInt_sub_pause {pause total : Int64} (hpause : 0 < pause) (htotal : ¬total < 0) :
    (total - pause).toInt = total.toInt - pause.toInt := by
  rw [Int64.lt_iff_toInt_lt] at hpause htotal
  have hzero : (0 : Int64).toInt = 0 := rfl
  have hlt := Int64.toInt_lt total
  have hlt' := Int64.toInt_lt pause
  rw [Int64.toInt_sub]
  apply Int.bmod_eq_of_le <;> omega

/-- A failed attempt is the last one if the request is aborted or the budget allows no other. -/
theorem budget_of_last {m : Machine σ} {pause total : Int64} (htotal : ¬total < 0)
    (hl : m.lastAttempt pause total = true) : m.aborted = true ∨ budget pause.toInt total.toInt = 1 := by
  simp only [lastAttempt, Bool.or_eq_true, decide_eq_true_eq] at hl
  have hnonneg := toInt_nonneg htotal
  rcases hl with (hpause | hover) | ha
  · exact .inr (budget_last hnonneg (.inl (Int64.le_iff_toInt_le.1 hpause)))
  · by_cases hpause : pause ≤ 0
    · exact .inr (budget_last hnonneg (.inl (Int64.le_iff_toInt_le.1 hpause)))
    · rw [Int64.lt_iff_toInt_lt, toInt_sub_pause (Int64.not_le.1 hpause) htotal] at hover
      exact .inr (budget_last hnonneg (.inr hover))
  · exact .inl ha

/-- There is another attempt if there is a pause, the budget lasts for it, and nobody has aborted the request. -/
theorem lastAttempt_eq_false {m : Machine σ} {pause total : Int64} :
    m.lastAttempt pause total = false ↔ 0 < pause ∧ ¬total - pause < 0 ∧ m.aborted = false := by
  simp only [lastAttempt, Bool.or_eq_false_iff, decide_eq_false_iff_not, Int64.not_le, and_assoc]

/-- Otherwise what is left allows one attempt less. -/
theorem budget_of_more {pause total : Int64} (hpause : 0 < pause) (htotal : ¬total < 0) (hmore : ¬total - pause < 0) :
    budget pause.toInt total.toInt = budget pause.toInt (total - pause).toInt + 1 := by
  rw [Int64.lt_iff_toInt_lt, toInt_sub_pause hpause htotal] at hmore
  rw [toInt_sub_pause hpause htotal]
  exact budget_succ (Int64.lt_iff_toInt_lt.1 hpause) (not_lt.1 hmore)

/-! ## Outcomes of attempts

The outcomes of the attempts are data, so that the number of attempts can be said before they are made. -/

/-- What comes out of each attempt: the machine that it leaves, and whether it succeeds. -/
abbrev Outcomes (σ : Type) := Nat → Machine σ × Bool

namespace Outcomes

/-- All attempts before this one fail and do not abort the request. -/
def Due (r : Outcomes σ) (j : Nat) : Prop := ∀ i < j, (r i).2 = false ∧ (r i).1.aborted = false

/-- The position of the first success, counted from one. It is infinite if there is none. -/
noncomputable def firstSuccess (r : Outcomes σ) : ℕ∞ := ⨅ (j : ℕ) (_ : (r j).2 = true), (j + 1 : ℕ∞)

/-- The machine that an attempt begins with: the first one with `m`, any other after a wait. -/
def trial (r : Outcomes σ) (m : Machine σ) (key : String) (pause : Int64) : Nat → Machine σ
  | 0 => m.note (.attempted m.thread.id key)
  | j + 1 => ((r j).1.wait pause).note (.attempted (r j).1.thread.id key)

/-- The outcomes are those of the attempts that are due, up to some number of them. -/
def Holds (r : Outcomes σ) (e : Engine σ) (m : Machine σ) (invocation : Invocation σ) (key : String) (pause : Int64)
    (allowed : Nat) : Prop :=
  ∀ j < allowed, r.Due j → ∃ fuel, perform e fuel (r.trial m key pause j) invocation = some (r j)

/-- What comes out of all attempts if some number of them is made: the outcome of the last. -/
def final (r : Outcomes σ) (m : Machine σ) : Nat → Machine σ × Bool
  | 0 => (m, false)
  | j + 1 => r j

/-- The outcomes without the first. -/
def later (r : Outcomes σ) : Outcomes σ := fun j => r (j + 1)

/-- How many attempts are made where some number of them is allowed. -/
def made (r : Outcomes σ) : Nat → Nat
  | 0 => 0
  | n + 1 => if (r 0).2 || (r 0).1.aborted then 1 else r.later.made n + 1

variable {r : Outcomes σ}

theorem due_zero : r.Due 0 := nofun

theorem due_succ {j : Nat} : r.Due (j + 1) ↔ ((r 0).2 = false ∧ (r 0).1.aborted = false) ∧ r.later.Due j := by
  constructor
  · exact fun h => ⟨h 0 (Nat.succ_pos j), fun i hi => h (i + 1) (Nat.succ_lt_succ hi)⟩
  · rintro ⟨h, hlater⟩ (_ | i) hi
    · exact h
    · exact hlater i (Nat.lt_of_succ_lt_succ hi)

theorem trial_later (m : Machine σ) (key : String) (pause : Int64) (j : Nat) :
    r.later.trial ((r 0).1.wait pause) key pause j = r.trial m key pause (j + 1) := by
  cases j <;> rfl

/-- After a failure the other outcomes are those of the attempts that are left. -/
theorem Holds.later {e : Engine σ} {m : Machine σ} {invocation : Invocation σ} {key : String} {pause : Int64} {n : Nat}
    (h : r.Holds e m invocation key pause (n + 1)) (hok : (r 0).2 = false) (ha : (r 0).1.aborted = false) :
    r.later.Holds e ((r 0).1.wait pause) invocation key pause n := by
  intro j hj hdue
  rw [trial_later m]
  exact h (j + 1) (Nat.succ_lt_succ hj) (due_succ.2 ⟨⟨hok, ha⟩, hdue⟩)

theorem final_later {n : Nat} (m m' : Machine σ) (hn : 0 < n) :
    r.later.final m' n = r.final m (n + 1) := by
  cases n with
  | zero => cases hn
  | succ n => rfl

theorem made_stops {n : Nat} (h : (r 0).2 = true ∨ (r 0).1.aborted = true ∨ n = 0) : r.made (n + 1) = 1 := by
  unfold made
  split_ifs with hstop
  · rfl
  · rcases h with hok | ha | rfl
    · simp [hok] at hstop
    · simp [ha] at hstop
    · rfl

/-- Behind a failure the rest of the attempts is made with the later outcomes. -/
theorem made_goes {n : Nat} (hok : (r 0).2 = false) (ha : (r 0).1.aborted = false) :
    r.made (n + 1) = r.later.made n + 1 := by
  unfold made
  rw [if_neg (by simp [hok, ha])]
  cases n <;> rfl

/-- An attempt is made if it is allowed and due. -/
theorem lt_made_iff {n j : Nat} : j < r.made n ↔ j < n ∧ r.Due j := by
  induction n generalizing r j with
  | zero => simp [made]
  | succ n ih =>
    cases j with
    | zero =>
      refine ⟨fun _ => ⟨Nat.succ_pos n, due_zero⟩, fun _ => ?_⟩
      unfold made
      split_ifs <;> exact Nat.succ_pos _
    | succ j =>
      rw [due_succ]
      -- A later attempt is made if the first one has failed without an abort, and it is one of the later ones.
      by_cases hgo : (r 0).2 = false ∧ (r 0).1.aborted = false
      · rw [made_goes hgo.1 hgo.2, Nat.succ_lt_succ_iff, Nat.succ_lt_succ_iff, ih, and_iff_right hgo]
      · have hstop : (r 0).2 = true ∨ (r 0).1.aborted = true ∨ n = 0 := by
          rw [not_and_or, Bool.not_eq_false, Bool.not_eq_false] at hgo
          exact hgo.imp_right .inl
        rw [made_stops hstop]
        exact ⟨fun h => absurd h (by omega), fun h => absurd h.2.1 hgo⟩

/-- An attempt that succeeds is not before the first success. -/
theorem firstSuccess_le {j : Nat} (h : (r j).2 = true) : r.firstSuccess ≤ ((j + 1 : ℕ) : ℕ∞) := iInf₂_le j h

theorem le_firstSuccess_iff {j : Nat} : ((j + 1 : ℕ) : ℕ∞) ≤ r.firstSuccess ↔ ∀ i < j, (r i).2 = false := by
  unfold firstSuccess
  rw [le_iInf₂_iff]
  refine forall_congr' fun i => ?_
  have hle : ((j + 1 : ℕ) : ℕ∞) ≤ (i : ℕ∞) + 1 ↔ j ≤ i := by
    norm_cast
    exact Nat.succ_le_succ_iff
  rw [hle, ← Bool.not_eq_true, imp_not_comm, not_lt]

/-- Where nothing aborts the request, only a success keeps an attempt from being due. -/
theorem due_iff {n j : Nat} (hcalm : ∀ i < n, r.Due i → (r i).1.aborted = false) (hj : j ≤ n) :
    r.Due j ↔ ∀ i < j, (r i).2 = false := by
  refine ⟨fun h i hi => (h i hi).1, fun h => ?_⟩
  induction j with
  | zero => exact due_zero
  | succ j ih =>
    have hdue := ih (Nat.le_of_succ_le hj) fun i hi => h i (Nat.lt_succ_of_lt hi)
    intro i hi
    rcases Nat.lt_succ_iff_lt_or_eq.1 hi with hi | rfl
    · exact hdue i hi
    · exact ⟨h i (Nat.lt_succ_self i), hcalm i hj hdue⟩

/-- Attempts are made until the first success, or until no other is allowed. -/
theorem made_eq {n : Nat} (hcalm : ∀ j < n, r.Due j → (r j).1.aborted = false) :
    (r.made n : ℕ∞) = min (n : ℕ∞) r.firstSuccess := by
  refine ENat.eq_of_forall_natCast_le_iff fun k => ?_
  cases k with
  | zero => simp
  | succ j =>
    rw [le_min_iff, le_firstSuccess_iff, Nat.cast_le, Nat.cast_le, Nat.succ_le_iff, lt_made_iff]
    exact and_congr_right fun hj => due_iff hcalm hj.le

/-- The last attempt succeeds if there is a success among those that are allowed. -/
theorem final_iff {n : Nat} (m : Machine σ) (hcalm : ∀ j < n, r.Due j → (r j).1.aborted = false) :
    (r.final m (r.made n)).2 = true ↔ r.firstSuccess ≤ n := by
  have hlater : r.firstSuccess ≤ n ↔ ∃ j < n, (r j).2 = true := by
    rw [← not_lt, ← ENat.add_one_le_iff (ENat.natCast_ne_top n)]
    have hcast : (n : ℕ∞) + 1 = ((n + 1 : ℕ) : ℕ∞) := rfl
    rw [hcast, le_firstSuccess_iff]
    simp
  rw [hlater]
  cases hmade : r.made n with
  | zero =>
    have hzero : n = 0 := by
      by_contra hn
      exact absurd (lt_made_iff.2 ⟨Nat.pos_of_ne_zero hn, due_zero⟩ : 0 < r.made n) (by omega)
    simp [final, hzero]
  | succ k =>
    obtain ⟨hk, hdue⟩ := lt_made_iff.1 (hmade ▸ Nat.lt_succ_self k : k < r.made n)
    refine ⟨fun h => ⟨k, hk, h⟩, ?_⟩
    rintro ⟨j, hj, hok⟩
    by_contra hfail
    -- otherwise another attempt is due after the last one
    have hnext : r.Due (k + 1) := by
      intro i hi
      rcases Nat.lt_succ_iff_lt_or_eq.1 hi with hi | rfl
      · exact hdue i hi
      · exact ⟨Bool.eq_false_iff.2 hfail, hcalm i hk hdue⟩
    have hle : k + 1 ≤ j := by
      by_contra hlt
      rw [(hnext j (not_le.1 hlt)).1] at hok
      cases hok
    exact absurd (lt_made_iff.2 ⟨by omega, hnext⟩ : k + 1 < r.made n) (by omega)

end Outcomes

/-! ## Attempts in a run

In a run each attempt is found as a snapshot, and so are the pauses between them. -/

namespace Snapshot

/-- The command that a run has begun with is about to be prepared. -/
def Prepares (s : Snapshot σ) : Prop := ∃ c i key, s.task = .dispatch c i key ∧ s.callers = []

/-- The command that a run has begun with is about to be tried. -/
def Tries (s : Snapshot σ) : Prop := ∃ invocation caller, s.task = .perform invocation ∧ s.callers = [caller]

variable {e : Engine σ}

/-- All times at which the command is tried. -/
def tries (e : Engine σ) (s : Snapshot σ) : Set (Snapshot σ) := {t | Reaches e s t ∧ t.Tries}

/-- What is prepared or tried in the middle of a run has somebody that waits for it. -/
theorem Step.waited {s t : Snapshot σ} (h : Step e s t) :
    (∀ invocation, t.task = .perform invocation → t.callers ≠ []) ∧
      ∀ c i key, t.task = .dispatch c i key → t.callers ≠ [] := by
  cases h with
  | begin hb outer => cases hb <;> simp
  | resume hr outer => cases hr <;> simp

theorem Reaches.of_perform {s : Snapshot σ} {m : Machine σ} {invocation : Invocation σ}
    (h : Reaches e s ⟨m, .perform invocation, []⟩) : s = ⟨m, .perform invocation, []⟩ := by
  rcases Relation.ReflTransGen.cases_tail h with heq | ⟨t, -, hstep⟩
  · exact heq.symm
  · exact absurd rfl (hstep.waited.1 invocation rfl)

theorem Reaches.of_dispatch {s : Snapshot σ} {m : Machine σ} {c : Command σ} {i : Instruction} {key : String}
    (h : Reaches e s ⟨m, .dispatch c i key, []⟩) : s = ⟨m, .dispatch c i key, []⟩ := by
  rcases Relation.ReflTransGen.cases_tail h with heq | ⟨t, -, hstep⟩
  · exact heq.symm
  · exact absurd rfl (hstep.waited.2 c i key rfl)

/-- A step that is not an attempt leaves all attempts to come. -/
theorem Step.tries {s t : Snapshot σ} (h : Step e s t) (hs : ¬s.Tries) : tries e s = tries e t := by
  ext u
  refine ⟨fun ⟨hu, htries⟩ => ⟨?_, htries⟩, fun ⟨hu, htries⟩ => ⟨Relation.ReflTransGen.head h hu, htries⟩⟩
  rcases Relation.ReflTransGen.cases_head hu with rfl | ⟨v, hstep, hrest⟩
  · exact absurd htries hs
  · rwa [h.unique hstep]

/-- Nothing is tried once all is done. -/
theorem tries_done (m : Machine σ) (ok : Bool) : tries e ⟨m, .done ok, []⟩ = ∅ := by
  refine Set.eq_empty_iff_forall_notMem.2 fun t ⟨ht, invocation, caller, htask, _⟩ => ?_
  rw [ht.of_done] at htask
  cases htask

variable {m n : Machine σ} {invocation : Invocation σ} {key : String} {pause total : Int64} {ok : Bool}

/-- An attempt is made, and what is tried later is tried after its end. -/
theorem tries_perform (run : Performs e m invocation n ok) (caller : Caller σ) :
    tries e ⟨m, .perform invocation, [caller]⟩ =
      insert ⟨m, .perform invocation, [caller]⟩ (tries e ⟨n, .done ok, [caller]⟩) := by
  have hend := run.reaches []
  ext t
  constructor
  · rintro ⟨ht, invocation', caller', htask, hcallers⟩
    rcases ht.inside with ⟨inner, hinner, hrun⟩ | ⟨o, ok', hrun, hrest⟩
    · obtain ⟨rfl, rfl⟩ : inner = [] ∧ caller' = caller := by
        rw [hcallers] at hinner
        cases inner with
        | nil => exact ⟨rfl, (List.singleton_inj.1 hinner)⟩
        | cons first inner => simp at hinner
      rw [htask] at hrun
      cases hrun.of_perform
      obtain ⟨o, task, callers⟩ := t
      obtain rfl : task = .perform invocation := htask
      obtain rfl : callers = [caller'] := hcallers
      exact Set.mem_insert _ _
    · -- there is one end of the attempt
      cases (hend.to_done hrun).of_done
      exact .inr ⟨hrest, invocation', caller', htask, hcallers⟩
  · rintro (rfl | ⟨ht, htries⟩)
    · exact ⟨.refl _, invocation, caller, rfl, rfl⟩
    · exact ⟨(run.reaches [caller]).trans ht, htries⟩

/-- The snapshot of an attempt, with what is left of its budget. -/
def attempt (m : Machine σ) (invocation : Invocation σ) (key : String) (pause total : Int64) : Snapshot σ :=
  ⟨m.note (.attempted m.thread.id key), .perform invocation, [.attempts invocation key pause total]⟩

theorem left_of_attempt {left : Int64}
    (h : attempt m invocation key pause total = attempt n invocation key pause left) : total = left := by
  have hcallers := congrArg Snapshot.callers h
  simpa [attempt] using hcallers

/-- Nothing is tried without a budget. -/
theorem tries_spent (htotal : total < 0) : tries e ⟨m, .attempts invocation key pause total, []⟩ = ∅ :=
  (Step.tries (.begin (.spent htotal) []) (by simp [Tries])).trans (tries_done m false)

/-- Within the budget an attempt is made. -/
theorem tries_attempts (htotal : ¬total < 0)
    (run : Performs e (m.note (.attempted m.thread.id key)) invocation n ok) :
    tries e ⟨m, .attempts invocation key pause total, []⟩ = insert (attempt m invocation key pause total)
      (tries e ⟨n, .done ok, [.attempts invocation key pause total]⟩) :=
  (Step.tries (.begin (.tried htotal) []) (by simp [Tries])).trans (tries_perform run _)

/-- Nothing is tried after the last attempt. -/
theorem tries_last (hlast : ok = true ∨ n.lastAttempt pause total = true) :
    tries e ⟨n, .done ok, [.attempts invocation key pause total]⟩ = ∅ := by
  have hresumes : (Caller.attempts invocation key pause total).Resumes n ok n (.done ok) [] := by
    cases ok with
    | true => exact .succeeded
    | false => exact .gaveUp (hlast.resolve_left nofun)
  exact (Step.tries (.resume hresumes []) (by simp [Tries])).trans (tries_done n ok)

/-- After another failure there is a wait. -/
theorem tries_retried (hl : n.lastAttempt pause total = false) :
    tries e ⟨n, .done false, [.attempts invocation key pause total]⟩ =
      tries e ⟨n.wait pause, .attempts invocation key pause (total - pause), []⟩ :=
  Step.tries (.resume (.retried hl) []) (by simp [Tries])

/-- An attempt of a prepared command, with what is left of a budget. -/
def Within (invocation : Invocation σ) (key : String) (pause total : Int64) (t : Snapshot σ) : Prop :=
  ∃ m left, t = attempt m invocation key pause left ∧ left.toInt ≤ total.toInt

/-- How often a prepared command is tried, and what comes out. -/
theorem attempts_made {k : Nat} {r : Outcomes σ} (hk : budget pause.toInt total.toInt = k)
    (hr : r.Holds e m invocation key pause k) :
    Attempts e m invocation key pause total (r.final m (r.made k)).1 (r.final m (r.made k)).2 ∧
      (tries e ⟨m, .attempts invocation key pause total, []⟩).encard = r.made k ∧
      ∀ t ∈ tries e ⟨m, .attempts invocation key pause total, []⟩, t.Within invocation key pause total := by
  by_cases htotal : total < 0
  · obtain rfl : k = 0 := by rw [← hk, budget_of_neg (Int64.lt_iff_toInt_lt.1 htotal)]
    rw [tries_spent htotal]
    exact ⟨.spent htotal, Set.encard_empty, fun t ht => absurd ht (Set.notMem_empty t)⟩
  induction k generalizing m r total with
  | zero => exact absurd hk (budget_pos (toInt_nonneg htotal)).ne'
  | succ k ih =>
    obtain ⟨fuel, hrun⟩ := hr 0 (Nat.succ_pos k) Outcomes.due_zero
    have run : Performs e (m.note (.attempted m.thread.id key)) invocation (r 0).1 (r 0).2 :=
      performs_of_perform fuel hrun
    rw [tries_attempts htotal run]
    have hfirst : (attempt m invocation key pause total).Within invocation key pause total := ⟨m, total, rfl, le_rfl⟩
    -- the first attempt is the last one, or it is followed by those that the rest of the time allows
    by_cases hlast : (r 0).2 = true ∨ (r 0).1.lastAttempt pause total = true
    · have hmade : r.made (k + 1) = 1 := by
        refine Outcomes.made_stops (hlast.imp_right fun hl => ?_)
        exact (budget_of_last htotal hl).imp_right fun hone => Nat.succ.inj (hk.symm.trans hone)
      rw [hmade, tries_last hlast, insert_empty_eq]
      refine ⟨?_, Set.encard_singleton _, fun t ht => by rwa [Set.mem_singleton_iff.1 ht]⟩
      show Attempts e m invocation key pause total (r 0).1 (r 0).2
      cases hok : (r 0).2 with
      | true => exact .succeeded htotal (hok ▸ run)
      | false => exact .gaveUp htotal (hok ▸ run) (hlast.resolve_left (by simp [hok]))
    · rw [not_or, Bool.not_eq_true, Bool.not_eq_true] at hlast
      obtain ⟨hok, hl⟩ := hlast
      obtain ⟨hpause, hmore, ha⟩ := lastAttempt_eq_false.1 hl
      have hk' : budget pause.toInt (total - pause).toInt = k :=
        Nat.succ.inj ((budget_of_more hpause htotal hmore).symm.trans hk)
      rw [Outcomes.made_goes hok ha, hok, tries_retried hl]
      rw [hok] at run
      obtain ⟨hrest, hcount, hwithin⟩ := ih hk' (hr.later hok ha) hmore
      have hpos : 0 < r.later.made k :=
        Outcomes.lt_made_iff.2 ⟨hk' ▸ budget_pos (toInt_nonneg hmore), Outcomes.due_zero⟩
      have hless : (total - pause).toInt < total.toInt := by
        rw [toInt_sub_pause hpause htotal]
        exact sub_lt_self _ (Int64.lt_iff_toInt_lt.1 hpause)
      rw [Outcomes.final_later m _ hpos] at hrest
      refine ⟨.retried htotal run hl hrest, ?_, ?_⟩
      · rw [Set.encard_insert_of_notMem, hcount]
        · rfl
        · -- all later attempts have less time left than the first
          intro hmem
          obtain ⟨o, left, heq, hleft⟩ := hwithin _ hmem
          obtain rfl := left_of_attempt heq
          exact absurd hless (not_lt.2 hleft)
      · rintro t (rfl | ht)
        · exact hfirst
        · obtain ⟨o, left, heq, hleft⟩ := hwithin t ht
          exact ⟨o, left, heq, hleft.trans hless.le⟩

/-! ## The law of repetition

As many attempts as the first success allows, or as the budget does. -/

/-- No budget that is at work is overdrawn. -/
def Solvent (s : Snapshot σ) : Prop :=
  ∀ invocation key pause total, Caller.attempts invocation key pause total ∈ s.callers → ¬total < 0

/-- A budget is charged only for a wait that it can pay. -/
theorem Step.solvent {s t : Snapshot σ} (h : Step e s t) (hs : s.Solvent) : t.Solvent := by
  intro invocation key pause total hmem
  cases h with
  | begin hb outer =>
    rcases List.mem_append.1 hmem with hnew | hmem
    · cases hb with
      | tried htotal =>
        cases List.mem_singleton.1 hnew
        exact htotal
      | _ => simp at hnew
    · exact hs _ _ _ _ hmem
  | resume hr outer =>
    rcases List.mem_append.1 hmem with hnew | hmem
    · cases hr <;> simp at hnew
    · exact hs _ _ _ _ (List.mem_cons_of_mem _ hmem)

theorem Reaches.solvent {s t : Snapshot σ} (h : Reaches e s t) (hs : s.Solvent) : t.Solvent := by
  induction h with
  | refl => exact hs
  | tail _ hstep ih => exact hstep.solvent ih

/-- A command before it is prepared. -/
def dispatched (m : Machine σ) (c : Command σ) (i : Instruction) (key : String) : Snapshot σ :=
  ⟨m, .dispatch c i key, []⟩

end Snapshot

open Snapshot

/-- A command is prepared once, and its budget is never counted down below the range of a word. If it cannot be
prepared, it fails untried. Otherwise it is tried as often as its timing allows or up to its first success, and
succeeds in the second case; there is no wait after the last attempt. A failure that aborts the request is the last
attempt. -/
theorem dispatch_retries (e : Engine σ) (m : Machine σ) (c : Command σ) (i : Instruction) (key : String) :
    {t | Reaches e (dispatched m c i key) t ∧ t.Prepares} = {dispatched m c i key} ∧
    (∀ t, Reaches e (dispatched m c i key) t → ∀ invocation key pause total,
      .attempts invocation key pause total ∈ t.callers → 0 < pause →
        (total - pause).toInt = total.toInt - pause.toInt) ∧
    (∀ o err, m.prepare e c i key = (o, .error err) →
      tries e (dispatched m c i key) = ∅ ∧ Enough (dispatch e · m c i key) (o, false)) ∧
    ∀ o invocation (r : Outcomes σ), m.prepare e c i key = (o, .ok invocation) →
      r.Holds e o invocation key i.timing.pause i.timing.budget →
      (∀ t ∈ tries e (dispatched m c i key), t.task = .perform invocation) ∧
      ((∀ j < i.timing.budget, r.Due j → (r j).1.aborted = false) →
        (tries e (dispatched m c i key)).encard = min (i.timing.budget : ℕ∞) r.firstSuccess ∧
        ∃ count : ℕ, (count : ℕ∞) = min (i.timing.budget : ℕ∞) r.firstSuccess ∧
        ∃ ok, Enough (dispatch e · m c i key) ((r.final o count).1, ok) ∧
          (ok = true ↔ r.firstSuccess ≤ i.timing.budget)) ∧
      ∀ j < i.timing.budget, r.Due j → (r j).2 = false → (r j).1.aborted = true →
        (tries e (dispatched m c i key)).encard = ((j + 1 : ℕ) : ℕ∞) ∧
        Enough (dispatch e · m c i key) ((r j).1, false) := by
  -- No step of a run prepares a command again, so only the first state does.
  refine ⟨?_, fun t ht invocation key pause total hmem hpause => ?_, fun o err hp => ?_, fun o invocation r hp hr => ?_⟩
  · ext t
    refine ⟨fun ⟨ht, c', i', key', htask, hcallers⟩ => ?_, ?_⟩
    · obtain ⟨o, task, callers⟩ := t
      obtain rfl : task = .dispatch c' i' key' := htask
      obtain rfl : callers = [] := hcallers
      exact ht.of_dispatch.symm
    · rintro rfl
      exact ⟨.refl _, c, i, key, rfl, rfl⟩
  · exact toInt_sub_pause hpause (ht.solvent (by simp [Solvent, dispatched]) _ _ _ _ hmem)
  · -- Without a preparation there is nothing to try.
    have hnone : tries e (dispatched m c i key) = ∅ :=
      (Step.tries (.begin (.unprepared hp) []) (by simp [Tries])).trans (tries_done o false)
    exact ⟨hnone, (Dispatches.unprepared hp).settles⟩
  · -- The tries begin behind the preparation, with the whole budget, and `attempts_made` counts them.
    have htries : tries e (dispatched m c i key) =
        tries e ⟨o, .attempts invocation key i.timing.pause i.timing.total, []⟩ :=
      Step.tries (.begin (.prepared hp) []) (by simp [Tries, dispatched])
    obtain ⟨run, hcount, hwithin⟩ := attempts_made (k := i.timing.budget) rfl hr
    have hends := (Dispatches.prepared hp run).settles
    rw [htries, hcount]
    refine ⟨fun t ht => ?_, fun hcalm => ?_, fun j hj hdue hfail ha => ?_⟩
    · obtain ⟨o', left, rfl, -⟩ := hwithin t ht
      rfl
    · have hmade := Outcomes.made_eq hcalm
      exact ⟨hmade, _, hmade, _, hends, Outcomes.final_iff o hcalm⟩
    · -- The attempt that aborts the request is made, and none behind it.
      have hmade : r.made i.timing.budget = j + 1 := by
        refine le_antisymm (not_lt.1 fun hlt => ?_) (Outcomes.lt_made_iff.2 ⟨hj, hdue⟩)
        have hcalm := ((Outcomes.lt_made_iff.1 hlt).2 j (Nat.lt_succ_self j)).2
        exact Bool.noConfusion (hcalm.symm.trans ha)
      rw [hmade] at hends
      exact ⟨congrArg _ hmade, hfail ▸ hends⟩

/-- The outcomes of a command of the host program. -/
def Outcomes.ofHost (run : Machine σ → Effect σ) (m : Machine σ) (key : String) (pause : Int64) : Outcomes σ
  | 0 => (m.note (.attempted m.thread.id key)).performHost run
  | j + 1 =>
    let n := (ofHost run m key pause j).1
    ((n.wait pause).note (.attempted n.thread.id key)).performHost run

theorem Outcomes.holds_ofHost (e : Engine σ) (run : Machine σ → Effect σ) (m : Machine σ) (key : String)
    (pause : Int64) (allowed : Nat) : (ofHost run m key pause).Holds e m (.host run) key pause allowed :=
  fun j _ _ => ⟨1, by cases j <;> rfl⟩

/-- A command that counts its attempts and succeeds at the third. -/
def thirdTime : Command Nat := .host ⟨false, fun _ _ => .ok fun m => .simple (m.world.host + 1) (2 ≤ m.world.host)⟩

/-- A machine on which it is tried. -/
def fresh : Machine Nat := (World.new (Store.ofProperties []) (Request.new [] none) 0).enter

/-- Three attempts are allowed, and three are needed. -/
theorem dispatch_retries_thirdTime :
    let e : Engine Nat := ⟨[("try", thirdTime)], fun _ => .error .notFound⟩
    let i : Instruction := ⟨true, false, ⟨0, 2, 5⟩, "try", ""⟩
    (tries e (dispatched fresh thirdTime i "RUN_1")).encard = 3 ∧
      ∃ n, n.world.host = 3 ∧ Enough (dispatch e · fresh thirdTime i "RUN_1") (n, true) := by
  intro e i
  let run : Machine Nat → Effect Nat := fun m => .simple (m.world.host + 1) (2 ≤ m.world.host)
  let o : Machine Nat := fresh.note (.prepared 0 "RUN_1")
  let r : Outcomes Nat := .ofHost run o "RUN_1" 2
  have hp : fresh.prepare e thirdTime i "RUN_1" = (o, .ok (.host run)) := rfl
  have hr : r.Holds e o (.host run) "RUN_1" 2 i.timing.budget := Outcomes.holds_ofHost e run o "RUN_1" 2 _
  have hbudget : i.timing.budget = 3 := by decide
  have hcalm : ∀ j < i.timing.budget, r.Due j → (r j).1.aborted = false := by
    intro j hj _
    obtain rfl | rfl | rfl : j = 0 ∨ j = 1 ∨ j = 2 := by omega
    all_goals rfl
  have hfirst : r.firstSuccess = 3 := by
    apply le_antisymm
    · exact Outcomes.firstSuccess_le (j := 2) rfl
    · refine Outcomes.le_firstSuccess_iff.2 fun j hj => ?_
      obtain rfl | rfl : j = 0 ∨ j = 1 := by omega
      all_goals rfl
  obtain ⟨-, -, -, hlaw⟩ := dispatch_retries e fresh thirdTime i "RUN_1"
  obtain ⟨-, hsuccess, -⟩ := hlaw o (.host run) r hp hr
  obtain ⟨hcount, count, hmin, ok, hrun, hok⟩ := hsuccess hcalm
  rw [hbudget, hfirst] at hcount hmin hok
  obtain rfl : count = 3 := by exact_mod_cast hmin.trans (min_self _)
  obtain rfl : ok = true := hok.2 le_rfl
  exact ⟨hcount.trans (min_self _), _, rfl, hrun⟩

end Sequencer
