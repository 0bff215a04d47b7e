import Sequencer.Probe
import Sequencer.Proofs.Retrying

/-!
# The announced number of attempts

A timing announces how often its command may be tried: the quotient of its total and its pause, and one. A run does not
divide but counts its total down. The quotient of two words is a word, and so is the sum with one, but for a single
timing: the longest total there is, spent one unit at a time, pays for one attempt more than a word can tell. There the
sum runs over, and nothing is announced.
-/

namespace Sequencer

open Machine Snapshot

variable {σ : Type}

/-! ## The quotient in words

The quotient of two words of 64 bits is that of the numbers, since a pause is positive where it counts. One more than
the quotient is a word again unless the quotient is the largest one. -/

namespace Timing

/-- The longest total, spent one unit at a time. -/
def Longest (t : Timing) : Prop := t.pause = 1 ∧ t.total = Int64.maxValue

instance (t : Timing) : Decidable t.Longest := inferInstanceAs (Decidable (_ ∧ _))

variable {t : Timing}

theorem toInt_quotient (hpause : 0 < t.pause) (htotal : ¬t.total < 0) :
    (t.total / t.pause).toInt = t.total.toInt / t.pause.toInt := by
  have hne : t.pause ≠ -1 := by
    intro h
    rw [h] at hpause
    exact absurd hpause (by decide)
  rw [Int64.toInt_div_of_ne_right _ _ hne, Int.tdiv_eq_ediv_of_nonneg (toInt_nonneg htotal)]

/-- A quotient that is the greatest word is that of the longest total, one unit at a time: a longer pause halves the
total at least. -/
theorem quotient_eq_maxValue_iff (hpause : 0 < t.pause) (htotal : ¬t.total < 0) :
    t.total / t.pause = Int64.maxValue ↔ t.Longest := by
  have hmax : t.total.toInt < 2 ^ 63 := Int64.toInt_lt t.total
  have hpos : 1 ≤ t.pause.toInt := Int64.lt_iff_toInt_lt.1 hpause
  rw [← Int64.toInt_inj, toInt_quotient hpause htotal, Int64.toInt_maxValue]
  unfold Longest
  rw [← Int64.toInt_inj, ← Int64.toInt_inj, Int64.toInt_maxValue]
  constructor
  · intro hquotient
    rcases Int.lt_or_eq_of_le hpos with hlong | hone
    · -- With a pause of two or more the quotient is at most half of the greatest word.
      have hhalf : t.total.toInt / t.pause.toInt < 2 ^ 63 - 1 := by
        rw [Int.ediv_lt_iff_lt_mul (Int.zero_lt_one.trans_le hpos)]
        calc t.total.toInt < (2 ^ 63 - 1) * 2 := by omega
          _ ≤ (2 ^ 63 - 1) * t.pause.toInt := Int.mul_le_mul_of_nonneg_left hlong (by decide)
      exact absurd hquotient hhalf.ne
    · rw [← hone, Int.ediv_one] at hquotient
      exact ⟨hone.symm, hquotient⟩
  · rintro ⟨hone, hlongest⟩
    rw [hone, hlongest]
    rfl

/-- The announced number is the allowed one, where it is a word. -/
theorem maxAttempts_of_not_longest (h : ¬t.Longest) : ∃ n, t.maxAttempts = some n ∧ n.toInt = t.budget := by
  unfold maxAttempts budget
  by_cases htotal : t.total < 0
  · refine ⟨0, if_pos htotal, ?_⟩
    rw [budget_of_neg (Int64.lt_iff_toInt_lt.1 htotal)]
    rfl
  rw [if_neg htotal]
  by_cases hpause : t.pause ≤ 0
  · refine ⟨1, if_pos hpause, ?_⟩
    rw [budget_last (toInt_nonneg htotal) (.inl (Int64.le_iff_toInt_le.1 hpause))]
    rfl
  rw [if_neg hpause]
  have hless : 0 < t.pause := Int64.not_le.1 hpause
  -- There is room for one more, so that the sum is that of the whole numbers.
  have hroom : t.total / t.pause ≠ Int64.maxValue := mt (quotient_eq_maxValue_iff hless htotal).1 h
  refine ⟨_, if_neg hroom, ?_⟩
  have hpos : 0 < t.pause.toInt := Int64.lt_iff_toInt_lt.1 hless
  have hbudget : Sequencer.budget t.pause.toInt t.total.toInt = (t.total.toInt / t.pause.toInt).toNat + 1 := by
    unfold Sequencer.budget
    rw [if_neg (not_lt.2 (toInt_nonneg htotal)), if_neg (not_le.2 hpos)]
  have hnonneg : 0 ≤ t.total.toInt / t.pause.toInt := Int.ediv_nonneg (toInt_nonneg htotal) hpos.le
  have hlt : t.total.toInt / t.pause.toInt < 2 ^ 63 - 1 := by
    have hne : (t.total / t.pause).toInt ≠ Int64.maxValue.toInt := mt Int64.toInt_inj.1 hroom
    have hword : (t.total / t.pause).toInt < 2 ^ 63 := Int64.toInt_lt _
    rw [Int64.toInt_maxValue] at hne
    rw [toInt_quotient hless htotal] at hne hword
    omega
  have hone : (1 : Int64).toInt = 1 := rfl
  rw [hbudget, Int64.toInt_add, toInt_quotient hless htotal, hone, Nat.cast_succ, Int.toNat_of_nonneg hnonneg]
  apply Int.bmod_eq_of_le <;> omega

/-- The longest total pays for one attempt more than there are words for. -/
theorem maxAttempts_of_longest (h : t.Longest) : t.maxAttempts = Option.none ∧ t.budget = 2 ^ 63 := by
  unfold maxAttempts budget
  rw [h.1, h.2]
  decide +kernel

/-- For one timing only nothing is announced, and for all others the allowed number is. -/
theorem maxAttempts_eq_budget_iff : t.maxAttempts.map Int64.toInt = some (t.budget : Int) ↔ ¬t.Longest := by
  constructor
  · intro hannounced h
    rw [(maxAttempts_of_longest h).1] at hannounced
    cases hannounced
  · intro h
    obtain ⟨n, hn, hbudget⟩ := maxAttempts_of_not_longest h
    rw [hn, Option.map_some, hbudget]

end Timing

/-! ## Runs without success

A command that fails every time is tried as often as is announced, if anything is announced. The time that is left
shrinks by one pause for each attempt. -/

namespace Outcomes

variable {r : Outcomes σ}

/-- No attempt succeeds, and none aborts the request. -/
def Hopeless (r : Outcomes σ) (allowed : Nat) : Prop :=
  ∀ j < allowed, r.Due j → (r j).2 = false ∧ (r j).1.aborted = false

theorem Hopeless.due {allowed : Nat} (h : r.Hopeless allowed) {j : Nat} (hj : j ≤ allowed) : r.Due j := by
  induction j with
  | zero => exact due_zero
  | succ j ih =>
    have hdue := ih (Nat.le_of_succ_le hj)
    intro i hi
    rcases Nat.lt_succ_iff_lt_or_eq.1 hi with hi | rfl
    · exact hdue i hi
    · exact h i hj hdue

/-- Without a success every attempt that is allowed is made. -/
theorem Hopeless.made {allowed : Nat} (h : r.Hopeless allowed) : r.made allowed = allowed := by
  refine Nat.le_antisymm (Nat.le_of_not_lt fun hlt => ?_) (Nat.le_of_not_lt fun hlt => ?_)
  · exact absurd (lt_made_iff.1 hlt).1 (Nat.lt_irrefl _)
  · exact absurd (lt_made_iff.2 ⟨hlt, h.due hlt.le⟩) (Nat.lt_irrefl _)

theorem Hopeless.final {allowed : Nat} (h : r.Hopeless allowed) (m : Machine σ) : (r.final m allowed).2 = false := by
  cases allowed with
  | zero => rfl
  | succ j => exact (h j (Nat.lt_succ_self j) (h.due (Nat.le_succ j))).1

end Outcomes

section Dispatched

variable {e : Engine σ} {m o : Machine σ} {c : Command σ} {i : Instruction} {key : String} {invocation : Invocation σ}
  {r : Outcomes σ}

/-- A command that never succeeds is tried as often as its timing allows. -/
theorem tries_hopeless (hp : m.prepare e c i key = (o, .ok invocation))
    (hr : r.Holds e o invocation key i.timing.pause i.timing.budget) (hfail : r.Hopeless i.timing.budget) :
    (tries e (dispatched m c i key)).encard = i.timing.budget := by
  have htries : tries e (dispatched m c i key) =
      tries e ⟨o, .attempts invocation key i.timing.pause i.timing.total, []⟩ :=
    Step.tries (.begin (.prepared hp) []) (by simp [Tries, dispatched])
  obtain ⟨-, hcount, -⟩ := attempts_made (k := i.timing.budget) rfl hr
  rw [htries, hcount, hfail.made]

/-- In the end it fails. -/
theorem dispatch_hopeless (hp : m.prepare e c i key = (o, .ok invocation))
    (hr : r.Holds e o invocation key i.timing.pause i.timing.budget) (hfail : r.Hopeless i.timing.budget) :
    Enough (dispatch e · m c i key) ((r.final o i.timing.budget).1, false) := by
  obtain ⟨run, -, -⟩ := attempts_made (k := i.timing.budget) rfl hr
  have hends := (Dispatches.prepared hp run).settles
  rwa [hfail.made, hfail.final] at hends

end Dispatched

/-- A command that never succeeds in a request that goes on is tried as often as its timing allows. The timing announces
that number exactly if it is not the longest; for the longest the sum runs over, and it announces none. -/
theorem announced_iff (e : Engine σ) (m : Machine σ) (c : Command σ) (i : Instruction) (key : String)
    {o : Machine σ} {invocation : Invocation σ} {r : Outcomes σ} (hp : m.prepare e c i key = (o, .ok invocation))
    (hr : r.Holds e o invocation key i.timing.pause i.timing.budget) (hfail : r.Hopeless i.timing.budget) :
    ∃ n : ℕ, (tries e (dispatched m c i key)).encard = n ∧
      Enough (dispatch e · m c i key) ((r.final o n).1, false) ∧
      (i.timing.maxAttempts.map Int64.toInt = some (n : Int) ↔ ¬i.timing.Longest) ∧
      (i.timing.Longest → i.timing.maxAttempts = none) :=
  ⟨i.timing.budget, tries_hopeless hp hr hfail, dispatch_hopeless hp hr hfail, Timing.maxAttempts_eq_budget_iff,
    fun h => (Timing.maxAttempts_of_longest h).1⟩

/-- The outcomes of the probe that fails. -/
theorem hopeless_fail (m : Machine Probe.State) (key : String) (pause : Int64) (allowed : Nat)
    (ha : m.aborted = false) :
    (Outcomes.ofHost (fun m => .simple m.world.host false) m key pause).Hopeless allowed := by
  intro j hj hdue
  clear hj hdue
  induction j with
  | zero => exact ⟨rfl, ha⟩
  | succ j ih => exact ⟨rfl, ih.2⟩

/-- An engine with the probes, and a machine to try them on. -/
def probes : Engine Probe.State := ⟨Probe.registry, fun _ => .error .notFound⟩

def probed : Machine Probe.State := (World.new (Store.ofProperties []) (Request.new [] none) .new).enter

/-- With five units and a pause of two, three attempts are announced and made. -/
theorem announced_iff_three :
    ∃ i, Instruction.parse "0,2,5,fail:".toList = .ok i ∧ i.timing.maxAttempts = some 3 ∧
      (tries probes (dispatched probed (.host Probe.fail) i "RUN_1")).encard = 3 := by
  let i : Instruction := ⟨true, false, ⟨0, 2, 5⟩, "fail", ""⟩
  let o : Machine Probe.State := probed.note (.prepared 0 "RUN_1")
  let run : Machine Probe.State → Effect Probe.State := fun m => .simple m.world.host false
  have hp : probed.prepare probes (.host Probe.fail) i "RUN_1" = (o, .ok (.host run)) := rfl
  obtain ⟨n, hcount, -, hn, -⟩ := announced_iff probes probed (.host Probe.fail) i "RUN_1" hp
    (Outcomes.holds_ofHost probes run o "RUN_1" 2 _) (hopeless_fail o "RUN_1" 2 _ rfl)
  have hthree : i.timing.maxAttempts.map Int64.toInt = some 3 := by decide +kernel
  have hsame : (n : Int) = 3 := Option.some.inj ((hn.2 (by decide +kernel)).symm.trans hthree)
  obtain rfl : n = 3 := by exact_mod_cast hsame
  exact ⟨i, by decide +kernel, by decide +kernel, hcount⟩

/-- One unit at a time, the longest total pays for more attempts than a word can tell, and none are announced. -/
theorem announced_none :
    ∃ i, Instruction.parse "0,1,9223372036854775807,fail:".toList = .ok i ∧ i.timing.maxAttempts = none ∧
      (tries probes (dispatched probed (.host Probe.fail) i "RUN_1")).encard = (2 ^ 63 : ℕ) := by
  let i : Instruction := ⟨true, false, ⟨0, 1, Int64.maxValue⟩, "fail", ""⟩
  let o : Machine Probe.State := probed.note (.prepared 0 "RUN_1")
  let run : Machine Probe.State → Effect Probe.State := fun m => .simple m.world.host false
  have hp : probed.prepare probes (.host Probe.fail) i "RUN_1" = (o, .ok (.host run)) := rfl
  obtain ⟨hnone, hmany⟩ := Timing.maxAttempts_of_longest (t := i.timing) ⟨rfl, rfl⟩
  have hcount := tries_hopeless hp (Outcomes.holds_ofHost probes run o "RUN_1" 1 _) (hopeless_fail o "RUN_1" 1 _ rfl)
  rw [hmany] at hcount
  exact ⟨i, by decide +kernel, hnone, hcount⟩

end Sequencer
