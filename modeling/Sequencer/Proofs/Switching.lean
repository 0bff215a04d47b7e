import Sequencer.Proofs.Dotted
import Sequencer.Proofs.Homes

/-!
# What a switch depends on

The conditions of a switch are evaluated in the outermost scope of the request, from wherever it is reached. So which
action it selects depends on the variables of this scope and on the properties alone: two threads with other stacks
and other scopes, and even two requests, that agree in these select the same action, or fail both. No variable of a
frame can hide one of the outermost scope from a condition.
-/

namespace Sequencer

/-! ## Conditions

A condition holds, fails or is faulty, depending on the outermost scope alone. -/

namespace Expr

variable {vars : Lookup} {text : String}

/-- A text that is an expression with a true value. -/
def Holds (vars : Lookup) (text : String) : Prop :=
  ∃ e v, parse text.toList = .ok e ∧ eval vars e = .ok v ∧ v.truthy = true

/-- A text that is no expression, or one that has no value. -/
def Faulty (vars : Lookup) (text : String) : Prop :=
  (∃ err, parse text.toList = .error err) ∨ ∃ e err, parse text.toList = .ok e ∧ eval vars e = .error err

theorem testText_eq_true_iff : testText vars text.toList = .ok true ↔ Holds vars text := by
  unfold testText evalText Holds
  cases parse text.toList with
  | error err => simp
  | ok e => cases hv : eval vars e <;> simp [hv]

theorem testText_eq_error_iff : (∃ err, testText vars text.toList = .error err) ↔ Faulty vars text := by
  unfold testText evalText Faulty
  cases parse text.toList with
  | error err => simp
  | ok e => cases hv : eval vars e <;> simp [hv]

/-- What holds is not faulty. -/
theorem Holds.not_faulty (h : Holds vars text) : ¬Faulty vars text := by
  rw [← testText_eq_error_iff, testText_eq_true_iff.2 h]
  simp

/-! ## Cases in order

The cases are tried one after the other, up to the first one that holds or is faulty. -/

/-- A case that a switch comes to: no case in front of it holds. -/
def Tried (vars : Lookup) (cases : Table Value) (c : String × Value) : Prop :=
  ∃ before after, cases = before ++ c :: after ∧ ∀ b ∈ before, ¬Holds vars b.1

variable {cases : Table Value} {b c : String × Value}

theorem not_tried_nil : ¬Tried vars [] c := by
  rintro ⟨before, after, h, -⟩
  simp at h

theorem tried_cons : Tried vars (b :: cases) c ↔ c = b ∨ ¬Holds vars b.1 ∧ Tried vars cases c := by
  constructor
  · rintro ⟨before, after, hcases, hbefore⟩
    cases before with
    | nil => exact .inl (List.cons.inj hcases).1.symm
    | cons d before =>
      obtain ⟨rfl, htail⟩ := List.cons.inj hcases
      exact .inr ⟨hbefore b List.mem_cons_self, before, after, htail,
        fun d hd => hbefore d (List.mem_cons_of_mem b hd)⟩
  · rintro (rfl | ⟨hb, before, after, rfl, hbefore⟩)
    · exact ⟨[], cases, rfl, by simp⟩
    · exact ⟨b :: before, after, rfl, by simpa [hb] using hbefore⟩

/-- If some case holds, the first one that does is tried. -/
theorem exists_tried (h : ¬∀ b ∈ cases, ¬Holds vars b.1) : ∃ c, Tried vars cases c ∧ Holds vars c.1 := by
  induction cases with
  | nil => simp at h
  | cons b cases ih =>
    simp only [tried_cons]
    by_cases hb : Holds vars b.1
    · exact ⟨b, .inl rfl, hb⟩
    · obtain ⟨c, htried, hc⟩ := ih fun hnone => h (List.forall_mem_cons.2 ⟨hb, hnone⟩)
      exact ⟨c, .inr ⟨hb, htried⟩, hc⟩

end Expr

namespace Machine

variable {σ τ : Type} {m : Machine σ} {n : Machine τ} {vars : Lookup}

/-- A selection looks at nothing but what names stand for in the outermost scope. -/
theorem selectCase_congr (h : m.lookupIn m.request.root = n.lookupIn n.request.root) (default : String)
    (cases : Table Value) : m.selectCase default cases = n.selectCase default cases := by
  induction cases with
  | nil => rfl
  | cons c cases ih =>
    obtain ⟨condition, target⟩ := c
    have htest : m.testIn m.request.root condition = n.testIn n.request.root condition := by
      unfold testIn
      rw [h]
    unfold selectCase
    rw [htest, ih]

/-- How one case bears on a selection: a faulty one ends it, one that holds decides it, and any other leaves it to
the cases behind. -/
theorem selectCase_cons (hvars : m.lookupIn m.request.root = vars) (default : String) (c : String × Value)
    (cases : Table Value) :
    (Expr.Faulty vars c.1 ∧ ∃ err, m.selectCase default (c :: cases) = .error err) ∨
    (Expr.Holds vars c.1 ∧ m.selectCase default (c :: cases) = .ok (c.2.str?.getD "")) ∨
    (¬Expr.Faulty vars c.1 ∧ ¬Expr.Holds vars c.1 ∧
      m.selectCase default (c :: cases) = m.selectCase default cases) := by
  obtain ⟨condition, target⟩ := c
  have htest : m.testIn m.request.root condition = Expr.testText vars condition.toList := by rw [testIn, hvars]
  -- The condition fails, holds, or is passed over.
  cases hb : Expr.testText vars condition.toList with
  | error err =>
    refine .inl ⟨Expr.testText_eq_error_iff.1 ⟨err, hb⟩, err, ?_⟩
    unfold selectCase
    rw [htest, hb]
  | ok holds =>
    cases holds with
    | true =>
      refine .inr (.inl ⟨Expr.testText_eq_true_iff.1 hb, ?_⟩)
      unfold selectCase
      rw [htest, hb]
    | false =>
      refine .inr (.inr ⟨?_, ?_, ?_⟩)
      · rw [← Expr.testText_eq_error_iff, hb]
        simp
      · rw [← Expr.testText_eq_true_iff, hb]
        simp
      · conv_lhs => unfold selectCase
        rw [htest, hb]

/-- A selection fails if it comes to a case that is faulty. -/
theorem selectCase_eq_error_iff (hvars : m.lookupIn m.request.root = vars) (default : String) (cases : Table Value) :
    (∃ err, m.selectCase default cases = .error err) ↔ ∃ c, Expr.Tried vars cases c ∧ Expr.Faulty vars c.1 := by
  induction cases with
  | nil => exact iff_of_false (fun ⟨_, herr⟩ => nomatch herr) fun ⟨_, hc, _⟩ => Expr.not_tried_nil hc
  | cons b cases ih =>
    simp only [Expr.tried_cons]
    obtain ⟨hfaulty, herr⟩ | ⟨hholds, heq⟩ | ⟨hsound, hnot, heq⟩ := selectCase_cons hvars default b cases
    · exact iff_of_true herr ⟨b, .inl rfl, hfaulty⟩
    · rw [heq]
      refine iff_of_false (by simp) ?_
      -- Behind a case that holds, no other one is tried.
      rintro ⟨c, rfl | ⟨hnot, -⟩, hc⟩
      · exact hholds.not_faulty hc
      · exact hnot hholds
    · rw [heq, ih]
      constructor
      · rintro ⟨c, htried, hc⟩
        exact ⟨c, .inr ⟨hnot, htried⟩, hc⟩
      · rintro ⟨c, rfl | ⟨-, htried⟩, hc⟩
        · exact absurd hc hsound
        · exact ⟨c, htried, hc⟩

/-- The first case that holds decides, if the selection comes to it. -/
theorem selectCase_of_holds (hvars : m.lookupIn m.request.root = vars) (default : String) {cases : Table Value}
    (hsound : ∀ c, Expr.Tried vars cases c → ¬Expr.Faulty vars c.1) {c : String × Value}
    (htried : Expr.Tried vars cases c) (hc : Expr.Holds vars c.1) :
    m.selectCase default cases = .ok (c.2.str?.getD "") := by
  induction cases with
  | nil => exact absurd htried Expr.not_tried_nil
  | cons b cases ih =>
    simp only [Expr.tried_cons] at hsound htried
    obtain ⟨hfaulty, -⟩ | ⟨hholds, heq⟩ | ⟨-, hnot, heq⟩ := selectCase_cons hvars default b cases
    · exact absurd hfaulty (hsound b (.inl rfl))
    · -- There is one case that holds and is tried, since none is tried behind it.
      obtain rfl | ⟨hnot, -⟩ := htried
      · exact heq
      · exact absurd hholds hnot
    · obtain rfl | ⟨-, htried⟩ := htried
      · exact absurd hc hnot
      · rw [heq]
        exact ih (fun d hd => hsound d (.inr ⟨hnot, hd⟩)) htried

/-- If no case holds, the default is taken, once the selection has come through all of them. -/
theorem selectCase_of_none (hvars : m.lookupIn m.request.root = vars) (default : String) {cases : Table Value}
    (hsound : ∀ c, Expr.Tried vars cases c → ¬Expr.Faulty vars c.1) (hnone : ∀ c ∈ cases, ¬Expr.Holds vars c.1) :
    m.selectCase default cases = .ok default := by
  induction cases with
  | nil => rfl
  | cons b cases ih =>
    simp only [Expr.tried_cons] at hsound
    obtain ⟨hfaulty, -⟩ | ⟨hholds, -⟩ | ⟨-, hnot, heq⟩ := selectCase_cons hvars default b cases
    · exact absurd hfaulty (hsound b (.inl rfl))
    · exact absurd hholds (hnone b List.mem_cons_self)
    · rw [heq]
      exact ih (fun d hd => hsound d (.inr ⟨hnot, hd⟩)) fun d hd => hnone d (List.mem_cons_of_mem b hd)

end Machine

/-- What names stand for in the outermost scope of a request: its variables, and the properties. -/
def World.outermost {σ : Type} (w : World σ) : Lookup := fun x =>
  (w.request.global? x).or (Table.get? w.store.properties x)

namespace Pool

variable {σ τ : Type}

theorem Reachable.lookupIn_root {p : Pool σ} (h : p.Reachable) (v : Worker σ) :
    (p.machine v).lookupIn (p.machine v).request.root = p.world.outermost :=
  funext fun x => Machine.lookupIn_root (m := p.machine v) h.parent?_root x

/-- Two threads, of one request or of two, with any stacks and any scopes: if the outermost scopes of their requests
have the same variables, and if they have the same properties, then every switch selects the same action in both, or
fails in both. It fails if a case in front of all that hold is faulty. Otherwise it selects the action of the first
case that holds in the outermost scope, and the default if there is none. -/
theorem switch_sees_outermost {p : Pool σ} {q : Pool τ} (hp : p.Reachable) (hq : q.Reachable)
    (hvars : ∀ x, p.world.request.global? x = q.world.request.global? x)
    (hproperties : ∀ x, Table.get? p.world.store.properties x = Table.get? q.world.store.properties x)
    (v : Worker σ) (w : Worker τ) (c : SwitchSpec) :
    (p.machine v).selectCase c.defaultAction c.cases = (q.machine w).selectCase c.defaultAction c.cases ∧
    ((∃ err, (p.machine v).selectCase c.defaultAction c.cases = .error err) ↔
      ∃ b, Expr.Tried p.world.outermost c.cases b ∧ Expr.Faulty p.world.outermost b.1) ∧
    (∀ action, (p.machine v).selectCase c.defaultAction c.cases = .ok action ↔
      (∀ b, Expr.Tried p.world.outermost c.cases b → ¬Expr.Faulty p.world.outermost b.1) ∧
      ((∃ b, Expr.Tried p.world.outermost c.cases b ∧ Expr.Holds p.world.outermost b.1 ∧
          action = b.2.str?.getD "") ∨
        (∀ b ∈ c.cases, ¬Expr.Holds p.world.outermost b.1) ∧ action = c.defaultAction)) := by
  have hroot := hp.lookupIn_root v
  have hsame : p.world.outermost = q.world.outermost := by
    funext x
    unfold World.outermost
    rw [hvars, hproperties]
  have herr := Machine.selectCase_eq_error_iff hroot c.defaultAction c.cases
  refine ⟨Machine.selectCase_congr (hroot.trans (hsame.trans (hq.lookupIn_root w).symm)) _ _, herr, fun action => ?_⟩
  constructor
  · intro hok
    have hsound : ∀ b, Expr.Tried p.world.outermost c.cases b → ¬Expr.Faulty p.world.outermost b.1 := by
      intro b htried hfaulty
      obtain ⟨err, he⟩ := herr.2 ⟨b, htried, hfaulty⟩
      rw [hok] at he
      cases he
    refine ⟨hsound, ?_⟩
    -- the first case that holds decides, and it is tried, or none does
    by_cases hnone : ∀ b ∈ c.cases, ¬Expr.Holds p.world.outermost b.1
    · rw [Machine.selectCase_of_none hroot _ hsound hnone] at hok
      exact .inr ⟨hnone, (Except.ok.inj hok).symm⟩
    · obtain ⟨b, htried, hb⟩ := Expr.exists_tried hnone
      rw [Machine.selectCase_of_holds hroot _ hsound htried hb] at hok
      exact .inl ⟨b, htried, hb, (Except.ok.inj hok).symm⟩
  · rintro ⟨hsound, ⟨b, htried, hb, rfl⟩ | ⟨hnone, rfl⟩⟩
    · exact Machine.selectCase_of_holds hroot _ hsound htried hb
    · exact Machine.selectCase_of_none hroot _ hsound hnone

/-- A request whose outermost scope says that the visitor is not expected. -/
def visit : World Unit := World.new (.ofProperties []) (.new [("expected", .bool false)] none) ()

/-- A thread of it that has been called without parameters. -/
def plain : Machine Unit := visit.enter.push "MAIN" [] []

/-- A thread of it that has been called with a parameter of the name. -/
def steered : Machine Unit := visit.enter.push "MAIN" [] [("expected", .bool true)]

/-- The parameter does not open the door, although it is what the name stands for in the active scope. -/
theorem switch_sees_outermost_visit : steered.test "expected" = .ok true ∧
    steered.selectCase "CLOSED" [("expected", .str "OPEN")] = plain.selectCase "CLOSED" [("expected", .str "OPEN")] ∧
    steered.selectCase "CLOSED" [("expected", .str "OPEN")] = .ok "CLOSED" := by
  have hbegin : Initial (⟨visit, 0⟩ : Pool Unit) := ⟨rfl, _, none, false, rfl⟩
  have hplain : (plain.within [] 0).Reachable := .begin hbegin "MAIN" [] []
  have hsteered : (steered.within [] 0).Reachable := .begin hbegin "MAIN" [] _
  obtain ⟨hsame, -, hok⟩ := switch_sees_outermost hsteered hplain (fun _ => rfl) (fun _ => rfl)
    ⟨steered.thread, []⟩ ⟨plain.thread, []⟩ ⟨[("expected", .str "OPEN")], "CLOSED", [], ""⟩
  have hparse : Expr.parse "expected".toList = .ok (.name "expected") :=
    @parse_accesses "expected" [] (by decide) (by decide) (by simp)
  have htest : Expr.testText steered.world.outermost "expected".toList = .ok false := by
    rw [Expr.testText, Expr.evalText, hparse]
    rfl
  have hnot : ¬Expr.Holds steered.world.outermost "expected" := by
    rw [← Expr.testText_eq_true_iff, htest]
    simp
  have hsound : ¬Expr.Faulty steered.world.outermost "expected" := by
    rw [← Expr.testText_eq_error_iff, htest]
    simp
  have hactive : steered.test "expected" = .ok true := by
    rw [Machine.test, Machine.testIn, Expr.testText, Expr.evalText, hparse]
    rfl
  refine ⟨hactive, hsame, (hok "CLOSED").2 ⟨fun b htried => ?_, .inr ⟨fun b hb => ?_, rfl⟩⟩⟩
  · obtain rfl | ⟨-, htried⟩ := Expr.tried_cons.1 htried
    · exact hsound
    · exact absurd htried Expr.not_tried_nil
  · rw [List.mem_singleton.1 hb]
    exact hnot

end Pool
end Sequencer
