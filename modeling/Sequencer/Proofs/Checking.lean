import Mathlib.Data.List.Nodup
import Mathlib.Data.List.Perm.Subperm
import Sequencer.Engine
import Sequencer.Proofs.Head

/-!
# Checking and running

A check looks at the instructions as they stand in the properties, and a cycle at what their placeholders expand to.
The two agree on every instruction whose head can be told before: a check reports exactly those on which a cycle
gives up, and reports each of them once.
-/

namespace Sequencer

/-! ## Keys of tables

The properties come as a list of entries, in which a key may be repeated. What counts is the last one. -/

namespace Table

variable {α : Type} {t : Table α} {key : String}

theorem mem_keys_of_get? (h : t.get? key ≠ none) : key ∈ t.keys := by
  induction t with
  | nil => exact absurd rfl h
  | cons entry t ih =>
    obtain ⟨k, v⟩ := entry
    by_cases hk : k = key
    · exact List.mem_cons.2 (.inl hk.symm)
    · rw [get?, if_neg hk] at h
      exact List.mem_cons_of_mem k (ih h)

/-- To put a value adds its key, and takes none away. -/
theorem mem_keys_put {name : String} {v : α} : name ∈ keys (put t key v) ↔ name = key ∨ name ∈ keys t := by
  induction t with
  | nil => simp [put, keys]
  | cons entry t ih =>
    obtain ⟨k, w⟩ := entry
    simp only [keys] at ih
    by_cases hk : k = key
    · simp [put, keys, hk]
    · simp [put, keys, hk, ih, or_left_comm]

theorem nodup_keys_put (h : (keys t).Nodup) (v : α) : (keys (put t key v)).Nodup := by
  induction t with
  | nil => exact List.nodup_singleton key
  | cons entry t ih =>
    obtain ⟨k, w⟩ := entry
    obtain ⟨hk, ht⟩ := List.nodup_cons.1 h
    by_cases hkey : k = key
    · rw [put, if_pos hkey]
      exact hkey ▸ h
    · rw [put, if_neg hkey]
      exact List.nodup_cons.2 ⟨fun hin => (mem_keys_put.1 hin).elim hkey hk, ih ht⟩

/-- A table that is made by puts has each of its keys once. -/
theorem nodup_keys_ofEntries (entries : List (String × α)) : (keys (ofEntries entries)).Nodup := by
  unfold ofEntries putAll
  exact List.foldlRecOn (motive := fun t => (keys t).Nodup) entries _ List.nodup_nil
    fun _ ht entry _ => nodup_keys_put ht entry.2

end Table

/-! ## Keys of instructions

The key of an instruction is the name of its action and its number. No other name and number make the same key. -/

namespace Text

theorem dropTail?_eq_some {tail s r : List Char} : dropTail? tail s = some r ↔ s = r ++ tail := by
  unfold dropTail?
  simp only [Option.map_eq_some_iff, dropLead?_eq_some]
  constructor
  · rintro ⟨q, hq, rfl⟩
    rw [← List.reverse_reverse s, hq]
    simp
  · rintro rfl
    exact ⟨r.reverse, by simp, by simp⟩

end Text

namespace Properties

variable {p : Properties} {action key : String} {n : Nat}

theorem toList_instructionKey (action : String) (n : Nat) :
    (instructionKey action n).toList = action.toList ++ '_' :: Nat.toDigits 10 n := by
  have h : instructionKey action n = action ++ "_" ++ n.repr := rfl
  rw [h, String.toList_append, String.toList_append, Nat.toList_repr, List.append_assoc]
  rfl

/-- The name of an instruction tells its action and its number: no digit is an underscore. -/
theorem instructionKey_inj {action' : String} {n' : Nat} (h : instructionKey action n = instructionKey action' n') :
    action = action' ∧ n = n' := by
  have hdigits (k : Nat) : '_' ∉ (Nat.toDigits 10 k).reverse := fun hk =>
    absurd (Nat.isDigit_of_mem_toDigits (by decide) (by decide) (List.mem_reverse.1 hk)) (by decide)
  have hsplit (a : String) (k : Nat) :
      Text.splitFirst '_' (instructionKey a k).toList.reverse =
        some ((Nat.toDigits 10 k).reverse, a.toList.reverse) := by
    have hrev : (instructionKey a k).toList.reverse = (Nat.toDigits 10 k).reverse ++ '_' :: a.toList.reverse := by
      rw [toList_instructionKey]
      simp
    rw [hrev]
    exact Text.splitFirst_append _ (hdigits k)
  have heq := (hsplit action n).symm.trans (h ▸ hsplit action' n')
  simp only [Option.some.injEq, Prod.mk.injEq, List.reverse_inj] at heq
  refine ⟨String.toList_inj.1 heq.2, ?_⟩
  rw [← Nat.ofDigitChars_ten_toDigits (n := n), heq.1, Nat.ofDigitChars_ten_toDigits]

/-- An action is known by its first instruction. -/
theorem actionOf?_eq_some : actionOf? key = some action ↔ action ≠ "" ∧ key = instructionKey action 1 := by
  -- Texts are compared as lists of characters.
  have hkey : key = instructionKey action 1 ↔ Text.dropTail? ['_', '1'] key.toList = some action.toList := by
    rw [Text.dropTail?_eq_some, ← String.toList_inj, toList_instructionKey]
    rfl
  have hne : action ≠ "" ↔ action.toList ≠ [] := by
    rw [ne_eq, ne_eq, ← String.toList_inj]
    rfl
  rw [hkey, hne]
  unfold actionOf?
  cases Text.dropTail? ['_', '1'] key.toList with
  | none => simp
  | some r =>
    cases r with
    | nil => simp
    | cons c r =>
      simp only [Option.some.injEq]
      constructor
      · rintro rfl
        simp
      · rintro ⟨-, h⟩
        rw [h, String.ofList_toList]

/-- The actions of the properties are those that have a first instruction. -/
theorem mem_actionNames : action ∈ p.actionNames ↔ action ≠ "" ∧ instructionKey action 1 ∈ Table.keys p := by
  unfold actionNames
  rw [List.mem_mergeSort, List.mem_filterMap]
  constructor
  · rintro ⟨name, hname, ha⟩
    obtain ⟨hne, rfl⟩ := actionOf?_eq_some.1 ha
    exact ⟨hne, hname⟩
  · rintro ⟨hne, hname⟩
    exact ⟨_, hname, actionOf?_eq_some.2 ⟨hne, rfl⟩⟩

theorem nodup_actionNames (hp : (Table.keys p).Nodup) : p.actionNames.Nodup := by
  unfold actionNames
  refine (List.mergeSort_perm _ _).nodup_iff.2 (hp.filterMap fun a b action ha hb => ?_)
  rw [(actionOf?_eq_some.1 ha).2, (actionOf?_eq_some.1 hb).2]

/-- The text of an instruction, without the blanks around it. -/
def instruction (p : Properties) (key : String) : List Char := Text.trim (p.text key).toList

/-- The instructions of an action up to a number all have a text. -/
def Filled (p : Properties) (action : String) (n : Nat) : Prop :=
  ∀ k, 0 < k → k ≤ n → p.instruction (instructionKey action k) ≠ []

/-- The name of an instruction of an action, where it and all before it have a text. -/
def Numbered (p : Properties) (key : String) : Prop :=
  ∃ action n, action ≠ "" ∧ 0 < n ∧ key = instructionKey action n ∧ p.Filled action n

theorem mem_keys_of_instruction (h : p.instruction key ≠ []) : key ∈ Table.keys p := by
  refine Table.mem_keys_of_get? fun hnone => h ?_
  unfold instruction text
  rw [hnone]
  rfl

/-- The instructions of an action are properties of different names. -/
theorem Filled.le_length (h : p.Filled action n) : n ≤ p.length := by
  have hsub : ((List.range n).map fun k => instructionKey action (k + 1)) ⊆ Table.keys p := by
    intro key hkey
    obtain ⟨k, hk, rfl⟩ := List.mem_map.1 hkey
    exact mem_keys_of_instruction (h (k + 1) k.succ_pos (List.mem_range.1 hk))
  have hnodup : ((List.range n).map fun k => instructionKey action (k + 1)).Nodup :=
    List.nodup_range.map fun a b hab => Nat.succ_injective (instructionKey_inj hab).2
  have hle := (List.subperm_of_subset hnodup hsub).length_le
  simpa [Table.keys] using hle

end Properties

/-! ## The check

The check goes through all actions and numbers in order, and each complaint names the key that it is about. -/

namespace Engine

open Properties

variable {σ : Type} {e : Engine σ} {p : Properties} {action key : String} {text : List Char}

/-- The check decides about a text if no placeholder comes before its command is told. -/
theorem decidable_iff : decidable text = true ↔ Instruction.Told text := by
  rw [Instruction.told_iff]
  unfold decidable
  cases hopen : Text.splitMarker '{' '{' text with
  | none => exact iff_of_true rfl nofun
  | some parts =>
    simp only [List.contains_iff_mem, Option.some.injEq]
    constructor
    · rintro h before after rfl
      exact h
    · exact fun h => h _ _ rfl

/-- The instructions of an action are those from the first one on, up to the first number that has none. -/
theorem mem_instructionsFrom {fuel number : Nat} : (key, text) ∈ instructionsFrom p action fuel number ↔
    ∃ k < fuel, key = instructionKey action (number + k) ∧ text = p.instruction key ∧
      ∀ j ≤ k, p.instruction (instructionKey action (number + j)) ≠ [] := by
  induction fuel generalizing number with
  | zero => simp [instructionsFrom]
  | succ fuel ih =>
    -- What is looked at first is the instruction of the first number.
    have hfirst : Text.trim (p.text (instructionKey action number)).toList =
        p.instruction (instructionKey action number) := rfl
    simp only [instructionsFrom, hfirst]
    by_cases hempty : p.instruction (instructionKey action number) = []
    · rw [if_pos (by rw [hempty]; rfl)]
      refine iff_of_false List.not_mem_nil ?_
      rintro ⟨k, -, -, -, hfilled⟩
      exact hfilled 0 k.zero_le hempty
    · rw [if_neg (by simpa using hempty), List.mem_cons, ih]
      -- The others are numbered from the next one on.
      have shift (j : Nat) : number + 1 + j = number + (j + 1) := Nat.add_right_comm ..
      simp only [shift]
      constructor
      · rintro (he | ⟨k, hk, rfl, rfl, hfilled⟩)
        · cases he
          exact ⟨0, fuel.succ_pos, rfl, rfl, fun j hj => by rwa [Nat.le_zero.1 hj]⟩
        · refine ⟨k + 1, Nat.succ_lt_succ hk, rfl, rfl, fun j hj => ?_⟩
          cases j with
          | zero => exact hempty
          | succ j => exact hfilled j (Nat.le_of_succ_le_succ hj)
      · rintro ⟨k, hk, rfl, rfl, hfilled⟩
        cases k with
        | zero => exact .inl rfl
        | succ k =>
          exact .inr ⟨k, Nat.lt_of_succ_lt_succ hk, rfl, rfl, fun j hj => hfilled (j + 1) (Nat.succ_le_succ hj)⟩

/-- The instructions of an action that a check looks at are those that a run can come to. -/
theorem mem_instructions : (key, text) ∈ instructions p action ↔
    text = p.instruction key ∧ ∃ n, 0 < n ∧ key = instructionKey action n ∧ p.Filled action n := by
  unfold instructions
  rw [mem_instructionsFrom]
  constructor
  · rintro ⟨k, -, rfl, rfl, hfilled⟩
    refine ⟨rfl, 1 + k, by omega, rfl, fun j hj hjk => ?_⟩
    have := hfilled (j - 1) (by omega)
    rwa [Nat.add_sub_cancel' hj] at this
  · rintro ⟨rfl, n, hn, rfl, hfilled⟩
    have hle := hfilled.le_length
    refine ⟨n - 1, by omega, by rw [Nat.add_sub_cancel' hn], rfl, fun j hj => hfilled (1 + j) (by omega) (by omega)⟩

/-- What a check reports: an instruction that a run can come to, with what is wrong with it. -/
theorem mem_check {issue : Issue} :
    issue ∈ e.check p ↔ p.Numbered issue.key ∧ e.complaint? (p.instruction issue.key) = some issue.complaint := by
  unfold check
  simp only [List.mem_flatMap, List.mem_filterMap, Option.map_eq_some_iff]
  constructor
  · rintro ⟨action, haction, ⟨key, text⟩, hmem, c, hc, rfl⟩
    obtain ⟨rfl, n, hn, rfl, hfilled⟩ := mem_instructions.1 hmem
    exact ⟨⟨action, n, (mem_actionNames.1 haction).1, hn, rfl, hfilled⟩, hc⟩
  · rintro ⟨⟨action, n, hne, hn, hkey, hfilled⟩, hc⟩
    have hfirst := mem_keys_of_instruction (hfilled 1 Nat.one_pos hn)
    exact ⟨action, mem_actionNames.2 ⟨hne, hfirst⟩, ⟨issue.key, p.instruction issue.key⟩,
      mem_instructions.2 ⟨rfl, n, hn, hkey, hfilled⟩, issue.complaint, hc, rfl⟩

/-- No key comes twice, since the numbers are different. -/
theorem pairwise_instructionsFrom (p : Properties) (action : String) (fuel number : Nat) :
    (instructionsFrom p action fuel number).Pairwise fun x y => x.1 ≠ y.1 := by
  induction fuel generalizing number with
  | zero => exact .nil
  | succ fuel ih =>
    simp only [instructionsFrom]
    split_ifs
    · exact .nil
    · refine .cons ?_ (ih (number + 1))
      rintro ⟨key, text⟩ hmem heq
      obtain ⟨k, -, hkey, -⟩ := mem_instructionsFrom.1 hmem
      have := (instructionKey_inj (heq.trans hkey)).2
      omega

/-- A check reports no instruction twice. -/
theorem nodup_check (e : Engine σ) (hp : (Table.keys p).Nodup) : ((e.check p).map (·.key)).Nodup := by
  refine List.pairwise_map.2 (List.pairwise_flatMap.2 ⟨fun action _ => ?_, ?_⟩)
  · refine List.pairwise_filterMap.2 ((pairwise_instructionsFrom p action _ 1).imp ?_)
    rintro ⟨key, text⟩ ⟨key', text'⟩ hne issue h issue' h'
    obtain ⟨_, -, rfl⟩ := Option.map_eq_some_iff.1 h
    obtain ⟨_, -, rfl⟩ := Option.map_eq_some_iff.1 h'
    exact hne
  · refine (nodup_actionNames hp).imp fun {a b} hab => ?_
    -- the name of an instruction tells its action
    have named {action : String} {issue : Issue} (h : issue ∈ (instructions p action).filterMap fun step =>
        (e.complaint? step.2).map fun c => ⟨step.1, c⟩) : ∃ n, issue.key = instructionKey action n := by
      obtain ⟨⟨key, text⟩, hmem, hc⟩ := List.mem_filterMap.1 h
      obtain ⟨_, -, rfl⟩ := Option.map_eq_some_iff.1 hc
      obtain ⟨-, n, -, hkey, -⟩ := mem_instructions.1 hmem
      exact ⟨n, hkey⟩
    intro issue h issue' h' heq
    obtain ⟨n, hn⟩ := named h
    obtain ⟨n', hn'⟩ := named h'
    exact hab (instructionKey_inj (hn.symm.trans (heq.trans hn'))).1

/-! ## Cycles

A cycle that comes to an instruction decodes the same text, with the values of its placeholders filled in. Complaints
are about the part in front, where this makes no difference. -/

variable {m n : Machine σ} {level : Nat}

/-- There is no complaint about a text whose command is told if the text parses, and its command is registered. -/
theorem complaint?_eq_none (ht : Instruction.Told text) : e.complaint? text = none ↔
    ∃ i c, Instruction.parse text = .ok i ∧ e.registry.get? i.command = some c := by
  unfold complaint?
  rw [if_pos (decidable_iff.2 ht)]
  cases Instruction.parse text with
  | error reason => exact iff_of_false (Option.some_ne_none _) nofun
  | ok i =>
    simp only
    -- A text that parses is complained of only for a command that nobody knows.
    by_cases hhas : Table.has e.registry i.command = true
    · obtain ⟨c, hc⟩ := Option.isSome_iff_exists.1 hhas
      rw [if_pos hhas]
      exact iff_of_true rfl ⟨i, c, rfl, hc⟩
    · rw [if_neg hhas]
      refine iff_of_false nofun ?_
      rintro ⟨_, c, he, hc⟩
      cases he
      exact hhas (Option.isSome_iff_exists.2 ⟨c, hc⟩)

/-- A text whose head can be told has a complaint exactly where its expansion, if there is one, is decoded to
nothing. -/
theorem complaint?_eq_none_iff {text s : String} (ht : Instruction.Told text.toList) (hs : m.expand text = .ok s) :
    e.complaint? text.toList = none ↔ ∃ i c, m.decode e text = some (i, c) := by
  have hexpand : Template.expand m.lookup text.toList = .ok s.toList := by
    unfold Machine.expand at hs
    split at hs
    · next out hout =>
      cases hs
      rw [String.toList_ofList]
      exact hout
    · cases hs
  -- expanding the text leaves its head, where the command is
  have hhead := ht.head_expand hexpand
  rw [complaint?_eq_none ht]
  unfold Machine.decode
  rw [hs]
  simp only
  cases hi : Instruction.parse text.toList with
  | error err =>
    cases hj : Instruction.parse s.toList with
    | error _ => exact iff_of_false nofun nofun
    | ok j =>
      rw [hi, hj] at hhead
      cases hhead
  | ok i =>
    cases hj : Instruction.parse s.toList with
    | error _ =>
      rw [hi, hj] at hhead
      cases hhead
    | ok j =>
      rw [hi, hj] at hhead
      have hcommand : i.command = j.command := by
        have hij : i.head = j.head := Except.ok.inj hhead
        exact congrArg (·.2.2.2) hij
      simp only [Except.ok.injEq, exists_and_left, exists_eq_left', hcommand, Option.map_eq_some_iff, Prod.mk.injEq]
      constructor
      · rintro ⟨c, hc⟩
        exact ⟨j, c, c, hc, rfl, rfl⟩
      · rintro ⟨_, _, c, hc, -, -⟩
        exact ⟨c, hc⟩

theorem told_of_complaint {c : Complaint} (h : e.complaint? text = some c) : Instruction.Told text := by
  by_contra hn
  unfold complaint? at h
  rw [if_neg fun hd => hn (decidable_iff.1 hd)] at h
  cases h

/-- An instruction with a complaint is decoded to nothing, whatever it expands to. -/
theorem decode_of_complaint {text : String} {c : Complaint} (h : e.complaint? text.toList = some c) :
    m.decode e text = none := by
  have ht := told_of_complaint h
  cases hs : m.expand text with
  | error err =>
    unfold Machine.decode
    rw [hs]
  | ok s =>
    by_contra hn
    obtain ⟨⟨i, c'⟩, hd⟩ := Option.ne_none_iff_exists'.1 hn
    rw [(complaint?_eq_none_iff ht hs).2 ⟨i, c', hd⟩] at h
    cases h

/-- A fetched instruction is the trimmed text under its name, which the machine looks up. -/
theorem fetched_text {key text : String} (h : m.nextStep level = (n, .instruction key text)) :
    ∃ v, m.lookup key = some v ∧ text.toList = Text.trim v.text.toList := by
  unfold Machine.nextStep at h
  split_ifs at h
  · cases h
  · split at h
    · cases h
    · next f below hf =>
      split_ifs at h
      · cases h
      · -- the frame that has advanced is in the same scope
        have hlookup (event : Event) : ((m.withFrames (f.advance :: below)).note event).lookup = m.lookup := by
          unfold Machine.lookup Machine.currentScope
          rw [hf]
          rfl
        simp only [hlookup] at h
        split_ifs at h
        · cases h
        · cases hv : m.lookup f.advance.key with
          | none => simp_all
          | some v =>
            rw [hv] at h
            cases h
            exact ⟨v, hv, String.toList_ofList⟩

/-- An instruction that a cycle has fetched is dispatched: in its place, or by a job on the barrier of the cycle. -/
inductive Starts (e : Engine σ) (m : Machine σ) (level : Nat) (n : Machine σ) (key : String) : Prop
  | here {i : Instruction} {c : Command σ} (registered : e.registry.get? i.command = some c)
      (run : ∀ fuel, Machine.cycle e (fuel + 1) m level = (Machine.dispatch e fuel n c i key).bind fun (o, ok) =>
        if ok || !i.strict then Machine.cycle e fuel o level else some (o, false))
  | aside {i : Instruction} {c : Command σ} {thread : Nat} {frames : List Frame}
      (registered : e.registry.get? i.command = some c)
      (run : ∀ fuel, Machine.cycle e (fuel + 1) m level = Machine.cycle e fuel (n.forkInstruction i key) level)
      (left : (n.forkInstruction i key).thread.barrier =
        n.thread.barrier.map (·.register (.instruction thread frames i key)))
      (job : ∀ fuel w, Machine.runJob e (fuel + 1) w (.instruction thread frames i key) =
        (Machine.dispatch e fuel ⟨w, { Thread.new thread with frames }⟩ c i key).bind fun (o, ok) =>
          if ok && decide (frames.length < o.depth) then
            (Machine.runCycle e fuel o frames.length).map fun (o, ok) => (o.finish.world, ok)
          else some (o.finish.world, ok))

theorem runJob_of_registered {i : Instruction} {c : Command σ} {thread : Nat} {frames : List Frame} {key : String}
    (hc : e.registry.get? i.command = some c) (fuel : Nat) (w : World σ) :
    Machine.runJob e (fuel + 1) w (.instruction thread frames i key) =
      (Machine.dispatch e fuel ⟨w, { Thread.new thread with frames }⟩ c i key).bind fun (o, ok) =>
        if ok && decide (frames.length < o.depth) then
          (Machine.runCycle e fuel o frames.length).map fun (o, ok) => (o.finish.world, ok)
        else some (o.finish.world, ok) := by
  rw [Machine.runJob]
  simp only [hc]
  cases Machine.dispatch e fuel ⟨w, { Thread.new thread with frames }⟩ c i key with
  | none => rfl
  | some r =>
    obtain ⟨o, ok⟩ := r
    simp only [Option.bind_some]
    cases ok && decide (frames.length < o.depth) with
    | false => rfl
    | true => cases Machine.runCycle e fuel o frames.length <;> rfl

theorem starts_of_decode {key text : String} {i : Instruction} {c : Command σ} (ha : m.aborted = false)
    (hs : m.nextStep level = (n, .instruction key text)) (hd : n.decode e text = some (i, c)) :
    Starts e m level n key := by
  have hc := Machine.registered_of_decode hd
  cases hp : i.parallel && !c.isAsync with
  | false =>
    refine .here hc fun fuel => ?_
    rw [Machine.cycle]
    simp only [ha, hs, hd, hp]
    cases Machine.dispatch e fuel n c i key <;> rfl
  | true =>
    refine .aside hc (fun fuel => ?_) rfl fun fuel w => ?_
    · rw [Machine.cycle]
      simp only [ha, hs, hd, hp]
      rfl
    · exact runJob_of_registered hc fuel w

/-- What a check says of an instruction agrees with what a cycle does with it. Expansion changes nothing of what an
instruction whose head can be told says before its payload. A check reports only such instructions, each of them once.
And a cycle that takes an instruction from the properties gives up on it at once if it is reported; if it
is not although its head can be told, the cycle dispatches it as soon as it can be expanded. -/
theorem check_agrees (e : Engine σ) (p : Properties) (hp : (Table.keys p).Nodup) :
    (∀ (t s : List Char) (vars : Lookup), Instruction.Told t → Template.expand vars t = .ok s →
      (Instruction.parse t).map Instruction.head = (Instruction.parse s).map Instruction.head) ∧
    (∀ key ∈ (e.check p).map (·.key), p.Numbered key ∧ Instruction.Told (p.instruction key)) ∧
    ((e.check p).map (·.key)).Nodup ∧
    ∀ (m n : Machine σ) (level : Nat) (key text : String), m.store.properties = p →
      m.aborted = false → m.scopes.get? m.currentScope key = none → m.nextStep level = (n, .instruction key text) →
      (key ∈ (e.check p).map (·.key) → ∀ fuel, Machine.cycle e (fuel + 1) m level = some (n, false)) ∧
      (key ∉ (e.check p).map (·.key) → p.Numbered key → Instruction.Told (p.instruction key) →
        ∀ s, n.expand text = .ok s → Starts e m level n key) := by
  refine ⟨fun t s vars ht hs => ht.head_expand hs, fun key hkey => ?_, nodup_check e hp, ?_⟩
  · obtain ⟨issue, hissue, rfl⟩ := List.mem_map.1 hkey
    obtain ⟨hnumbered, hc⟩ := mem_check.1 hissue
    exact ⟨hnumbered, told_of_complaint hc⟩
  · rintro m n level key text rfl ha hscope hs
    obtain ⟨v, hv, htext⟩ := fetched_text hs
    -- no variable hides the property
    have hinstruction : text.toList = Properties.instruction m.store.properties key := by
      unfold Machine.lookup Machine.lookupIn at hv
      rw [hscope] at hv
      have hget : Table.get? m.store.properties key = some v := hv
      unfold Properties.instruction Properties.text
      rw [htext, hget]
    constructor
    · intro hkey fuel
      obtain ⟨issue, hissue, rfl⟩ := List.mem_map.1 hkey
      have hd : n.decode e text = none := decode_of_complaint (hinstruction ▸ (mem_check.1 hissue).2)
      rw [Machine.cycle]
      simp only [ha, hs, hd]
      rfl
    · intro hkey hnumbered ht s hexpand
      have hnone : e.complaint? text.toList = none := by
        by_contra hc
        obtain ⟨c, hc⟩ := Option.ne_none_iff_exists'.1 hc
        exact hkey (List.mem_map.2 ⟨⟨key, c⟩, mem_check.2 ⟨hnumbered, hinstruction ▸ hc⟩, rfl⟩)
      obtain ⟨i, c, hd⟩ := (complaint?_eq_none_iff (hinstruction ▸ ht) hexpand).1 hnone
      exact starts_of_decode ha hs hd

/-- An engine with the commands that are built in and without files. -/
def plain : Engine Unit := ⟨Registry.builtins Unit, fun _ => .error .notFound⟩

/-- An action with a good instruction, and one with a command that there is not. -/
def faulty : Properties :=
  Table.ofEntries [("RUN_1", .str " ?void:nothing"), ("RUN_2", .str "vodi:{{ tail }}"), ("tail", .str "1,x:")]

/-- A thread in an activation of that action. -/
def running : Machine Unit := (World.new (Store.ofProperties faulty) (Request.new [] none) ()).enter.push "RUN" [] []

/-- Of the two instructions a check reports the second one. A cycle dispatches the first one and gives up on the
second. -/
theorem check_agrees_faulty : (plain.check faulty).map (·.key) = ["RUN_2"] ∧
    (∃ n, running.nextStep 0 = (n, .instruction "RUN_1" "?void:nothing") ∧ Starts plain running 0 n "RUN_1") ∧
    ∃ m n, (running.nextStep 0).1 = m ∧ m.nextStep 0 = (n, .instruction "RUN_2" "vodi:{{ tail }}") ∧
      Machine.cycle plain 1 m 0 = some (n, false) := by
  have hcheck : (plain.check faulty).map (·.key) = ["RUN_2"] := by decide +kernel
  have hfirst : running.nextStep 0 = ((running.nextStep 0).1, .instruction "RUN_1" "?void:nothing") := rfl
  have hsecond : (running.nextStep 0).1.nextStep 0 =
    (((running.nextStep 0).1.nextStep 0).1, .instruction "RUN_2" "vodi:{{ tail }}") := rfl
  have htold : Instruction.Told (Properties.instruction faulty "RUN_1") := decidable_iff.1 (by decide)
  have hnumbered : Properties.Numbered faulty "RUN_1" := by
    refine ⟨"RUN", 1, by decide, Nat.one_pos, rfl, fun k hk hk' => ?_⟩
    cases Nat.le_antisymm hk' hk
    decide
  obtain ⟨-, -, -, hcycle⟩ := check_agrees plain faulty (Table.nodup_keys_ofEntries _)
  obtain ⟨-, hgood⟩ := hcycle running _ 0 _ _ rfl rfl rfl hfirst
  obtain ⟨hbad, -⟩ := hcycle (running.nextStep 0).1 _ 0 _ _ rfl rfl rfl hsecond
  have hstarts := hgood (by rw [hcheck]; decide) hnumbered htold _ (Machine.expand_of_splitMarker rfl)
  exact ⟨hcheck, ⟨_, hfirst, hstarts⟩, _, _, rfl, hsecond, hbad (by rw [hcheck]; decide) 0⟩

end Engine
end Sequencer
