import Sequencer.Proofs.Spacing

/-!
# Expansion of placeholders

A text is a row of placeholders with other text in front of each, and a rest that either has no opening marker or has
one that is never closed. Expansion goes along this row once: it evaluates the placeholders in order up to the first
that fails, and puts the text of each value where the placeholder stood. What a value looks like makes no difference,
since reading goes on behind the placeholder and not in the value.

Which part of a placeholder is its expression is decided by the markers alone. So two closing braces in a row end the
expression even if they are the ends of two objects or stand inside of quotes, and what is left of it is none.
-/

namespace Sequencer

/-! ## Markers

A marker is a pair of the same character. It is found where it comes first, so that a text without it in front must
not end with its first half either. -/

namespace Text

/-- A text without two of a character in a row, also together with one more behind it. -/
def Clear (c : Char) (s : List Char) : Prop := ¬[c, c] <:+: s ∧ s.getLast? ≠ some c

instance (c : Char) (s : List Char) : Decidable (Clear c s) := inferInstanceAs (Decidable (_ ∧ _))

theorem not_infix_cons {c d : Char} {s : List Char} (hd : d ≠ c) (h : ¬[c, c] <:+: s) : ¬[c, c] <:+: d :: s := by
  rw [List.infix_cons_iff]
  rintro (⟨t, ht⟩ | hin)
  · exact hd (List.cons.inj ht).1.symm
  · exact h hin

theorem clear_cons {c d : Char} {s : List Char} (hd : d ≠ c) (h : Clear c s) : Clear c (d :: s) := by
  refine ⟨not_infix_cons hd h.1, ?_⟩
  cases s with
  | nil => simpa using hd
  | cons e t => simpa using h.2

/-- Two of a character at the end are no less in a row. -/
theorem clear_of_concat {c : Char} {s : List Char} (h : ¬[c, c] <:+: s ++ [c]) : Clear c s := by
  refine ⟨fun hin => h (hin.trans (List.infix_append' [] s [c])), fun hlast => ?_⟩
  obtain ⟨t, rfl⟩ := List.getLast?_eq_some_iff.1 hlast
  exact h ⟨t, [], by simp⟩

theorem clear_concat {c d : Char} {s : List Char} (hd : d ≠ c) (h : ¬[c, c] <:+: s) : Clear c (s ++ [d]) := by
  refine ⟨?_, by simpa using hd⟩
  rw [List.infix_concat_iff]
  rintro (⟨t, ht⟩ | hin)
  · exact hd (by simpa using (congrArg List.getLast? ht).symm)
  · exact h hin

theorem splitMarker_clear {c : Char} {x : List Char} (h : Clear c x) (y : List Char) :
    splitMarker c c (x ++ c :: c :: y) = some (x, y) := by
  induction x with
  | nil => simp [splitMarker]
  | cons d r ih =>
    cases r with
    | nil =>
      have hd : d ≠ c := fun hd => h.2 (by simp [hd])
      simp [splitMarker, hd]
    | cons e r =>
      have hne : ¬(d = c ∧ e = c) := by
        rintro ⟨rfl, rfl⟩
        exact h.1 ⟨[], r, rfl⟩
      have hclear : Clear c (e :: r) := ⟨fun hin => h.1 (List.infix_cons hin), by simpa using h.2⟩
      rw [List.cons_append, List.cons_append, splitMarker, if_neg hne, ← List.cons_append, ih hclear]
      rfl

/-- The first marker is the one with a clear text in front of it. -/
theorem splitMarker_eq_some_iff {c : Char} {s x y : List Char} :
    splitMarker c c s = some (x, y) ↔ s = x ++ c :: c :: y ∧ Clear c x := by
  constructor
  · intro h
    obtain ⟨hs, hfree⟩ := splitMarker_eq_some h
    refine ⟨hs, hfree, fun hlast => ?_⟩
    -- a character at the end would begin a marker before the one that was found
    obtain ⟨t, rfl⟩ := List.getLast?_eq_some_iff.1 hlast
    have hearly := splitMarker_clear (clear_of_concat hfree) (c :: y)
    rw [show t ++ c :: c :: c :: y = s by rw [hs]; simp, h] at hearly
    exact absurd (congrArg List.length (Prod.mk.inj (Option.some.inj hearly)).1) (by simp)
  · rintro ⟨rfl, hclear⟩
    exact splitMarker_clear hclear y

end Text

namespace Template

open Text

/-! ## Texts as rows of placeholders

A text with placeholders, as data. Between them the text is free of opening pairs, and inside it is free of closing
ones. -/

/-- A placeholder with the text in front of it. -/
structure Segment where
  text : List Char
  inside : List Char
  text_clear : Clear '{' text
  inside_clear : Clear '}' inside

/-- The expression that is evaluated. -/
def Segment.expr (p : Segment) : List Char := trim p.inside

def Segment.write (p : Segment) : List Char := p.text ++ '{' :: '{' :: (p.inside ++ ['}', '}'])

/-- A row of placeholders. -/
def writeAll (ps : List Segment) : List Char := ps.flatMap Segment.write

/-- A row with values in the place of the placeholders. -/
def filled (ps : List Segment) (vs : List Value) : List Char :=
  (List.zipWith (fun p v => p.text ++ v.chars) ps vs).flatten

/-! ## The expressions that are evaluated

The expressions in the order in which they are evaluated, up to the first one that fails. -/

/-- The expressions that an expansion evaluates, in order. It stops at the first that fails. -/
def asked (eval : List Char → Except EvalError Value) (s : List Char) : List (List Char) :=
  match _hOpen : splitMarker '{' '{' s with
  | none => []
  | some (_, after) =>
    match _hClose : splitMarker '}' '}' after with
    | none => []
    | some (inside, behind) =>
      match eval (trim inside) with
      | .error _ => [trim inside]
      | .ok _ => trim inside :: asked eval behind
termination_by s.length
decreasing_by
  have h₁ := splitMarker_length _hOpen
  have h₂ := splitMarker_length _hClose
  omega

/-! ## One placeholder

What is done for the first placeholder of a text, depending on how it goes on behind. -/

section Expansion

variable {eval : List Char → Except EvalError Value} {whole s before after inside behind : List Char} {err : EvalError}

theorem expandRest_eq : expandRest eval whole s =
    match splitMarker '{' '{' s with
    | none => .ok s
    | some (before, after) =>
      match splitMarker '}' '}' after with
      | none => .error (.unterminatedPlaceholder (String.ofList whole))
      | some (inside, behind) =>
        match eval (trim inside) with
        | .error err => .error err
        | .ok v => (expandRest eval whole behind).map fun out => before ++ v.chars ++ out := by
  rw [expandRest]
  split
  · next hopen => rw [hopen]
  · next hopen =>
    rw [hopen]
    simp only
    split
    · next hclose => rw [hclose]
    · next inside behind hclose =>
      rw [hclose]
      simp only
      cases eval (trim inside) with
      | error err => rfl
      | ok v => cases expandRest eval whole behind <;> rfl

theorem asked_eq : asked eval s =
    match splitMarker '{' '{' s with
    | none => []
    | some (_, after) =>
      match splitMarker '}' '}' after with
      | none => []
      | some (inside, behind) =>
        match eval (trim inside) with
        | .error _ => [trim inside]
        | .ok _ => trim inside :: asked eval behind := by
  rw [asked]
  split
  · next hopen => rw [hopen]
  · next hopen =>
    rw [hopen]
    simp only
    split
    · next hclose => rw [hclose]
    · next hclose => rw [hclose]

theorem asked_of_eq_none (hopen : splitMarker '{' '{' s = none) : asked eval s = [] := by
  rw [asked_eq, hopen]

theorem asked_of_unclosed (hopen : splitMarker '{' '{' s = some (before, after))
    (hclose : splitMarker '}' '}' after = none) : asked eval s = [] := by
  rw [asked_eq, hopen]
  simp only [hclose]

theorem asked_of_eq_some (hopen : splitMarker '{' '{' s = some (before, after))
    (hclose : splitMarker '}' '}' after = some (inside, behind)) : asked eval s =
      match eval (trim inside) with
      | .error _ => [trim inside]
      | .ok _ => trim inside :: asked eval behind := by
  rw [asked_eq, hopen]
  simp only [hclose]

theorem expandRest_of_error (hopen : splitMarker '{' '{' s = some (before, after))
    (hclose : splitMarker '}' '}' after = some (inside, behind)) (herr : eval (trim inside) = .error err) :
    expandRest eval whole s = .error err := by
  rw [expandRest_eq, hopen]
  simp only [hclose, herr]

theorem expandRest_of_unclosed (hopen : splitMarker '{' '{' s = some (before, after))
    (hclose : splitMarker '}' '}' after = none) :
    expandRest eval whole s = .error (.unterminatedPlaceholder (String.ofList whole)) := by
  rw [expandRest_eq, hopen]
  simp only [hclose]

namespace Segment

variable (p : Segment) (behind : List Char)

theorem opens : splitMarker '{' '{' (p.write ++ behind) = some (p.text, p.inside ++ '}' :: '}' :: behind) := by
  have hsplit : p.write ++ behind = p.text ++ '{' :: '{' :: (p.inside ++ '}' :: '}' :: behind) := by simp [write]
  rw [hsplit]
  exact splitMarker_clear p.text_clear _

theorem closes : splitMarker '}' '}' (p.inside ++ '}' :: '}' :: behind) = some (p.inside, behind) :=
  splitMarker_clear p.inside_clear behind

variable {p}

theorem expandRest_ok {v : Value} (hv : eval p.expr = .ok v) : expandRest eval whole (p.write ++ behind) =
    (expandRest eval whole behind).map fun out => p.text ++ v.chars ++ out :=
  expandRest_of_eq_some (p.opens behind) (p.closes behind) hv

theorem expandRest_error {err : EvalError} (herr : eval p.expr = .error err) :
    expandRest eval whole (p.write ++ behind) = .error err :=
  expandRest_of_error (p.opens behind) (p.closes behind) herr

theorem asked_ok {v : Value} (hv : eval p.expr = .ok v) :
    asked eval (p.write ++ behind) = p.expr :: asked eval behind := by
  have hv' : eval (trim p.inside) = .ok v := hv
  rw [asked_of_eq_some (p.opens behind) (p.closes behind), hv']
  rfl

theorem asked_error {err : EvalError} (herr : eval p.expr = .error err) :
    asked eval (p.write ++ behind) = [p.expr] := by
  have herr' : eval (trim p.inside) = .error err := herr
  rw [asked_of_eq_some (p.opens behind) (p.closes behind), herr']
  rfl

end Segment

/-! ## Rows of placeholders

The other placeholders follow by induction. What has been filled in is in front of what is still looked at, and not
looked at again. -/

/-- The placeholders of a row have these values. -/
def Filled (eval : List Char → Except EvalError Value) (ps : List Segment) (vs : List Value) : Prop :=
  List.Forall₂ (fun p v => eval p.expr = .ok v) ps vs

variable {ps : List Segment} {vs : List Value}

/-- What ends an expansion behind a row of placeholders with values: text with no opening marker, a placeholder that
fails, or an opening marker that is not closed. -/
inductive Stops (eval : List Char → Except EvalError Value) : List Char → Prop
  | plain {last} (h : ¬['{', '{'] <:+: last) : Stops eval last
  | failing {p : Segment} {err} (h : eval p.expr = .error err) (behind : List Char) : Stops eval (p.write ++ behind)
  | unclosed {last rest} (h : ¬['{', '{'] <:+: last) (hrest : ¬['}', '}'] <:+: rest) :
      Stops eval (last ++ '{' :: '{' :: rest)

/-- Every text is a row of placeholders with values, up to where its expansion ends. -/
theorem exists_filled (eval : List Char → Except EvalError Value) (s : List Char) :
    ∃ ps vs t, Filled eval ps vs ∧ s = writeAll ps ++ t ∧ Stops eval t := by
  cases hopen : splitMarker '{' '{' s with
  | none => exact ⟨[], [], s, .nil, rfl, .plain (splitMarker_eq_none.1 hopen)⟩
  | some parts =>
    obtain ⟨text, after⟩ := parts
    obtain ⟨hs, htext⟩ := splitMarker_eq_some_iff.1 hopen
    cases hclose : splitMarker '}' '}' after with
    | none => exact ⟨[], [], s, .nil, rfl, hs ▸ .unclosed htext.1 (splitMarker_eq_none.1 hclose)⟩
    | some parts =>
      obtain ⟨inside, behind⟩ := parts
      obtain ⟨hafter, hinside⟩ := splitMarker_eq_some_iff.1 hclose
      -- The first placeholder is closed, and its expression decides whether it is one of the filled ones.
      let p : Segment := ⟨text, inside, htext, hinside⟩
      have hsplit : s = p.write ++ behind := by
        rw [hs, hafter]
        simp [p, Segment.write]
      cases hv : eval p.expr with
      | error err => exact ⟨[], [], s, .nil, rfl, hsplit ▸ .failing hv behind⟩
      | ok v =>
        obtain ⟨ps, vs, t, hps, hbehind, ht⟩ := exists_filled eval behind
        refine ⟨p :: ps, v :: vs, t, .cons hv hps, ?_, ht⟩
        rw [hsplit, hbehind]
        simp [writeAll]
termination_by s.length
decreasing_by
  have h₁ := splitMarker_length hopen
  have h₂ := splitMarker_length hclose
  omega

/-- A row is left behind with all its values in place. -/
theorem Filled.expandRest (h : Filled eval ps vs) (behind : List Char) : Template.expandRest eval whole
    (writeAll ps ++ behind) = (Template.expandRest eval whole behind).map (filled ps vs ++ ·) := by
  induction h with
  | nil =>
    show Template.expandRest eval whole behind = _
    cases Template.expandRest eval whole behind <;> rfl
  | @cons p v ps vs hv _ ih =>
    have hsplit : writeAll (p :: ps) ++ behind = p.write ++ (writeAll ps ++ behind) := by simp [writeAll]
    rw [hsplit, Segment.expandRest_ok _ hv, ih]
    cases Template.expandRest eval whole behind with
    | error err => rfl
    | ok out => simp [Except.map, filled]

theorem Filled.asked (h : Filled eval ps vs) (behind : List Char) :
    Template.asked eval (writeAll ps ++ behind) = ps.map Segment.expr ++ Template.asked eval behind := by
  induction h with
  | nil => rfl
  | @cons p v ps vs hv _ ih =>
    have hsplit : writeAll (p :: ps) ++ behind = p.write ++ (writeAll ps ++ behind) := by simp [writeAll]
    rw [hsplit, Segment.asked_ok _ hv, ih]
    rfl

/-- An opening marker that is never closed, wherever the text in front of it ends. -/
theorem exists_unclosed {last rest : List Char} (hlast : ¬['{', '{'] <:+: last) (hrest : ¬['}', '}'] <:+: rest) :
    ∃ before after, splitMarker '{' '{' (last ++ '{' :: '{' :: rest) = some (before, after) ∧
      splitMarker '}' '}' after = none := by
  by_cases hend : last.getLast? = some '{'
  · obtain ⟨t, rfl⟩ := List.getLast?_eq_some_iff.1 hend
    refine ⟨t, '{' :: rest, ?_, splitMarker_eq_none.2 (not_infix_cons (by decide) hrest)⟩
    have hsplit : t ++ ['{'] ++ '{' :: '{' :: rest = t ++ '{' :: '{' :: '{' :: rest := by simp
    rw [hsplit]
    exact splitMarker_clear (clear_of_concat hlast) _
  · exact ⟨last, rest, splitMarker_clear ⟨hlast, hend⟩ rest, splitMarker_eq_none.2 hrest⟩

/-- What an evaluator says about other expressions makes no difference. -/
theorem expandRest_congr {eval' : List Char → Except EvalError Value} {s : List Char}
    (h : ∀ e ∈ asked eval s, eval' e = eval e) : expandRest eval' whole s = expandRest eval whole s := by
  cases hopen : splitMarker '{' '{' s with
  | none => rw [expandRest_of_eq_none hopen, expandRest_of_eq_none hopen]
  | some parts =>
    obtain ⟨before, after⟩ := parts
    cases hclose : splitMarker '}' '}' after with
    | none => rw [expandRest_of_unclosed hopen hclose, expandRest_of_unclosed hopen hclose]
    | some parts =>
      obtain ⟨inside, behind⟩ := parts
      -- Both sources are asked for the same expressions, in the same order.
      rw [asked_of_eq_some hopen hclose] at h
      cases hv : eval (trim inside) with
      | error err =>
        simp only [hv] at h
        have hsame : eval' (trim inside) = .error err := by rw [h _ List.mem_cons_self, hv]
        rw [expandRest_of_error hopen hclose hv, expandRest_of_error hopen hclose hsame]
      | ok v =>
        simp only [hv] at h
        have hsame : eval' (trim inside) = .ok v := by rw [h _ List.mem_cons_self, hv]
        have hrest := expandRest_congr fun e he => h e (List.mem_cons_of_mem _ he)
        rw [expandRest_of_eq_some hopen hclose hv, expandRest_of_eq_some hopen hclose hsame, hrest]
termination_by s.length
decreasing_by
  have h₁ := splitMarker_length hopen
  have h₂ := splitMarker_length hclose
  omega

/-- Expansion is one pass over a row of placeholders. The values take their places whatever their texts are, the first
failure ends it, and so does an opening marker that is never closed. Nothing but the expressions up to there is
evaluated. There are no other texts than such rows. -/
theorem expanded_once (h : Filled eval ps vs) (whole : List Char) :
    (∀ last, ¬['{', '{'] <:+: last →
      expandRest eval whole (writeAll ps ++ last) = .ok (filled ps vs ++ last) ∧
        asked eval (writeAll ps ++ last) = ps.map Segment.expr) ∧
    (∀ (p : Segment) (err : EvalError) (behind : List Char), eval p.expr = .error err →
      expandRest eval whole (writeAll ps ++ (p.write ++ behind)) = .error err ∧
        asked eval (writeAll ps ++ (p.write ++ behind)) = ps.map Segment.expr ++ [p.expr]) ∧
    (∀ last rest, ¬['{', '{'] <:+: last → ¬['}', '}'] <:+: rest →
      expandRest eval whole (writeAll ps ++ (last ++ '{' :: '{' :: rest)) =
          .error (.unterminatedPlaceholder (String.ofList whole)) ∧
        asked eval (writeAll ps ++ (last ++ '{' :: '{' :: rest)) = ps.map Segment.expr) ∧
    (∀ (eval' : List Char → Except EvalError Value) (s : List Char), (∀ e ∈ asked eval s, eval' e = eval e) →
      expandRest eval' whole s = expandRest eval whole s) ∧
    ∀ s, ∃ ps vs t, Filled eval ps vs ∧ s = writeAll ps ++ t ∧ Stops eval t := by
  refine ⟨?_, ?_, ?_, fun _ _ => expandRest_congr, exists_filled eval⟩
  · intro last hlast
    have hnone := splitMarker_eq_none.2 hlast
    rw [h.expandRest, h.asked, expandRest_of_eq_none hnone, asked_of_eq_none hnone, List.append_nil]
    exact ⟨rfl, rfl⟩
  · intro p err behind herr
    rw [h.expandRest, h.asked, Segment.expandRest_error behind herr, Segment.asked_error behind herr]
    exact ⟨rfl, rfl⟩
  · intro last rest hlast hrest
    obtain ⟨before, after, hopen, hclose⟩ := exists_unclosed hlast hrest
    rw [h.expandRest, h.asked, expandRest_of_unclosed hopen hclose, asked_of_unclosed hopen hclose, List.append_nil]
    exact ⟨rfl, rfl⟩

end Expansion

/-- Every name stands for an opening brace. -/
def braces : Lookup := fun _ => some (.str "\x7b")

/-- A value that forms an opening marker together with what follows it. -/
theorem expanded_once_joining :
    expand braces "{{ x }}{y}\x7d".toList = .ok "{{y}}".toList ∧
      expand braces "{{ x }}{y}\x7d{{}}{{ z }}".toList = .error .syntaxError ∧
      asked (Expr.evalText braces) "{{ x }}{y}\x7d{{}}{{ z }}".toList = ["x".toList, []] := by
  let p : Segment := ⟨[], " x ".toList, by decide, by decide⟩
  let q : Segment := ⟨"{y}\x7d".toList, [], by decide, by decide⟩
  have hfilled : Filled (Expr.evalText braces) [p] [.str "\x7b"] := .cons rfl .nil
  have hlast : ¬['{', '{'] <:+: "{y}\x7d".toList := by decide
  have hfail : Expr.evalText braces q.expr = .error .syntaxError := rfl
  obtain ⟨hok, -⟩ := expanded_once hfilled "{{ x }}{y}\x7d".toList
  obtain ⟨-, herror, -⟩ := expanded_once hfilled "{{ x }}{y}\x7d{{}}{{ z }}".toList
  obtain ⟨hfirst, hasked⟩ := herror q .syntaxError "{{ z }}".toList hfail
  exact ⟨(hok _ hlast).1, hfirst, hasked⟩

/-! ## Expressions in placeholders

An expression is read from a placeholder as it was written, unless the pair that ends the placeholder stands inside of
it. -/

/-- An expression between markers, with a space on either side and text around them. -/
def spliced (a e b : List Char) : List Char := a ++ '{' :: '{' :: ' ' :: (e ++ ' ' :: '}' :: '}' :: b)

section Expressions

variable {vars : Lookup} {e : List Char} {x : Expr} {v : Value} {a b : List Char}

theorem parse_ok_or (s : List Char) : (∃ x, Expr.parse s = .ok x) ∨ Expr.parse s = .error .syntaxError := by
  unfold Expr.parse
  split
  · next d r _ =>
    split_ifs
    · exact .inl ⟨d, rfl⟩
    · exact .inr rfl
  · exact .inr rfl

/-- An expression that a closing marker cuts off in the middle is none. -/
theorem parse_of_cut {s t : List Char} (h : Expr.parse (s ++ '}' :: t) = .ok x) :
    Expr.parse (trim (' ' :: s)) = .error .syntaxError := by
  refine (parse_ok_or _).resolve_left ?_
  rintro ⟨y, hy⟩
  -- what was read would close all its braces, and the one behind it closes none that is open
  have hpair := Expr.pair_of_parse h
  obtain ⟨l, r, hsplit, hl, hr⟩ := exists_trim (' ' :: s)
  have hblank : Expr.pair (0, .outside) (' ' :: s) = some (0, .outside) := by
    rw [hsplit, Expr.pair_append, Expr.pair_append, Expr.pair_of_unpaired (Expr.unpaired_of_blanks hl),
      Option.bind_some, Expr.pair_of_parse hy, Option.bind_some, Expr.pair_of_unpaired (Expr.unpaired_of_blanks hr)]
  have hs : Expr.pair (0, .outside) s = some (0, .outside) := hblank
  rw [Expr.pair_append, hs, Option.bind_some] at hpair
  cases hpair

/-- An expression without a closing marker is all that is inside of the placeholder. -/
theorem expand_spliced (hx : Expr.parse e = .ok x) (hv : Expr.eval vars x = .ok v) (ha : Clear '{' a)
    (hb : ¬['{', '{'] <:+: b) (he : ¬['}', '}'] <:+: e) :
    expand vars (spliced a e b) = .ok (a ++ v.chars ++ b) := by
  have hinside : Clear '}' (' ' :: (e ++ [' '])) := clear_cons (by decide) (clear_concat (by decide) he)
  have hsplit : spliced a e b = a ++ '{' :: '{' :: (' ' :: (e ++ [' ']) ++ '}' :: '}' :: b) := by simp [spliced]
  have hopen := splitMarker_clear ha (' ' :: (e ++ [' ']) ++ '}' :: '}' :: b)
  rw [← hsplit] at hopen
  have htrim : trim (' ' :: (e ++ [' '])) = trim e :=
    trim_blanks (l := [' ']) (r := [' ']) (by simp [Blanks, isBlank]) (by simp [Blanks, isBlank]) e
  have heval : Expr.evalText vars (trim (' ' :: (e ++ [' ']))) = .ok v := by
    rw [htrim, Expr.evalText, Expr.parse_trim hx]
    exact hv
  have hrest : expandRest (Expr.evalText vars) (spliced a e b) b = .ok b :=
    expandRest_of_eq_none (splitMarker_eq_none.2 hb)
  rw [expand, expandRest_of_eq_some hopen (splitMarker_clear hinside b) heval, hrest]
  rfl

/-- An expression with a closing marker in it is cut off there. -/
theorem expand_cut (hx : Expr.parse e = .ok x) (ha : Clear '{' a) (he : ['}', '}'] <:+: e) :
    expand vars (spliced a e b) = .error .syntaxError := by
  cases hclose : splitMarker '}' '}' e with
  | none => exact absurd he (splitMarker_eq_none.1 hclose)
  | some parts =>
    obtain ⟨s, t⟩ := parts
    obtain ⟨rfl, hs⟩ := splitMarker_eq_some_iff.1 hclose
    -- the first marker of the expression is the first one behind the opening marker
    have hinside : Clear '}' (' ' :: s) := clear_cons (by decide) hs
    have hopen := splitMarker_clear ha (' ' :: s ++ '}' :: '}' :: (t ++ ' ' :: '}' :: '}' :: b))
    have hsplit : spliced a (s ++ '}' :: '}' :: t) b =
        a ++ '{' :: '{' :: (' ' :: s ++ '}' :: '}' :: (t ++ ' ' :: '}' :: '}' :: b)) := by simp [spliced]
    rw [← hsplit] at hopen
    have heval : Expr.evalText vars (trim (' ' :: s)) = .error .syntaxError := by
      rw [Expr.evalText, parse_of_cut hx]
    exact expandRest_of_error hopen (splitMarker_clear hinside _) heval

theorem exists_value {cs : List Char} (h : (Expr.evalText vars e).toOption.map Value.chars = some cs) :
    ∃ x v, Expr.parse e = .ok x ∧ Expr.eval vars x = .ok v ∧ v.chars = cs := by
  obtain ⟨v, hv, hcs⟩ := Option.map_eq_some_iff.1 h
  unfold Expr.evalText at hv
  split at hv
  · next x hx =>
    cases heval : Expr.eval vars x with
    | error err =>
      rw [heval] at hv
      cases hv
    | ok w =>
      rw [heval] at hv
      cases hv
      exact ⟨x, v, hx, heval, hcs⟩
  · cases hv

/-- An expression in a placeholder is replaced by the text of its value, unless two closing braces stand next to each
other in it. Then it is cut off between an object or a text and its end, and what is left is no expression. -/
theorem placeholder_iff (hx : Expr.parse e = .ok x) (hv : Expr.eval vars x = .ok v) (ha : Clear '{' a)
    (hb : ¬['{', '{'] <:+: b) :
    (expand vars (spliced a e b) = .ok (a ++ v.chars ++ b) ↔ ¬['}', '}'] <:+: e) ∧
      (expand vars (spliced a e b) = .error .syntaxError ↔ ['}', '}'] <:+: e) := by
  by_cases he : ['}', '}'] <:+: e
  · rw [expand_cut hx ha he]
    simp [he]
  · rw [expand_spliced hx hv ha hb he]
    simp [he]

end Expressions

/-- Nothing has a name. -/
def nameless : Lookup := fun _ => none

/-- An object in a placeholder, with a closing brace behind it. -/
theorem placeholder_iff_object :
    expand nameless (spliced ['a'] "{b: 1}".toList ['}']) = .ok "a\x7b\"b\":1\x7d\x7d".toList := by
  have hvalue : (Expr.evalText nameless "{b: 1}".toList).toOption.map Value.chars =
      some "\x7b\"b\":1\x7d".toList := by decide +kernel
  obtain ⟨x, v, hx, hv, hchars⟩ := exists_value hvalue
  have hfree : ¬['}', '}'] <:+: "{b: 1}".toList := by decide +kernel
  obtain ⟨hok, -⟩ := placeholder_iff (a := ['a']) (b := ['}']) hx hv (by decide) (by decide)
  have hexpand := hok.2 hfree
  rw [hchars] at hexpand
  exact hexpand

/-- An object inside of an object has its value, but not in a placeholder. -/
theorem nested_object_cut :
    ∃ x v, Expr.parse "{a: {b: 1}}".toList = .ok x ∧ Expr.eval nameless x = .ok v ∧
      v.chars = "\x7b\"a\":\x7b\"b\":1\x7d\x7d".toList ∧
      expand nameless (spliced [] "{a: {b: 1}}".toList []) = .error .syntaxError := by
  have hvalue : (Expr.evalText nameless "{a: {b: 1}}".toList).toOption.map Value.chars =
      some "\x7b\"a\":\x7b\"b\":1\x7d\x7d".toList := by decide +kernel
  obtain ⟨x, v, hx, hv, hchars⟩ := exists_value hvalue
  have hmarker : ['}', '}'] <:+: "{a: {b: 1}}".toList := by decide +kernel
  exact ⟨x, v, hx, hv, hchars, expand_cut hx (by decide) hmarker⟩

end Template
end Sequencer
