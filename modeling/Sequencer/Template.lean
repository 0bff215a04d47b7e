import Sequencer.Expr.Eval

/-!
# Placeholders

Expansion of the placeholders `{{ … }}` in a text. The text is read once from left to
right: a placeholder ends at the first closing marker after its opening one, its value takes its
place, and reading goes on behind it, so that no value is ever read again.
-/

namespace Sequencer.Template

open Text

/-- Expands what is left of `whole`. -/
def expandRest (eval : List Char → Except EvalError Value) (whole rest : List Char) :
    Except EvalError (List Char) :=
  match _hOpen : splitMarker '{' '{' rest with
  | none => .ok rest
  | some (before, after) =>
    match _hClose : splitMarker '}' '}' after with
    | none => .error (.unterminatedPlaceholder (String.ofList whole))
    | some (inside, behind) =>
      match eval (trim inside) with
      | .error e => .error e
      | .ok v =>
        match expandRest eval whole behind with
        | .error e => .error e
        | .ok tail => .ok (before ++ v.chars ++ tail)
termination_by rest.length
decreasing_by
  have h₁ := splitMarker_length _hOpen
  have h₂ := splitMarker_length _hClose
  omega

/-- The text with every placeholder replaced by the text of its value. -/
def expand (vars : Lookup) (text : List Char) : Except EvalError (List Char) :=
  expandRest (Expr.evalText vars) text text

end Sequencer.Template
