import Sequencer.Proofs.Checking
import Sequencer.Proofs.Dotted
import Sequencer.Proofs.Homes
import Sequencer.Proofs.Occupancy
import Sequencer.Proofs.Return

/-!
# What a decorated name mentions

Any text can be the name of a variable, but not every variable can be read under its own name. If the text has blanks
around it, a level in front, a path behind or stands in quotes, then it is the decorated name of something else, and
what is read under it has nothing to do with the variable. This is so for an expression too, which mentions nothing but
names of the grammar.
-/

namespace Sequencer

/-! ## Expressions

The value of an expression depends on the names in it only. A name that is looked up stands in its text. -/

namespace Expr

/-- What is read as a name is a name of the grammar. -/
theorem isName_of_readName {s r : List Char} {x : String} (h : readName s = some (x, r)) : IsName x.toList := by
  cases s with
  | nil => cases h
  | cons c s =>
    rw [readName] at h
    split_ifs at h with hc
    rw [List.span_eq_takeWhile_dropWhile] at h
    cases h
    rw [String.toList_ofList]
    exact ⟨hc, fun d hd => List.mem_takeWhile_imp hd⟩

variable {v w : Lookup}

/-- The tree that a phrase goes on from has the same value with two lookups. -/
def Phrase.Same (v w : Lookup) : Phrase → Prop
  | .rest _ l => eval v l = eval w l
  | .access e => eval v e = eval w e
  | _ => True

/-- What has come of a phrase has the same value with two lookups. -/
def Yield.Same (v w : Lookup) : Yield → Prop
  | .tree e => eval v e = eval w e
  | .items es => evalItems v es = evalItems w es
  | .entries fields => evalFields v fields = evalFields w fields

theorem eval_ofWord {x : String} (h : v x = w x) : eval v (ofWord x) = eval w (ofWord x) := by
  unfold ofWord
  split_ifs
  · rfl
  · rfl
  · rfl
  · rw [eval, eval, h]

/-- Every name in a tree that was derived is one of the grammar. The induction is on the rules, and only one of them
makes a name. -/
theorem Derives.same (hvars : ∀ x : String, IsName x.toList → v x = w x) {ph : Phrase} {s r : List Char} {y : Yield}
    (h : Derives ph s y r) (hph : ph.Same v w) : y.Same v w := by
  -- The rule for words is the only one in which a name is looked up; all others pass on what holds of their parts.
  induction h with
  | plain _ _ ih => exact ih trivial
  | cond _ _ _ _ _ ihc iha ihb =>
    have hc := ihc trivial
    have ha := iha trivial
    have hb := ihb trivial
    simp only [Yield.Same, eval] at hc ha hb ⊢
    rw [hc, ha, hb]
  | binary _ _ _ ihl ihr => exact ihr (ihl trivial)
  | tightest _ _ ih => exact ih trivial
  | noOperator _ => exact hph
  -- the operators read so far are part of the tree that the rest is read for
  | operator _ _ _ ihd ihrest =>
    have hd := ihd trivial
    refine ihrest ?_
    simp only [Yield.Same, Phrase.Same, eval] at hd hph ⊢
    rw [hph, hd]
  | prefixed _ _ ih =>
    have he := ih trivial
    simp only [Yield.Same, eval] at he ⊢
    rw [he]
  | operand _ _ _ ihd ihrest => exact ihrest (ihd trivial)
  | noAccess _ => exact hph
  -- the same for accesses
  | member _ _ _ ih =>
    refine ih ?_
    simp only [Phrase.Same, eval] at hph ⊢
    rw [hph]
  | index _ _ _ _ ihi ihrest =>
    have hi := ihi trivial
    refine ihrest ?_
    simp only [Yield.Same, Phrase.Same, eval] at hi hph ⊢
    rw [hph, hi]
  | quoted _ _ => rfl
  | number _ _ => rfl
  | word hs => exact eval_ofWord (hvars _ (isName_of_readName hs))
  | brackets _ _ ih => exact ih trivial
  | emptyList _ => rfl
  | list _ _ ih =>
    have hes := ih trivial
    simp only [Yield.Same, eval] at hes ⊢
    rw [hes]
  | emptyRecord _ => rfl
  | record _ _ ih =>
    have hfields := ih trivial
    simp only [Yield.Same, eval] at hfields ⊢
    rw [hfields]
  | lastItem _ _ ih =>
    have he := ih trivial
    simp only [Yield.Same, evalItems] at he ⊢
    rw [he]
  | item _ _ _ ih ihes =>
    have he := ih trivial
    have hes := ihes trivial
    simp only [Yield.Same, evalItems] at he hes ⊢
    rw [he, hes]
  | lastEntry _ _ _ _ ih =>
    have he := ih trivial
    simp only [Yield.Same, evalFields] at he ⊢
    rw [he]
  | entry _ _ _ _ _ ih ihfields =>
    have he := ih trivial
    have hfields := ihfields trivial
    simp only [Yield.Same, evalFields] at he hfields ⊢
    rw [he, hfields]

/-- The value of a text depends on no other variables than those with names of the grammar. -/
theorem evalText_congr (hvars : ∀ x : String, IsName x.toList → v x = w x) (s : List Char) :
    evalText v s = evalText w s := by
  unfold evalText
  cases hs : parse s with
  | error err => rfl
  | ok e =>
    obtain ⟨r, hderives, -⟩ := parse_eq_ok_iff.1 hs
    exact hderives.same hvars trivial

end Expr

/-! ## Decorated names

A decorated name means a variable whose name stands in its text as well. -/

namespace Text

/-- To trim adds nothing. -/
theorem length_trim_le (s : List Char) : (trim s).length ≤ s.length := by
  obtain ⟨l, r, hs, -, -⟩ := exists_trim s
  have hlength := congrArg List.length hs
  simp only [List.length_append] at hlength
  omega

/-- A text that is as long as before has lost nothing. -/
theorem trim_of_length_le {s : List Char} (h : s.length ≤ (trim s).length) : trim s = s := by
  obtain ⟨l, r, hs, -, -⟩ := exists_trim s
  have hlength := congrArg List.length hs
  simp only [List.length_append] at hlength
  obtain rfl : l = [] := List.eq_nil_of_length_eq_zero (by omega)
  obtain rfl : r = [] := List.eq_nil_of_length_eq_zero (by omega)
  rw [List.nil_append, List.append_nil] at hs
  exact hs.symm

end Text

namespace Address

open Text

variable {s : List Char} {k : String} {a : Address} {level : Level} {bucket rest : List Char} {plain fatal paths : Bool}

theorem length_unquote? {inner : List Char} (h : unquote? s = some inner) : inner.length < s.length := by
  unfold unquote? at h
  split at h
  · next r =>
    rw [dropTail?_eq_some.1 h]
    simp only [List.length_cons, List.length_append]
    omega
  · cases h

/-- The forms of a decorated name: quoted, with a selector in front of a colon, or neither. -/
theorem parse_eq_ok (h : parse s = .ok a) :
    (∃ inner, unquote? (trim s) = some inner ∧ a = ⟨.quoted, "", String.ofList inner, none, true⟩) ∨
    (∃ selector rest level bucket plain fatal,
      trim s = selector ++ ':' :: rest ∧ ofParts level bucket plain fatal rest = .ok a) ∨
    (unquote? (trim s) = none ∧ ':' ∉ trim s ∧ ofParts .current [] false true (trim s) = .ok a) := by
  unfold parse at h
  simp only at h
  split_ifs at h
  split at h
  · next inner hinner =>
    cases h
    exact .inl ⟨inner, hinner, rfl⟩
  · next hquote =>
    split at h
    · next selector rest hsplit =>
      split at h
      · exact .inr (.inl ⟨selector, rest, _, _, _, _, (splitFirst_eq_some hsplit).1, h⟩)
      · cases h
    · next hsplit => exact .inr (.inr ⟨hquote, splitFirst_eq_none.1 hsplit, h⟩)

/-- What is in front of a path is a part of the text, and the whole text only if it has no path and no blanks. -/
theorem splitPath_fst (paths : Bool) (s : List Char) : (splitPath paths s).1.length ≤ s.length ∧
    (paths = true → s.length ≤ (splitPath paths s).1.length → '.' ∉ s ∧ trim s = s) := by
  unfold splitPath
  split
  · next name path hsplit =>
    split_ifs at hsplit
    obtain ⟨hs, -⟩ := splitFirst_eq_some hsplit
    have hlength := congrArg List.length hs
    have hle := length_trim_le name
    simp only [List.length_append, List.length_cons] at hlength
    exact ⟨by simp only; omega, fun _ hlong => absurd hlong (by simp only; omega)⟩
  · next hsplit =>
    refine ⟨length_trim_le s, ?_⟩
    rintro rfl hlong
    exact ⟨splitFirst_eq_none.1 hsplit, trim_of_length_le hlong⟩

theorem ofParts_eq_ok (h : ofParts level bucket plain fatal rest = .ok a) : a.level = level ∧
    ((level = .expression ∨ level = .literal) ∧ a.name = String.ofList (trim rest) ∨
      a.name = String.ofList (splitPath (!plain && level.hasPaths) rest).1 ∧ a.name ≠ "") := by
  unfold ofParts at h
  split_ifs at h with hlevel
  · cases h
    exact ⟨rfl, .inl ⟨hlevel, rfl⟩⟩
  · simp only at h
    split_ifs at h with hempty
    cases h
    refine ⟨rfl, .inr ⟨rfl, ?_⟩⟩
    simpa using hempty

/-- A name that is mentioned by itself is plain. All the other forms mention a part of themselves. -/
theorem isPlain_of_name (h : parse k.toList = .ok a) (hname : a.name = k) : IsPlain k := by
  have hlength : k.toList.length = a.name.toList.length := by rw [hname]
  have htrim := length_trim_le k.toList
  obtain ⟨inner, hquote, rfl⟩ | ⟨selector, rest, level, bucket, plain, fatal, hsplit, hparts⟩ |
    ⟨hquote, hcolon, hparts⟩ := parse_eq_ok h
  · have hshort := length_unquote? hquote
    rw [String.toList_ofList] at hlength
    omega
  · have hlong := congrArg List.length hsplit
    have hshort : a.name.toList.length ≤ rest.length := by
      obtain ⟨-, ⟨-, hn⟩ | ⟨hn, -⟩⟩ := ofParts_eq_ok hparts
      · rw [hn, String.toList_ofList]
        exact length_trim_le rest
      · rw [hn, String.toList_ofList]
        exact (splitPath_fst _ rest).1
    simp only [List.length_append, List.length_cons] at hlong
    omega
  · obtain ⟨-, ⟨hlevel, -⟩ | ⟨hn, hne⟩⟩ := ofParts_eq_ok hparts
    · rcases hlevel with hlevel | hlevel <;> cases hlevel
    · rw [hn, String.toList_ofList] at hlength
      obtain ⟨hshort, hwhole⟩ := splitPath_fst true (trim k.toList)
      have hk : trim k.toList = k.toList := trim_of_length_le (hlength.le.trans hshort)
      obtain ⟨hpoint, -⟩ := hwhole rfl (htrim.trans hlength.le)
      rw [hname] at hne
      rw [hk] at hquote hcolon hpoint
      exact ⟨hk, by simpa using hne, hquote, hcolon, hpoint⟩

/-- An expression is behind a colon. -/
theorem colon_of_expression (h : parse k.toList = .ok a) (hlevel : a.level = .expression) : ':' ∈ k.toList := by
  obtain ⟨inner, -, rfl⟩ | ⟨selector, rest, level, bucket, plain, fatal, hsplit, -⟩ | ⟨-, -, hparts⟩ := parse_eq_ok h
  · cases hlevel
  · refine mem_of_mem_trim ?_
    rw [hsplit]
    simp
  · rw [(ofParts_eq_ok hparts).1] at hlevel
    cases hlevel

end Address

/-! ## Machines that differ in one name

Two machines that differ in the value of one name cannot be told apart by anything that does not mention it. -/

namespace Machine

variable {σ : Type} {k : String} {m n : Machine σ}

/-- One machine has other values than the other in variables of a name, and is the same otherwise. -/
structure AlikeBut (k : String) (m n : Machine σ) : Prop where
  thread : n.thread = m.thread
  store : n.store = m.store
  request : n.request = { m.request with scopes := n.scopes }
  links : n.scopes.bare = m.scopes.bare
  vars : ∀ id x, x ≠ k → n.scopes.getLocal? id x = m.scopes.getLocal? id x

namespace AlikeBut

variable {x : String} {a : Address}

theorem root (h : AlikeBut k m n) : n.request.root = m.request.root := by rw [h.request]

theorem session (h : AlikeBut k m n) : n.request.session = m.request.session := by rw [h.request]

theorem currentScope (h : AlikeBut k m n) : n.currentScope = m.currentScope := by
  rw [currentScope_eq, currentScope_eq, h.root, frames, h.thread]
  rfl

/-- Other names are found in the same scopes. The induction is on how many scopes are left to look in. -/
theorem getFrom (h : AlikeBut k m n) (hx : x ≠ k) (fuel : Nat) (o : Option ScopeId) :
    n.scopes.getFrom fuel o x = m.scopes.getFrom fuel o x := by
  induction fuel generalizing o with
  | zero => rfl
  | succ fuel ih =>
    cases o with
    | none => rfl
    | some id =>
      rw [Arena.getFrom_some, Arena.getFrom_some, h.vars id x hx, Arena.parent?_congr h.links, ih]

theorem lookupIn (h : AlikeBut k m n) (hx : x ≠ k) (scope : ScopeId) : n.lookupIn scope x = m.lookupIn scope x := by
  have hget : n.scopes.get? scope x = m.scopes.get? scope x := by
    unfold Arena.get?
    rw [Arena.size_of_bare h.links]
    exact h.getFrom hx _ _
  rw [lookupIn_eq, lookupIn_eq, hget, h.store]

theorem lookup (h : AlikeBut k m n) (hx : x ≠ k) : n.lookup x = m.lookup x := by
  unfold Machine.lookup
  rw [h.currentScope]
  exact h.lookupIn hx _

/-- An expression cannot mention a name that is none of the grammar. -/
theorem eval (h : AlikeBut k m n) (hk : ¬Expr.IsName k.toList) (text : String) : n.eval text = m.eval text := by
  refine Expr.evalText_congr (fun x hx => h.lookup ?_) _
  rintro rfl
  exact hk hx

theorem fetchFrom (h : AlikeBut k m n) (p : Provider) (bucket : String) (hx : x ≠ k) :
    n.fetchFrom p bucket x = m.fetchFrom p bucket x := by
  have hsession : n.session? x = m.session? x := by
    unfold session?
    rw [h.session, h.store]
  unfold Machine.fetchFrom
  cases p with
  | session => simp only [hsession]
  | map => simp only [h.store]
  | global => simp only [h.store]
  | request =>
    have hglobal : n.request.global? x = m.request.global? x := by
      have hlocal := h.vars m.request.root x hx
      unfold Request.global?
      rw [h.root]
      exact hlocal
    simp only [hglobal]
  | log => rfl
  | error => rfl

/-- An address of another name is read in the same way. -/
theorem fetch (h : AlikeBut k m n) (ha : a.name ≠ k) (hk : a.level = .expression → ¬Expr.IsName k.toList) :
    n.fetch a = m.fetch a := by
  unfold Machine.fetch
  cases hl : a.level with
  | quoted => rfl
  | literal => rfl
  | expression => simp only [h.eval (hk hl)]
  | provider p => simp only [h.fetchFrom p a.bucket ha]
  | current => simp only [h.lookup ha]
  | ancestor j =>
    have hscope : n.scopes.ancestor? n.currentScope j = m.scopes.ancestor? m.currentScope j := by
      rw [h.currentScope, Arena.ancestor?_congr h.links]
    simp only [hscope, h.lookupIn ha]

/-- What is read under a name that is not plain does not depend on the variable of that name. -/
theorem read (h : AlikeBut k m n) (hk : ¬Address.IsPlain k) : (n.read k).2 = (m.read k).2 := by
  unfold Machine.read
  cases hparse : Address.parse k.toList with
  | error e => rfl
  | ok a =>
    have ha : a.name ≠ k := fun hname => hk (Address.isPlain_of_name hparse hname)
    have hexpr : a.level = .expression → ¬Expr.IsName k.toList :=
      fun hl hname => hname.notMem rfl (Address.colon_of_expression hparse hl)
    show (n.readAddress a).2 = (m.readAddress a).2
    unfold readAddress
    rw [h.fetch ha hexpr]
    cases m.fetch a with
    | ok found => rfl
    | error e =>
      simp only [settle]
      split_ifs <;> rfl

end AlikeBut

end Machine
end Sequencer
