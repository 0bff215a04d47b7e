import Sequencer.Proofs.Failing
import Sequencer.Proofs.Placeholders
import Sequencer.Proofs.Selection

/-!
# Dotted names

A name with fields behind it, such as `user.address.city`, is a decorated name and the text of an expression. The two
are read apart from each other. The decorated name is a variable with a path into it, and there is nothing at the end
of the path as soon as one part is missing. The expression is a chain of accesses, each of which takes a part of what
the one before has come to, and goes on from nothing where that part is missing. Since nothing has no parts, both come
to the same.
-/

namespace Sequencer

/-! ## Texts

A dotted name is a row of names with dots between them, and can be cut at each dot. -/

namespace Text

/-- A text is cut behind its first part. -/
theorem splitAll_append {sep : Char} {a : List Char} (b : List Char) (h : sep ∉ a) :
    splitAll sep (a ++ sep :: b) = a :: splitAll sep b := by
  induction a with
  | nil => rw [List.nil_append, splitAll, if_pos rfl]
  | cons c r ih =>
    rw [List.mem_cons, not_or] at h
    rw [List.cons_append, splitAll, if_neg (Ne.symm h.1), ih h.2]

theorem trim_of_bare {s : List Char} (h : ∀ c ∈ s, Expr.Bare c) : trim s = s := by
  cases hs : s.head? with
  | none =>
    rw [List.head?_eq_none_iff.1 hs]
    rfl
  | some c =>
    have hne : s ≠ [] := by
      rintro rfl
      cases hs
    exact trim_of_not_blank (h c (List.mem_of_mem_head? hs)).1 (h _ (List.getLast_mem hne)).1 hs
      (List.getLast?_eq_some_getLast hne)

end Text

/-- Fields behind a name, each with a point in front. -/
def dots (fields : List String) : List Char := fields.flatMap fun f => '.' :: f.toList

/-- A name with fields behind it. -/
def dotted (x : String) (fields : List String) : String := String.ofList (x.toList ++ dots fields)

example : dotted "user" ["address", "city"] = "user.address.city" := by decide

theorem toList_dotted (x : String) (fields : List String) : (dotted x fields).toList = x.toList ++ dots fields :=
  String.toList_ofList

theorem dots_cons (f : String) (fields : List String) : dots (f :: fields) = '.' :: (dotted f fields).toList := by
  rw [toList_dotted]
  rfl

/-! ### Their characters

None of the names has a dot, a blank or a mark in it. So the marks of a decorated name do not come up. -/

namespace Expr

instance : (w : List Char) → Decidable (IsName w)
  | [] => inferInstanceAs (Decidable False)
  | c :: r => decidable_of_iff (isNameStart c ∧ r.all isNameChar) (and_congr_right fun _ => List.all_eq_true)

theorem IsName.ne_nil {w : List Char} (h : IsName w) : w ≠ [] := by
  rintro rfl
  exact h

theorem IsName.isNameChar {w : List Char} (h : IsName w) {c : Char} (hc : c ∈ w) : isNameChar c = true := by
  cases w with
  | nil => exact h.elim
  | cons d r =>
    rcases List.mem_cons.1 hc with rfl | hc
    · exact isNameChar_of_start h.1
    · exact h.2 c hc

theorem IsName.notMem {w : List Char} (h : IsName w) {c : Char} (hc : Expr.isNameChar c = false) : c ∉ w := by
  intro hmem
  rw [h.isNameChar hmem] at hc
  cases hc

end Expr

open Sequencer.Expr Text

section Names

variable {x : String} {fields : List String} (hx : IsName x.toList) (hfields : ∀ f ∈ fields, IsName f.toList)

include hx hfields

/-- The characters of a dotted name are those of names, and points. -/
theorem mem_dotted {c : Char} (hc : c ∈ (dotted x fields).toList) : isNameChar c = true ∨ c = '.' := by
  rw [toList_dotted, List.mem_append] at hc
  rcases hc with hc | hc
  · exact .inl (hx.isNameChar hc)
  · obtain ⟨f, hf, hc⟩ := List.mem_flatMap.1 hc
    rcases List.mem_cons.1 hc with rfl | hc
    · exact .inr rfl
    · exact .inl ((hfields f hf).isNameChar hc)

theorem notMem_dotted {c : Char} (hname : isNameChar c = false) (hpoint : c ≠ '.') : c ∉ (dotted x fields).toList := by
  intro hmem
  rcases mem_dotted hx hfields hmem with h | h
  · rw [hname] at h
    cases h
  · exact hpoint h

theorem bare_dotted : ∀ c ∈ (dotted x fields).toList, Bare c := by
  intro c hc
  rcases mem_dotted hx hfields hc with hname | rfl
  · exact bare_of_isNameChar hname
  · decide

theorem trim_dotted : trim (dotted x fields).toList = (dotted x fields).toList :=
  trim_of_bare (bare_dotted hx hfields)

omit hfields in
theorem dotted_ne_nil : (dotted x fields).toList ≠ [] := by
  rw [toList_dotted]
  exact List.append_ne_nil_of_left_ne_nil hx.ne_nil _

end Names

section Reading

variable {x : String} {fields : List String}

/-! ## The decorated name

As a decorated name it is the first name, with the path of the others. -/

/-- At its points the text falls into the name and the fields. -/
theorem splitAll_dotted (h : ∀ f ∈ x :: fields, '.' ∉ f.toList) :
    splitAll '.' (dotted x fields).toList = (x :: fields).map String.toList := by
  rw [toList_dotted]
  induction fields generalizing x with
  | nil =>
    rw [dots, List.flatMap_nil, List.append_nil]
    exact splitAll_of_notMem (h x List.mem_cons_self)
  | cons f fields ih =>
    rw [dots_cons, splitAll_append _ (h x List.mem_cons_self), toList_dotted,
      ih fun g hg => h g (List.mem_cons_of_mem x hg)]
    rfl

/-- The segments of a dotted name are its parts. -/
theorem pathSegments_dotted (h : ∀ f ∈ x :: fields, IsName f.toList) :
    pathSegments (dotted x fields).toList = x :: fields := by
  have hsplit := splitAll_dotted fun f hf => (h f hf).notMem (c := '.') rfl
  have htrim : (x :: fields).map (fun f => trim f.toList) = (x :: fields).map String.toList :=
    List.map_congr_left fun f hf => trim_of_bare fun c hc => bare_of_isNameChar ((h f hf).isNameChar hc)
  have hkeep : ((x :: fields).map String.toList).filter (fun part => !part.isEmpty) =
      (x :: fields).map String.toList := by
    refine List.filter_eq_self.2 fun part hpart => ?_
    obtain ⟨f, hf, rfl⟩ := List.mem_map.1 hpart
    simpa using (h f hf).ne_nil
  have hback : (x :: fields).map (fun f => String.ofList f.toList) = x :: fields := by
    simp only [String.ofList_toList, List.map_id']
  rw [pathSegments, trimmedParts, hsplit, List.map_map]
  show (((x :: fields).map fun f => trim f.toList).filter _).map _ = _
  rw [htrim, hkeep, List.map_map]
  exact hback

/-- A bare text has no quotes. -/
theorem unquote?_of_bare {s : List Char} (h : ∀ c ∈ s, Bare c) : Address.unquote? s = none := by
  unfold Address.unquote?
  split
  · exact absurd (by decide) (h '\'' List.mem_cons_self).2
  · rfl

/-- The path into a variable for some fields, if there are any. -/
def fieldPath : List String → Option String
  | [] => none
  | f :: fields => some (dotted f fields)

theorem splitPath_dotted (hx : IsName x.toList) (hfields : ∀ f ∈ fields, IsName f.toList) :
    Address.splitPath true (dotted x fields).toList = (x.toList, (fieldPath fields).map String.toList) := by
  have htrim : trim x.toList = x.toList := trim_of_bare fun c hc => bare_of_isNameChar (hx.isNameChar hc)
  have hpoint : '.' ∉ x.toList := hx.notMem rfl
  unfold Address.splitPath
  rw [if_pos rfl, toList_dotted]
  cases fields with
  | nil =>
    rw [dots, List.flatMap_nil, List.append_nil, splitFirst_eq_none.2 hpoint]
    simp only [htrim]
    rfl
  | cons f fields =>
    have hf := hfields f List.mem_cons_self
    have hpath := trim_dotted hf fun g hg => hfields g (List.mem_cons_of_mem f hg)
    have hne : (dotted f fields).toList.isEmpty = false := by simpa using dotted_ne_nil hf
    -- The first point is the one behind the name, which has none.
    rw [dots_cons, splitFirst_append _ hpoint]
    simp only [htrim, hpath, hne]
    rfl

/-- The first part of a dotted name is a variable of the default level, and the others are a path into it. -/
theorem parse_dotted (hx : IsName x.toList) (hfields : ∀ f ∈ fields, IsName f.toList) :
    Address.parse (dotted x fields).toList = .ok ⟨.current, "", x, fieldPath fields, true⟩ := by
  have hempty : (dotted x fields).toList.isEmpty = false := by simpa using dotted_ne_nil hx
  have hcolon : ':' ∉ (dotted x fields).toList := notMem_dotted hx hfields rfl (by decide)
  have hname : x.toList.isEmpty = false := by simpa using hx.ne_nil
  unfold Address.parse
  simp only [trim_dotted hx hfields, hempty, unquote?_of_bare (bare_dotted hx hfields), splitFirst_eq_none.2 hcolon,
    Bool.false_eq_true, if_false]
  have hpaths : (!false && Level.current.hasPaths) = true := rfl
  unfold Address.ofParts
  rw [if_neg (by simp), hpaths, splitPath_dotted hx hfields]
  simp [hname]

/-! ## The expression

As an expression it is the first name, with one access for each of the others. -/

/-- The accesses to some fields, one after the other. -/
def accesses (e : Expr) (fields : List String) : Expr := fields.foldl .member e

theorem ofWord_of_notMem (hx : x ∉ reserved) : ofWord x = .name x := by
  unfold reserved at hx
  simp only [List.mem_cons, List.not_mem_nil, or_false, not_or] at hx
  obtain ⟨htrue, hfalse, hnull, hundefined⟩ := hx
  unfold ofWord
  rw [if_neg htrue, if_neg hfalse, if_neg (not_or.2 ⟨hnull, hundefined⟩)]

/-- A name ends at the first point. -/
theorem readName_dotted (hx : IsName x.toList) (fields : List String) :
    readName (dotted x fields).toList = some (x, dots fields) := by
  have hstop : (dots fields).takeWhile isNameChar = [] ∧ (dots fields).dropWhile isNameChar = dots fields := by
    cases fields with
    | nil => exact ⟨rfl, rfl⟩
    | cons f fields => exact ⟨rfl, rfl⟩
  rw [toList_dotted]
  cases hlist : x.toList with
  | nil => exact absurd hlist hx.ne_nil
  | cons c r =>
    have hback : String.ofList (c :: r) = x := by rw [← hlist, String.ofList_toList]
    rw [hlist] at hx
    rw [List.cons_append, readName, if_pos hx.1, List.span_eq_takeWhile_dropWhile, List.takeWhile_append_of_pos hx.2,
      List.dropWhile_append_of_pos hx.2, hstop.1, hstop.2, List.append_nil]
    simp only [hback]

theorem skipSpace_dotted (hx : IsName x.toList) (fields : List String) :
    skipSpace (dotted x fields).toList = (dotted x fields).toList := by
  rw [toList_dotted]
  cases hlist : x.toList with
  | nil => exact absurd hlist hx.ne_nil
  | cons c r =>
    rw [hlist] at hx
    exact skipSpace_of_not_blank (bare_of_isNameChar (hx.isNameChar List.mem_cons_self)).1 _

/-- Behind an expression the fields are accesses to it. -/
theorem derives_dots (hfields : ∀ f ∈ fields, IsName f.toList) (d : Expr) :
    Derives (.access d) (dots fields) (.tree (accesses d fields)) [] := by
  induction fields generalizing d with
  | nil => exact .noAccess fun c t hs => by cases hs
  | cons f fields ih =>
    have hf := hfields f List.mem_cons_self
    have hname : readName (skipSpace (dotted f fields).toList) = some (f, dots fields) := by
      rw [skipSpace_dotted hf, readName_dotted hf]
    have hpoint : skipSpace (dots (f :: fields)) = '.' :: (dotted f fields).toList := by
      rw [dots_cons]
      rfl
    exact .member hpoint hname (ih (fun g hg => hfields g (List.mem_cons_of_mem f hg)) (.member d f))

/-- What takes up a whole text as an operand does so at every level of operators. -/
theorem derives_binary {s : List Char} {e : Expr} (h : Derives .prefixed s (.tree e) []) (n : Nat) :
    ∀ level, level + n = operatorLevels → Derives (.binary level) s (.tree e) [] := by
  -- the induction is on the number of levels that bind tighter
  induction n with
  | zero =>
    intro level hlevel
    exact .tightest (by omega) h
  | succ n ih =>
    intro level hlevel
    exact .binary (by omega) (ih (level + 1) (by omega)) (.noOperator (readOperator_nil level))

/-- A dotted name is the expression of its accesses. -/
theorem parse_accesses (hx : IsName x.toList) (hword : x ∉ reserved) (hfields : ∀ f ∈ fields, IsName f.toList) :
    Expr.parse (dotted x fields).toList = .ok (accesses (.name x) fields) := by
  have hfront : Avoids (dotted x fields).toList ['!', '-'] := by
    intro c t hs hc
    rw [skipSpace_dotted hx] at hs
    have hmem : c ∈ (dotted x fields).toList := by
      rw [hs]
      exact List.mem_cons_self
    rcases List.mem_pair.1 hc with rfl | rfl
    · exact notMem_dotted hx hfields rfl (by decide) hmem
    · exact notMem_dotted hx hfields rfl (by decide) hmem
  have hprimary : Derives .primary (skipSpace (dotted x fields).toList) (.tree (.name x)) (dots fields) := by
    rw [skipSpace_dotted hx, ← ofWord_of_notMem hword]
    exact .word (readName_dotted hx fields)
  have hoperand := Derives.operand hfront hprimary (derives_dots hfields (.name x))
  exact parse_eq_ok_iff.2 ⟨[], .plain (derives_binary hoperand operatorLevels 0 rfl) (fun c t hs => by cases hs), rfl⟩

end Reading

/-! ## Parts of parts

Reading at a path goes through the same parts as the accesses one after the other. -/

section Parts

variable {fields : List String}

/-- What an access gives is the part that the field names. -/
theorem part_field {f : String} (hf : IsName f.toList) (hlength : f ≠ "length") (v : Value) :
    part v f = (v.child? f).getD .null := by
  have hne : f ≠ "" := by
    rintro rfl
    exact hf
  have htrim : trim f.toList = f.toList := trim_of_bare fun c hc => bare_of_isNameChar (hf.isNameChar hc)
  have hsegments : pathSegments f.toList = [f] := pathSegments_eq_singleton_iff.2 ⟨hne, hf.notMem rfl, htrim⟩
  have hpath : part v f = (v.readPath f).getD .null := by
    cases v <;> simp [part, hlength]
  rw [hpath, Value.readPath, hsegments, Value.readAt_singleton]

/-- A chain of accesses has the part at the end of the chain, one step an access. -/
theorem eval_accesses {vars : Lookup} {e : Expr} {v : Value} (h : eval vars e = .ok v) (fields : List String) :
    eval vars (accesses e fields) = .ok (fields.foldl part v) := by
  induction fields generalizing e v with
  | nil => exact h
  | cons f fields ih => exact ih (by rw [eval, h])

/-- Parts of parts are what a path leads to. Once a part is missing both come to nothing: the path ends there, and the
accesses go on through nothing. -/
theorem foldl_part (hfields : ∀ f ∈ fields, IsName f.toList ∧ f ≠ "length") (v : Value) :
    fields.foldl part v = (Value.readAt fields v).getD .null := by
  induction fields generalizing v with
  | nil => rfl
  | cons f fields ih =>
    have hrest := ih fun g hg => hfields g (List.mem_cons_of_mem f hg)
    obtain ⟨hf, hlength⟩ := hfields f List.mem_cons_self
    rw [List.foldl_cons, part_field hf hlength, Value.readAt]
    cases v.child? f with
    | some inner => exact hrest inner
    | none =>
      rw [Option.getD_none, hrest, Option.bind_none]
      cases fields <;> rfl

/-- What is at the end of a path through some fields. -/
theorem readPath_dotted {f : String} (h : ∀ g ∈ f :: fields, IsName g.toList) (v : Value) :
    v.readPath (dotted f fields) = Value.readAt (f :: fields) v := by
  rw [Value.readPath, pathSegments_dotted h]

end Parts

/-! ## In a program

The two spellings agree wherever a program can write them: in a value that is assigned, in a parameter, in a
placeholder. -/

/-- A placeholder with nothing but this text in it. -/
def placeholder (text : String) : String := String.ofList ('{' :: '{' :: (text.toList ++ ['}', '}']))

namespace Machine

variable {σ : Type}

/-- What a program sees under a text that it may write as an expression: behind the sign `@` of a parameter, in a
placeholder and on the right of an assignment. -/
structure Sees (m : Machine σ) (text : String) (v : Value) : Prop where
  evaluated : m.eval text = .ok v
  assigned : m.assigned (.str text) = .ok v
  resolved : ∀ key, m.resolve [(key, .str ("@" ++ text))] = (m, .ok [(key, v)])
  expanded : m.expand (placeholder text) = .ok v.text

section Agreement

variable {m : Machine σ} {x : String} {fields : List String}

/-- As an address, the text is the variable of its name with the path of the fields. -/
theorem read_dotted (m : Machine σ) (hx : IsName x.toList) (hfields : ∀ f ∈ fields, IsName f.toList) :
    m.read (dotted x fields) = (m, .ok ((m.lookup x).bind (Value.readAt fields))) := by
  unfold read
  rw [parse_dotted hx hfields]
  show (m, Except.ok _) = _
  cases fields with
  | nil =>
    show (m, Except.ok (m.lookup x)) = _
    cases m.lookup x <;> rfl
  | cons f fields =>
    show (m, Except.ok ((m.lookup x).bind (·.readPath (dotted f fields)))) = _
    simp only [readPath_dotted hfields]

/-- As an expression, it is one access after the other, and what is absent is null. -/
theorem eval_dotted (m : Machine σ) (hx : IsName x.toList) (hword : x ∉ reserved)
    (hfields : ∀ f ∈ fields, IsName f.toList ∧ f ≠ "length") :
    m.eval (dotted x fields) = .ok (((m.lookup x).bind (Value.readAt fields)).getD .null) := by
  have hname : Expr.eval m.lookup (.name x) = .ok ((m.lookup x).getD .null) := rfl
  rw [Machine.eval, evalText, parse_accesses hx hword fun f hf => (hfields f hf).1]
  show Expr.eval m.lookup _ = _
  rw [eval_accesses hname, foldl_part hfields]
  cases m.lookup x with
  | some v => rfl
  | none => cases fields <;> rfl

theorem assigned_dotted (m : Machine σ) (hx : IsName x.toList) (fields : List String) :
    m.assigned (.str (dotted x fields)) = m.eval (dotted x fields) := by
  have hvisible : isAllBlank (dotted x fields).toList = false := by
    rw [toList_dotted]
    cases hlist : x.toList with
    | nil => exact absurd hlist hx.ne_nil
    | cons c r =>
      rw [hlist] at hx
      have hc : isBlank c = false := (bare_of_isNameChar (hx.isNameChar List.mem_cons_self)).1
      simp [isAllBlank, hc]
  rw [assigned, hvisible]
  exact if_neg Bool.false_ne_true

theorem parameterAddress?_at (text : String) : parameterAddress? (.str ("@" ++ text)) = some text := by
  have hlist : ("@" ++ text).toList = '@' :: text.toList := String.toList_append
  unfold parameterAddress?
  simp only [hlist, String.ofList_toList]

/-- A placeholder with nothing else in it is the text of its value. -/
theorem expand_placeholder {text : String} {v : Value} (hbrace : '}' ∉ text.toList)
    (htrim : trim text.toList = text.toList) (h : m.eval text = .ok v) : m.expand (placeholder text) = .ok v.text := by
  have hclear : Clear '}' text.toList :=
    ⟨fun hin => hbrace (hin.mem List.mem_cons_self), fun hlast => hbrace (List.mem_of_mem_getLast? hlast)⟩
  let p : Template.Segment := ⟨[], text.toList, by decide, hclear⟩
  have hvalue : evalText m.lookup p.expr = .ok v := by
    show evalText m.lookup (trim text.toList) = _
    rw [htrim]
    exact h
  have hwrite : (placeholder text).toList = p.write ++ [] := by
    rw [placeholder, String.toList_ofList, List.append_nil]
    rfl
  have hend : Template.expandRest (evalText m.lookup) (p.write ++ []) [] = .ok [] :=
    Template.expandRest_of_eq_none rfl
  rw [expand, Template.expand, hwrite, Template.Segment.expandRest_ok [] hvalue, hend]
  simp only [Except.map, Value.text, p, List.nil_append, List.append_nil]

/-- A dotted name is the same as a decorated name and as an expression: reading finds something, or it does not and the
value is nothing. A name that is a literal is left out, and so is the length of a list, which is no part of it. -/
theorem dotted_agrees (m : Machine σ) (hx : IsName x.toList) (hword : x ∉ reserved)
    (hfields : ∀ f ∈ fields, IsName f.toList ∧ f ≠ "length") :
    ∃ found, m.read (dotted x fields) = (m, .ok found) ∧ m.Sees (dotted x fields) (found.getD .null) := by
  have hnames : ∀ f ∈ fields, IsName f.toList := fun f hf => (hfields f hf).1
  have hread := read_dotted m hx hnames
  have heval := eval_dotted m hx hword hfields
  have hbrace : '}' ∉ (dotted x fields).toList := notMem_dotted hx hnames rfl (by decide)
  refine ⟨_, hread, heval, ?_, ?_, expand_placeholder hbrace (trim_dotted hx hnames) heval⟩
  · rw [assigned_dotted m hx fields, heval]
  · intro key
    rw [resolve_cons_of_read key (parameterAddress?_at _) hread]
    rfl

end Agreement

/-- A request for somebody who is known by name and has no boss. -/
def staff : Machine Unit :=
  (World.new (.ofProperties [("user", .obj [("name", .str "Ann"), ("boss", .null)])]) (.new [] none) ()).enter

/-- The name is there, and the boss has none. -/
theorem dotted_agrees_staff : staff.Sees "user.name" (.str "Ann") ∧ staff.Sees "user.boss.name" .null := by
  have hfirst : ∀ f ∈ ["name"], IsName f.toList ∧ f ≠ "length" := by decide
  have hsecond : ∀ f ∈ ["boss", "name"], IsName f.toList ∧ f ≠ "length" := by decide
  obtain ⟨found, hread, hsees⟩ := dotted_agrees staff (x := "user") (by decide) (by decide) hfirst
  obtain ⟨found', hread', hsees'⟩ := dotted_agrees staff (x := "user") (by decide) (by decide) hsecond
  cases hread
  cases hread'
  exact ⟨hsees, hsees'⟩

end Machine
end Sequencer
