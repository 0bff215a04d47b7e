import Sequencer.Proofs.Mentions

/-!
# Reading decorated names

A decorated name is cut at its first colon, what is in front of that at its first underscore, what is behind it at its
first point, and a mark is taken off each end on the way. All these characters may occur in the parts as well: a bucket
may hold underscores and question marks, a name anything except for a point in front of its path. The cuts still find
the parts, because a level is written in letters and digits only, and no part ends with the mark that may stand behind
it.
-/

namespace Sequencer

/-! ## Parts of texts

A trimmed text begins and ends with characters that are no blanks. The parts of a decorated name are trimmed each by
itself, and so they are together. -/

namespace Text

variable {s t : List Char}

/-- Whether trimming leaves a text alone is up to its ends. -/
theorem trim_eq_self_iff : trim s = s ↔
    (∀ c ∈ s.head?, isBlank c = false) ∧ ∀ c ∈ s.getLast?, isBlank c = false := by
  constructor
  · intro h
    refine ⟨fun c hc => ?_, fun c hc => ?_⟩
    · obtain ⟨r, rfl⟩ := List.head?_eq_some_iff.1 hc
      by_contra hblank
      have hshort : trim (c :: r) = trim r := by
        rw [trim, trimStart_of_blank r (by simpa using hblank), trim]
      have hle := length_trim_le r
      rw [← hshort, h, List.length_cons] at hle
      omega
    · obtain ⟨u, rfl⟩ := List.getLast?_eq_some_iff.1 hc
      by_contra hblank
      have hend : Blanks [c] := by simpa [Blanks] using hblank
      have hshort : trim (u ++ [c]) = trim u := trim_blanks (l := []) (by simp [Blanks]) hend u
      have hle := length_trim_le u
      rw [← hshort, h, List.length_append, List.length_singleton] at hle
      omega
  · rintro ⟨hfront, hback⟩
    by_cases hs : s = []
    · rw [hs, trim_nil]
    · exact trim_of_not_blank (hfront _ (List.head?_eq_some_head hs)) (hback _ (List.getLast?_eq_some_getLast hs))
        (List.head?_eq_some_head hs) (List.getLast?_eq_some_getLast hs)

/-- Trimmed texts make a trimmed text. -/
theorem trim_append (hs : trim s = s) (ht : trim t = t) : trim (s ++ t) = s ++ t := by
  obtain ⟨hsfront, hsback⟩ := trim_eq_self_iff.1 hs
  obtain ⟨htfront, htback⟩ := trim_eq_self_iff.1 ht
  refine trim_eq_self_iff.2 ⟨fun c hc => ?_, fun c hc => ?_⟩
  · rw [List.head?_append, Option.mem_def, Option.or_eq_some_iff] at hc
    exact hc.elim (hsfront c) fun hc => htfront c hc.2
  · rw [List.getLast?_append, Option.mem_def, Option.or_eq_some_iff] at hc
    exact hc.elim (htback c) fun hc => hsback c hc.2

/-- Without blanks there is nothing to trim. -/
theorem trim_of_forall (h : ∀ c ∈ s, isBlank c = false) : trim s = s :=
  trim_eq_self_iff.2 ⟨fun c hc => h c (List.mem_of_mem_head? hc), fun c hc => h c (List.mem_of_getLast? hc)⟩

theorem trim_singleton {c : Char} (h : isBlank c = false) : trim [c] = [c] := trim_of_forall (by simpa using h)

/-- Nothing is trimmed at the end of a trimmed text. -/
theorem trimEnd_of_trim (h : trim s = s) : trimEnd s = s := by
  have hstart : trimStart s = s := by
    cases s with
    | nil => rfl
    | cons c r => exact trimStart_of_not_blank r ((trim_eq_self_iff.1 h).1 c rfl)
  rwa [trim, hstart] at h

/-- A text that is not blank and has no blanks around it. -/
def Snug (s : List Char) : Prop := s ≠ [] ∧ trim s = s

instance (s : List Char) : Decidable (Snug s) := inferInstanceAs (Decidable (_ ∧ _))

/-- A mark, where it is given. -/
def mark (c : Char) (given : Bool) : List Char := if given then [c] else []

/-- A part behind the character that announces it, where there is one. -/
def part (c : Char) : Option (List Char) → List Char
  | none => []
  | some s => c :: s

/-- A mark is no blank. -/
theorem trim_mark {c : Char} (hc : isBlank c = false) (given : Bool) : trim (mark c given) = mark c given := by
  cases given with
  | false => rfl
  | true => exact trim_singleton hc

/-- A part with its mark in front may be missing, and is trimmed either way. -/
theorem trim_part {c : Char} (hc : isBlank c = false) {o : Option (List Char)} (h : ∀ s ∈ o, Snug s) :
    trim (part c o) = part c o := by
  cases o with
  | none => rfl
  | some s => exact trim_append (trim_singleton hc) (h s rfl).2

/-! ### Letters and digits

The words for levels are made of these. -/

/-- Letters and digits are no blanks. -/
theorem isBlank_of_isAlphanum {c : Char} (h : c.isAlphanum = true) : isBlank c = false :=
  (Expr.bare_of_isNameChar (by simp [Expr.isNameChar, h])).1

/-- They are among the first 128 characters. -/
theorem toNat_lt_of_isAlphanum {c : Char} (h : c.isAlphanum = true) : c.toNat < 0x80 := by
  unfold Char.isAlphanum Char.isAlpha Char.isUpper Char.isLower Char.isDigit at h
  simp only [Bool.or_eq_true, Bool.and_eq_true, decide_eq_true_eq, UInt32.le_iff_toNat_le, ge_iff_le] at h
  rcases h with ((⟨-, h⟩ | ⟨-, h⟩) | ⟨-, h⟩) <;> exact lt_of_le_of_lt h (by decide)

/-- Digits have no case. -/
theorem isUpper_of_isDigit {c : Char} (h : c.isDigit = true) : c.isUpper = false := by
  unfold Char.isUpper
  unfold Char.isDigit at h
  simp only [Bool.and_eq_true, decide_eq_true_eq, decide_eq_false_iff_not, UInt32.le_iff_toNat_le, ge_iff_le] at h ⊢
  have hlow : 'A'.val.toNat = 65 := rfl
  have hhigh : '9'.val.toNat = 57 := rfl
  omega

end Text

/-! ## Numerals

The number of an ancestor is written in digits, with as many zeros in front as one likes. -/

namespace Decimal

/-- A number in digits, with zeros in front of it. -/
def numeral (zeros n : Nat) : List Char := List.replicate zeros '0' ++ Nat.toDigits 10 n

/-- A numeral has nothing but digits. -/
theorem isDigit_of_mem_numeral {zeros n : Nat} {c : Char} (h : c ∈ numeral zeros n) : c.isDigit = true := by
  rcases List.mem_append.1 h with h | h
  · rw [List.eq_of_mem_replicate h]
    rfl
  · exact Nat.isDigit_of_mem_toDigits (by decide) (by decide) h

/-- It has one digit at least. -/
theorem numeral_ne_nil (zeros n : Nat) : numeral zeros n ≠ [] := by simp [numeral]

/-- Zeros in front do not count. -/
theorem digitsValue_numeral (zeros n : Nat) : digitsValue (numeral zeros n) = n := by
  induction zeros with
  | zero => exact Expr.digitsValue_toDigits n
  | succ zeros ih =>
    -- A zero in front leaves the number read so far at zero.
    rw [numeral, List.replicate_succ, List.cons_append]
    exact ih

/-- So that its value is read back. -/
theorem digits?_numeral (zeros n : Nat) : digits? (numeral zeros n) = some n := by
  unfold digits?
  rw [if_pos, digitsValue_numeral]
  simpa [numeral_ne_nil] using fun c => isDigit_of_mem_numeral

/-- There is no sign in front of the digits. -/
theorem numeral_ne_cons {c : Char} (hc : c.isDigit = false) (zeros n : Nat) (r : List Char) :
    numeral zeros n ≠ c :: r := by
  intro he
  have hdigit : c.isDigit = true := isDigit_of_mem_numeral (he ▸ List.mem_cons_self)
  rw [hc] at hdigit
  cases hdigit

/-- It is read back as a word of 64 bits if it fits into one. -/
theorem natural?_numeral (zeros : Nat) {n : Nat} (h : n < 2 ^ 64) : natural? (numeral zeros n) = some n := by
  unfold natural?
  split
  · next r hplus => exact absurd hplus (numeral_ne_cons (by decide) zeros n r)
  · rw [digits?_numeral]
    simpa [Option.filter] using h

end Decimal

/-! ## Decorated names -/

namespace Address

open Text

/-! ### Marks at the ends

Marks are taken off from the outside to the inside. What is left must not look like another mark. -/

/-- Behind the mark of a plain name a selector is its level and its bucket, or its level alone. -/
theorem read_mark {plain : Bool} {core : List Char} (htrim : trim (mark '~' plain ++ core) = mark '~' plain ++ core)
    (hhead : core.head? ≠ some '~') : Selector.read (mark '~' plain ++ core) =
      match splitBucket? core with
      | some (word, bucket) =>
        let (bucket, tolerant) := dropTolerance (trim bucket)
        let (word, tolerant') := dropTolerance (trim word)
        ⟨word, bucket, plain, tolerant || tolerant'⟩
      | none =>
        let (word, tolerant) := dropTolerance core
        ⟨word, [], plain, tolerant⟩ := by
  unfold Selector.read
  rw [htrim]
  cases plain with
  | true => cases hcore : splitBucket? core <;> simp [mark, hcore]
  | false =>
    cases core with
    | nil => rfl
    | cons c r =>
      have hc : c ≠ '~' := fun he => hhead (by rw [he]; rfl)
      cases hcore : splitBucket? (c :: r) <;> simp [mark, hc, hcore]

/-- A mark of tolerance is found at the end, and only there. -/
theorem dropTolerance_mark {s : List Char} (hs : trim s = s) (hmark : s.getLast? ≠ some '?') (tolerant : Bool) :
    dropTolerance (s ++ mark '?' tolerant) = (s, tolerant) := by
  unfold dropTolerance
  cases tolerant with
  | true =>
    have hsome : dropTail? ['?'] (s ++ mark '?' true) = some s := dropTail?_eq_some.2 rfl
    rw [hsome]
    simp only [trimEnd_of_trim hs]
  | false =>
    have hnone : dropTail? ['?'] (s ++ mark '?' false) = none := by
      refine Option.eq_none_iff_forall_ne_some.2 fun r hr => hmark ?_
      have he := dropTail?_eq_some.1 hr
      rw [mark, if_neg (by decide), List.append_nil] at he
      rw [he, List.getLast?_append]
      rfl
    rw [hnone]
    simp [mark]

/-! ### How levels are written

A level is a word in either case of letters, or a number. A missing word means the current scope. -/

/-- The words for the levels that values are saved to: nothing for the active scope, a number with or without zeros in
front of it, and a keyword in letters of either case. -/
inductive Spells : Level → List Char → Prop
  | current : Spells .current []
  | ancestor (zeros : Nat) {n : Nat} (h : n < 2 ^ 64) : Spells (.ancestor n) (Decimal.numeral zeros n)
  | provider {p : Provider} {word : List Char} (h : word.map Char.toLower = p.keyword.toList) :
      Spells (.provider p) word

/-- A level is written in letters and digits. -/
theorem Spells.isAlphanum {level : Level} {word : List Char} (h : Spells level word) :
    ∀ c ∈ word, c.isAlphanum = true := by
  cases h with
  | current => simp
  | ancestor zeros hn =>
    intro c hc
    unfold Char.isAlphanum
    rw [Decimal.isDigit_of_mem_numeral hc, Bool.or_true]
  | @provider p _ hword =>
    intro c hc
    have hkeyword : p.keyword.toList.all Char.isLower = true := by cases p <;> rfl
    have hmem : c.toLower ∈ p.keyword.toList := by
      rw [← hword]
      exact List.mem_map_of_mem hc
    have hlower : c.toLower.isLower = true := List.all_eq_true.1 hkeyword _ hmem
    unfold Char.isAlphanum Char.isAlpha
    by_cases hupper : c.isUpper = true
    · rw [hupper, Bool.true_or, Bool.true_or]
    · rw [toLower_of_not_isUpper (by simpa using hupper)] at hlower
      rw [hlower, Bool.or_true, Bool.true_or]

/-- No word for a level has a mark in it. -/
theorem Spells.not_mem {level : Level} {word : List Char} (h : Spells level word) {c : Char}
    (hc : c.isAlphanum = false) : c ∉ word := by
  intro hmem
  rw [h.isAlphanum c hmem] at hc
  cases hc

/-- A number is the level of an ancestor. -/
theorem level?_numeral (zeros : Nat) {n : Nat} (h : n < 2 ^ 64) :
    level? (Decimal.numeral zeros n) = .ok (.ancestor n) := by
  have hdigits : ∀ c ∈ Decimal.numeral zeros n, c.isDigit = true := fun c => Decimal.isDigit_of_mem_numeral
  have hexpression : Decimal.numeral zeros n ≠ ['$'] := fun he =>
    absurd (hdigits '$' (he ▸ List.mem_singleton_self '$')) (by decide)
  have hliteral : Decimal.numeral zeros n ≠ ['_'] := fun he =>
    absurd (hdigits '_' (he ▸ List.mem_singleton_self '_')) (by decide)
  rw [level?, if_neg (Decimal.numeral_ne_nil zeros n), if_neg hexpression, if_neg hliteral,
    if_pos (List.all_eq_true.2 hdigits), Decimal.natural?_numeral zeros h]

/-- Either case of letters is read as the same level. -/
theorem Spells.level?_lower {level : Level} {word : List Char} (h : Spells level word) :
    level? (lower word) = .ok level := by
  have hlower : lower word = word.map Char.toLower :=
    lowerFrom_of_ascii (fun c hc => toNat_lt_of_isAlphanum (h.isAlphanum c hc)) []
  rw [hlower]
  cases h with
  | current => rfl
  | @ancestor zeros n hn =>
    have hsame : (Decimal.numeral zeros n).map Char.toLower = (Decimal.numeral zeros n).map id :=
      List.map_congr_left fun c hc => toLower_of_not_isUpper (isUpper_of_isDigit (Decimal.isDigit_of_mem_numeral hc))
    rw [hsame, List.map_id, level?_numeral zeros hn]
  | @provider p _ hword =>
    rw [hword]
    cases p <;> rfl

/-! ### Parts in their places

A decorated name as data: what stands in front of the colon, what stands behind it, and the conditions under which
neither is mistaken for another part. -/

/-- A decorated name, part by part. No part has blanks around it. Only a level that is written out has a bucket, whose
end must not look like the mark of tolerance. Where a name can have a path, it ends at its first point. -/
structure Decorated where
  level : Level
  /-- How the level is written. -/
  word : List Char
  bucket : Option (List Char)
  /-- Whether the name is marked to take no path. -/
  plain : Bool
  /-- Whether the level is marked to have its failures tolerated. -/
  tolerant : Bool
  name : List Char
  path : Option (List Char)
  spells : Spells level word
  word_ne_nil : bucket ≠ none → word ≠ []
  snug_bucket : ∀ b ∈ bucket, Snug b
  colon_bucket : ∀ b ∈ bucket, ':' ∉ b
  mark_bucket : ∀ b ∈ bucket, b.getLast? ≠ some '?'
  snug_name : Snug name
  snug_path : ∀ p ∈ path, Snug p
  point_name : plain = false → level.hasPaths = true → '.' ∉ name
  pathless : plain = true ∨ level.hasPaths = false → path = none

namespace Decorated

/-- What is in front of the colon, behind the mark of a plain name. -/
def core (d : Decorated) : List Char := d.word ++ (part '_' d.bucket ++ mark '?' d.tolerant)

/-- What is in front of the colon. -/
def selector (d : Decorated) : List Char := mark '~' d.plain ++ d.core

/-- What is behind the colon. -/
def rest (d : Decorated) : List Char := d.name ++ part '.' d.path

/-- The text of a decorated name: `[~][level][_bucket][?]:name[.path]`. -/
def text (d : Decorated) : List Char := d.selector ++ ':' :: d.rest

variable (d : Decorated)

/-! #### Blanks

None of the parts begins or ends with a blank, and neither does the whole text. -/

/-- The word for a level has no blanks around it. -/
theorem trim_word : trim d.word = d.word :=
  trim_of_forall fun c hc => isBlank_of_isAlphanum (d.spells.isAlphanum c hc)

/-- Neither has what stands in front of the colon. -/
theorem trim_selector : trim d.selector = d.selector :=
  trim_append (trim_mark (by decide) d.plain) <| trim_append d.trim_word <|
    trim_append (trim_part (by decide) d.snug_bucket) (trim_mark (by decide) d.tolerant)

/-- Nor has the whole text. -/
theorem trim_text : trim d.text = d.text :=
  have hrest : trim d.rest = d.rest := trim_append d.snug_name.2 (trim_part (by decide) d.snug_path)
  trim_append d.trim_selector (trim_append (trim_singleton (by decide)) hrest)

/-! #### In front of the colon

The selector ends at the first colon. It is divided at the first underscore, with the marks at its ends. -/

/-- Without a level there is no bucket either, so that the mark of tolerance comes first. -/
theorem head_core : ∀ c ∈ d.core.head?, c.isAlphanum = true ∨ c = '?' := by
  intro c hc
  cases hword : d.word with
  | cons a r =>
    rw [core, hword] at hc
    obtain rfl : a = c := by simpa using hc
    exact .inl (d.spells.isAlphanum a (by rw [hword]; exact List.mem_cons_self))
  | nil =>
    have hbucket : d.bucket = none := by_contra fun hsome => d.word_ne_nil hsome hword
    rw [core, hword, hbucket] at hc
    have hmark : c ∈ mark '?' d.tolerant := List.mem_of_mem_head? hc
    unfold mark at hmark
    split at hmark
    · exact .inr (List.mem_singleton.1 hmark)
    · cases hmark

/-- The first colon is the one behind the selector, since no part in front has another one. -/
theorem colon_selector : ':' ∉ d.selector := by
  have hword : ':' ∉ d.word := d.spells.not_mem (by decide)
  have hbucket : ':' ∉ part '_' d.bucket := by
    cases hb : d.bucket with
    | none => simp [part]
    | some b => simpa [part] using d.colon_bucket b hb
  have hmark : ∀ {m : Char} {given : Bool}, m ≠ ':' → ':' ∉ mark m given := by
    intro m given hm
    cases given <;> simp [mark, hm.symm]
  unfold selector core
  simp only [List.mem_append, not_or]
  exact ⟨hmark (by decide), hword, hbucket, hmark (by decide)⟩

/-- A decorated name is not quoted, even if it ends with a quote. -/
theorem unquote?_text : unquote? d.text = none := by
  have hhead : d.text.head? ≠ some '\'' := by
    unfold text selector
    cases d.plain with
    | true => simp [mark]
    | false =>
      cases hcore : d.core with
      | nil => simp [mark]
      | cons c r =>
        have hc := d.head_core c (by rw [hcore]; rfl)
        intro he
        obtain rfl : c = '\'' := by simpa [mark] using he
        exact absurd hc (by decide)
  unfold unquote?
  split
  · next r he => exact absurd (by rw [he]; rfl) hhead
  · rfl

/-- The first underscore is the one in front of the bucket, since no level has any. -/
theorem splitBucket?_core :
    splitBucket? d.core = d.bucket.map fun b => (d.word, b ++ mark '?' d.tolerant) := by
  have hword : '_' ∉ d.word := d.spells.not_mem (by decide)
  unfold splitBucket? core
  cases hb : d.bucket with
  | none =>
    have hmark : '_' ∉ d.word ++ (part '_' none ++ mark '?' d.tolerant) := by
      cases d.tolerant <;> simp [part, mark, hword]
    rw [splitFirst_eq_none.2 hmark]
    rfl
  | some b =>
    have hne : d.word ≠ [] := d.word_ne_nil (by simp [hb])
    rw [part, List.cons_append, splitFirst_append _ hword]
    cases hw : d.word with
    | nil => exact absurd hw hne
    | cons c r => rfl

/-- The mark of tolerance belongs to no word. -/
theorem mark_word : d.word.getLast? ≠ some '?' := fun h =>
  d.spells.not_mem (by decide) (List.mem_of_getLast? h)

/-- In front of the colon the parts are read as they were written. -/
theorem read_selector : Selector.read d.selector = ⟨d.word, d.bucket.getD [], d.plain, d.tolerant⟩ := by
  have hhead : d.core.head? ≠ some '~' := fun h => absurd (d.head_core '~' h) (by decide)
  rw [selector, read_mark d.trim_selector hhead, splitBucket?_core]
  cases hb : d.bucket with
  | none =>
    have hcore : d.core = d.word ++ mark '?' d.tolerant := by rw [core, hb, part, List.nil_append]
    simp only [Option.map_none, hcore, dropTolerance_mark d.trim_word d.mark_word]
    rfl
  | some b =>
    have htrim : trim (b ++ mark '?' d.tolerant) = b ++ mark '?' d.tolerant :=
      trim_append (d.snug_bucket b hb).2 (trim_mark (by decide) d.tolerant)
    have hword : dropTolerance d.word = (d.word, false) := by
      simpa [mark] using dropTolerance_mark d.trim_word d.mark_word false
    simp only [Option.map_some, htrim, dropTolerance_mark (d.snug_bucket b hb).2 (d.mark_bucket b hb), d.trim_word,
      hword, Bool.or_false]
    rfl

/-! #### Behind the colon

The name ends at the first dot, unless the mark in front says that there is no path. -/

/-- Behind it the name ends at the first dot, where the level has paths and nothing says otherwise. -/
theorem splitPath_rest : splitPath (!d.plain && d.level.hasPaths) d.rest = (d.name, d.path) := by
  unfold splitPath rest
  by_cases hpaths : d.plain = false ∧ d.level.hasPaths = true
  · have hpoint : '.' ∉ d.name := d.point_name hpaths.1 hpaths.2
    rw [hpaths.1, hpaths.2]
    cases hp : d.path with
    | none =>
      simp only [part, List.append_nil, splitFirst_eq_none.2 hpoint, d.snug_name.2]
      rfl
    | some p =>
      have hempty : p.isEmpty = false := by simpa using (d.snug_path p hp).1
      simp only [part, splitFirst_append p hpoint, Bool.not_false, Bool.and_self, if_true, d.snug_name.2,
        (d.snug_path p hp).2, hempty]
      rfl
  · have hpath : d.path = none := d.pathless (by grind)
    have hnone : (!d.plain && d.level.hasPaths) = false := by grind
    simp only [hnone, hpath, part, List.append_nil, d.snug_name.2]
    rfl

end Decorated

/-- The parts of a decorated name are found again, whatever marks occur inside of them. -/
theorem parse_decorated (d : Decorated) : parse d.text =
    .ok ⟨d.level, String.ofList (d.bucket.getD []), String.ofList d.name, d.path.map String.ofList, !d.tolerant⟩ := by
  have hempty : d.text.isEmpty = false := by simp [Decorated.text]
  have hsplit : splitFirst ':' d.text = some (d.selector, d.rest) := splitFirst_append d.rest d.colon_selector
  have hlevel : ¬(d.level = .expression ∨ d.level = .literal) := by
    have hspells := d.spells
    rintro (he | he) <;> rw [he] at hspells <;> cases hspells
  have hname : d.name.isEmpty = false := by simpa using d.snug_name.1
  unfold parse
  simp only [d.trim_text, hempty, d.unquote?_text, hsplit, d.read_selector, d.spells.level?_lower]
  unfold ofParts
  simp only [if_neg hlevel, d.splitPath_rest, hname]
  rfl

/-- Letters of either case, marks inside of the bucket, and a point that begins no path: `~Map_a_?b?:it's.x`. -/
def shouted : Decorated where
  level := .provider .map
  word := "Map".toList
  bucket := some "a_?b".toList
  plain := true
  tolerant := true
  name := "it's.x".toList
  path := none
  spells := .provider (by decide)
  word_ne_nil := by decide
  snug_bucket := by decide
  colon_bucket := by decide
  mark_bucket := by decide
  snug_name := by decide
  snug_path := by decide
  point_name := by decide
  pathless := by decide

/-- A number with zeros in front of it, a name that begins with a quote, and one at the end: `007:'a:~_b?.c.d'`. -/
def counted : Decorated where
  level := .ancestor 7
  word := "007".toList
  bucket := none
  plain := false
  tolerant := false
  name := "'a:~_b?".toList
  path := some "c.d'".toList
  spells := .ancestor 2 (by decide)
  word_ne_nil := by decide
  snug_bucket := by decide
  colon_bucket := by decide
  mark_bucket := by decide
  snug_name := by decide
  snug_path := by decide
  point_name := by decide
  pathless := by decide

theorem parse_decorated_marks :
    parse "~Map_a_?b?:it's.x".toList = .ok ⟨.provider .map, "a_?b", "it's.x", none, false⟩ ∧
      parse "007:'a:~_b?.c.d'".toList = .ok ⟨.ancestor 7, "", "'a:~_b?", some "c.d'", true⟩ :=
  ⟨parse_decorated shouted, parse_decorated counted⟩

end Address
end Sequencer
