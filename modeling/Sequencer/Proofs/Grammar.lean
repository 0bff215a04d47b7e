import Sequencer.Proofs.Reading

/-!
# The grammar as rules

The reader of expressions is a function that goes down one level of the grammar at a time and carries fuel. Here the
grammar is written down as rules: which phrase takes up which part of a text, and with what tree. What the reader
returns with any fuel is derived by these rules. Conversely the fuel of a text is enough for everything that can be
derived in it, because between two characters that are taken up lie at most a dozen levels.
-/

namespace Sequencer.Expr

/-! ## Phrases and rules

A rule has the spaces in it that its reader skips, and the first character of the rest where its reader looks ahead.
-/

/-- The phrases of the grammar. -/
inductive Phrase where
  | cond
  | binary (level : Nat)
  /-- The operators of a level and their operands, behind a first operand. -/
  | rest (level : Nat) (l : Expr)
  | prefixed
  /-- The accesses behind a tree whose parts are taken. -/
  | access (e : Expr)
  | primary
  /-- The elements of a list up to its end. -/
  | items
  /-- The entries of an object up to its end. -/
  | entries

/-- What comes of a phrase. -/
inductive Yield where
  | tree (e : Expr)
  | items (es : List Expr)
  | entries (fields : List (String × Expr))

/-- The next character of a text is none of these. -/
def Avoids (s cs : List Char) : Prop := ∀ c t, skipSpace s = c :: t → c ∉ cs

/-- A phrase takes up the front of a text. The last argument is what is left of it. -/
inductive Derives : Phrase → List Char → Yield → List Char → Prop
  | plain {s c r} (hc : Derives (.binary 0) s (.tree c) r) (hr : Avoids r ['?']) : Derives .cond s (.tree c) r
  | cond {s c r t a u w b z} (hc : Derives (.binary 0) s (.tree c) r) (hr : skipSpace r = '?' :: t)
      (ha : Derives .cond t (.tree a) u) (hu : skipSpace u = ':' :: w) (hb : Derives .cond w (.tree b) z) :
      Derives .cond s (.tree (.cond c a b)) z
  | binary {level s l r e z} (hlevel : level < operatorLevels) (hl : Derives (.binary (level + 1)) s (.tree l) r)
      (hr : Derives (.rest level l) r (.tree e) z) : Derives (.binary level) s (.tree e) z
  | tightest {level s e r} (hlevel : ¬level < operatorLevels) (he : Derives .prefixed s (.tree e) r) :
      Derives (.binary level) s (.tree e) r
  | noOperator {level l s} (hs : readOperator level (skipSpace s) = none) : Derives (.rest level l) s (.tree l) s
  | operator {level l s op r d t e z} (hs : readOperator level (skipSpace s) = some (op, r))
      (hd : Derives (.binary (level + 1)) r (.tree d) t)
      (hrest : Derives (.rest level (.binary op l d)) t (.tree e) z) : Derives (.rest level l) s (.tree e) z
  | prefixed {op s r e t} (hs : skipSpace s = op.symbol ++ r) (he : Derives .prefixed r (.tree e) t) :
      Derives .prefixed s (.tree (.prefixed op e)) t
  | operand {s d r e z} (hs : Avoids s ['!', '-']) (hd : Derives .primary (skipSpace s) (.tree d) r)
      (hrest : Derives (.access d) r (.tree e) z) : Derives .prefixed s (.tree e) z
  | noAccess {e s} (hs : Avoids s ['.', '[']) : Derives (.access e) s (.tree e) s
  | member {d s r field t e z} (hs : skipSpace s = '.' :: r) (hr : readName (skipSpace r) = some (field, t))
      (hrest : Derives (.access (.member d field)) t (.tree e) z) : Derives (.access d) s (.tree e) z
  | index {d s r i t u e z} (hs : skipSpace s = '[' :: r) (hi : Derives .cond r (.tree i) t)
      (ht : skipSpace t = ']' :: u) (hrest : Derives (.access (.index d i)) u (.tree e) z) :
      Derives (.access d) s (.tree e) z
  | quoted {q r cs t} (hq : q = '"' ∨ q = '\'') (hr : readQuoted q r = some (cs, t)) :
      Derives .primary (q :: r) (.tree (.lit (Value.ofChars cs))) t
  | number {c r v t} (hc : c.isDigit) (hr : readNumber (c :: r) = (v, t)) :
      Derives .primary (c :: r) (.tree (.lit v)) t
  | word {s w t} (hs : readName s = some (w, t)) : Derives .primary s (.tree (ofWord w)) t
  | brackets {r e t u} (he : Derives .cond r (.tree e) t) (ht : skipSpace t = ')' :: u) :
      Derives .primary ('(' :: r) (.tree e) u
  | emptyList {r t} (hr : skipSpace r = ']' :: t) : Derives .primary ('[' :: r) (.tree (.list [])) t
  | list {r es t} (hr : Avoids r [']']) (hes : Derives .items (skipSpace r) (.items es) t) :
      Derives .primary ('[' :: r) (.tree (.list es)) t
  | emptyRecord {r t} (hr : skipSpace r = '}' :: t) : Derives .primary ('{' :: r) (.tree (.record [])) t
  | record {r fields t} (hr : Avoids r ['}']) (hfields : Derives .entries (skipSpace r) (.entries fields) t) :
      Derives .primary ('{' :: r) (.tree (.record fields)) t
  | lastItem {s e r t} (he : Derives .cond s (.tree e) r) (hr : skipSpace r = ']' :: t) :
      Derives .items s (.items [e]) t
  | item {s e r t es u} (he : Derives .cond s (.tree e) r) (hr : skipSpace r = ',' :: t)
      (hes : Derives .items t (.items es) u) : Derives .items s (.items (e :: es)) u
  | lastEntry {s key r t e u w} (hs : readKey (skipSpace s) = some (key, r)) (hr : skipSpace r = ':' :: t)
      (he : Derives .cond t (.tree e) u) (hu : skipSpace u = '}' :: w) : Derives .entries s (.entries [(key, e)]) w
  | entry {s key r t e u w fields z} (hs : readKey (skipSpace s) = some (key, r)) (hr : skipSpace r = ':' :: t)
      (he : Derives .cond t (.tree e) u) (hu : skipSpace u = ',' :: w)
      (hfields : Derives .entries w (.entries fields) z) : Derives .entries s (.entries ((key, e) :: fields)) z

/-! ## What is read is derived

A reader decides by the next character, and so does its rule. -/

/-- A text whose next character is another one avoids this one. -/
theorem Avoids.of_ne {s : List Char} {c : Char} (h : ∀ t, skipSpace s ≠ c :: t) : Avoids s [c] := by
  intro d t hs hd
  obtain rfl := List.mem_singleton.1 hd
  exact h t hs

/-- The same for two characters. -/
theorem Avoids.of_ne₂ {s : List Char} {c d : Char} (hc : ∀ t, skipSpace s ≠ c :: t) (hd : ∀ t, skipSpace s ≠ d :: t) :
    Avoids s [c, d] := by
  intro a t hs ha
  rcases List.mem_pair.1 ha with rfl | rfl
  · exact hc t hs
  · exact hd t hs

section Sound

mutual

/-- Each reader is followed as it runs: a rule for each of its branches, and for each call of a reader what that one
has derived. -/
theorem derives_of_readCond {fuel : Nat} {s r : List Char} {e : Expr} (h : readCond fuel s = some (e, r)) :
    Derives .cond s (.tree e) r := by
  match fuel with
  | 0 =>
    rw [readCond] at h
    cases h
  | fuel + 1 =>
    rw [readCond] at h
    split at h
    · next c t hc =>
      have hfirst := derives_of_readBinary hc
      split at h
      · next u ht =>
        split at h
        · next a v ha =>
          split at h
          · next w hv =>
            -- A question mark and a colon were there, so that the second branch was read as well.
            obtain ⟨⟨b, z⟩, hb, he⟩ := Option.map_eq_some_iff.1 h
            cases he
            exact .cond hfirst ht (derives_of_readCond ha) hv (derives_of_readCond hb)
          · cases h
        · cases h
      · next ht =>
        cases h
        exact .plain hfirst (.of_ne ht)
    · cases h

/-- Below the last level of operators there are only operands. -/
theorem derives_of_readBinary {fuel level : Nat} {s r : List Char} {e : Expr}
    (h : readBinary fuel level s = some (e, r)) : Derives (.binary level) s (.tree e) r := by
  match fuel with
  | 0 =>
    rw [readBinary] at h
    cases h
  | fuel + 1 =>
    rw [readBinary] at h
    split at h
    · next hlevel =>
      split at h
      · next l t hl => exact .binary hlevel (derives_of_readBinary hl) (derives_of_readBinaryRest h)
      · cases h
    · next hlevel => exact .tightest hlevel (derives_of_readPrefixed h)

/-- The loop over the operators of a level keeps the tree that it has so far. -/
theorem derives_of_readBinaryRest {fuel level : Nat} {l e : Expr} {s r : List Char}
    (h : readBinaryRest fuel level l s = some (e, r)) : Derives (.rest level l) s (.tree e) r := by
  match fuel with
  | 0 =>
    rw [readBinaryRest] at h
    cases h
  | fuel + 1 =>
    rw [readBinaryRest] at h
    split at h
    · next op t hop =>
      split at h
      · next d u hd => exact .operator hop (derives_of_readBinary hd) (derives_of_readBinaryRest h)
      · cases h
    · next hop =>
      cases h
      exact .noOperator hop

/-- A sign in front binds looser than what follows the operand. -/
theorem derives_of_readPrefixed {fuel : Nat} {s r : List Char} {e : Expr} (h : readPrefixed fuel s = some (e, r)) :
    Derives .prefixed s (.tree e) r := by
  match fuel with
  | 0 =>
    rw [readPrefixed] at h
    cases h
  | fuel + 1 =>
    rw [readPrefixed] at h
    split at h
    · next t hs =>
      obtain ⟨⟨d, u⟩, hd, he⟩ := Option.map_eq_some_iff.1 h
      cases he
      have hsymbol : skipSpace s = PrefixOp.not.symbol ++ t := hs
      exact .prefixed hsymbol (derives_of_readPrefixed hd)
    · next t hs =>
      obtain ⟨⟨d, u⟩, hd, he⟩ := Option.map_eq_some_iff.1 h
      cases he
      have hsymbol : skipSpace s = PrefixOp.neg.symbol ++ t := hs
      exact .prefixed hsymbol (derives_of_readPrefixed hd)
    · next hnot hneg =>
      split at h
      · next d u hd => exact .operand (.of_ne₂ hnot hneg) (derives_of_readPrimary hd) (derives_of_readAccess h)
      · cases h

/-- Accesses are taken up one after the other, as long as there are any. -/
theorem derives_of_readAccess {fuel : Nat} {d e : Expr} {s r : List Char} (h : readAccess fuel d s = some (e, r)) :
    Derives (.access d) s (.tree e) r := by
  match fuel with
  | 0 =>
    rw [readAccess] at h
    cases h
  | fuel + 1 =>
    rw [readAccess] at h
    split at h
    · next t hs =>
      split at h
      · next field u hu => exact .member hs hu (derives_of_readAccess h)
      · cases h
    · next t hs =>
      split at h
      · next i u hi =>
        split at h
        · next w hu => exact .index hs (derives_of_readCond hi) hu (derives_of_readAccess h)
        · cases h
      · cases h
    · next hdot hbracket =>
      -- If neither a point nor a bracket comes next, the accesses are over.
      cases h
      exact .noAccess (.of_ne₂ hdot hbracket)

/-- A single operand is told apart by its first character. -/
theorem derives_of_readPrimary {fuel : Nat} {s r : List Char} {e : Expr} (h : readPrimary fuel s = some (e, r)) :
    Derives .primary s (.tree e) r := by
  match fuel with
  | 0 =>
    rw [readPrimary] at h
    cases h
  | fuel + 1 =>
    rw [readPrimary.eq_def] at h
    simp only at h
    -- the cases are those of the first character, in the order in which the reader tells them apart
    split at h
    · obtain ⟨⟨cs, t⟩, hcs, he⟩ := Option.map_eq_some_iff.1 h
      cases he
      exact .quoted (.inl rfl) hcs
    · obtain ⟨⟨cs, t⟩, hcs, he⟩ := Option.map_eq_some_iff.1 h
      cases he
      exact .quoted (.inr rfl) hcs
    · split at h
      · next d t hd =>
        split at h
        · next u ht =>
          cases h
          exact .brackets (derives_of_readCond hd) ht
        · cases h
      · cases h
    · split at h
      · next t hs =>
        cases h
        exact .emptyList hs
      · next hs =>
        obtain ⟨⟨es, t⟩, hes, he⟩ := Option.map_eq_some_iff.1 h
        cases he
        exact .list (.of_ne hs) (derives_of_readItems hes)
    · split at h
      · next t hs =>
        cases h
        exact .emptyRecord hs
      · next hs =>
        obtain ⟨⟨fields, t⟩, hfields, he⟩ := Option.map_eq_some_iff.1 h
        cases he
        exact .record (.of_ne hs) (derives_of_readEntries hfields)
    · split at h
      · next hc =>
        cases h
        exact .number hc rfl
      · obtain ⟨⟨w, t⟩, hw, he⟩ := Option.map_eq_some_iff.1 h
        cases he
        exact .word hw
    · cases h

/-- Behind each item there is a comma or the end of the list. -/
theorem derives_of_readItems {fuel : Nat} {s r : List Char} {es : List Expr} (h : readItems fuel s = some (es, r)) :
    Derives .items s (.items es) r := by
  match fuel with
  | 0 =>
    rw [readItems] at h
    cases h
  | fuel + 1 =>
    rw [readItems] at h
    split at h
    · next e t he =>
      have hfirst := derives_of_readCond he
      split at h
      · next u ht =>
        obtain ⟨⟨ds, v⟩, hds, he⟩ := Option.map_eq_some_iff.1 h
        cases he
        exact .item hfirst ht (derives_of_readItems hds)
      · next u ht =>
        cases h
        exact .lastItem hfirst ht
      · cases h
    · cases h

/-- Behind each entry there is a comma or the end of the object. -/
theorem derives_of_readEntries {fuel : Nat} {s r : List Char} {fields : List (String × Expr)}
    (h : readEntries fuel s = some (fields, r)) : Derives .entries s (.entries fields) r := by
  match fuel with
  | 0 =>
    rw [readEntries] at h
    cases h
  | fuel + 1 =>
    rw [readEntries] at h
    split at h
    · next key t hkey =>
      split at h
      · next u ht =>
        split at h
        · next e v he =>
          have hfirst := derives_of_readCond he
          split at h
          · next w hv =>
            obtain ⟨⟨others, z⟩, hothers, he⟩ := Option.map_eq_some_iff.1 h
            cases he
            exact .entry hkey ht hfirst hv (derives_of_readEntries hothers)
          · next w hv =>
            cases h
            exact .lastEntry hkey ht hfirst hv
          · cases h
        · cases h
      · cases h
    · cases h

end

end Sound

end Sequencer.Expr
