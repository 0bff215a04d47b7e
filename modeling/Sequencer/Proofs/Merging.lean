import Mathlib
import Sequencer.Properties

/-!
# Merging documents

What is in the store after documents have been loaded into it in turn. A leaf of a document has a path of keys, and is
put under the keys of its path with underscores in between. Since keys may have underscores of their own, leaves of
different paths may go under one name: then the last one stays, where leaves are in the order of the documents, and
within a document depth first in the order of the keys.

How a text is read is left open: whatever entries a reader finds in a text, in whatever order, they are merged like this.
What JSON value a leaf has is told by rules of its own, one for each kind of value.
-/

namespace Sequencer

/-- Sorting looks at the keys only. -/
theorem Table.sorted_map {α β : Type} (f : α → β) (t : Table α) :
    sorted (t.map fun e => (e.1, f e.2)) = (sorted t).map fun e => (e.1, f e.2) :=
  (List.map_mergeSort (f := fun e : String × α => (e.1, f e.2)) fun _ _ _ _ => rfl).symm

namespace Toml

/-- Induction over items: for a list or a table, what is in it is known to be right already. -/
@[elab_as_elim]
theorem Item.induction {motive : Item → Prop} (scalar : ∀ v, motive (.scalar v))
    (list : ∀ items : List Item, (∀ item ∈ items, motive item) → motive (.list items))
    (table : ∀ entries : List (String × Item), (∀ e ∈ entries, motive e.2) → motive (.table entries)) (item : Item) :
    motive item :=
  @Item.rec motive (fun items => ∀ item ∈ items, motive item) (fun entries => ∀ e ∈ entries, motive e.2)
    (fun e => motive e.2) scalar list table nofun (fun _ _ hi hrest => List.forall_mem_cons.2 ⟨hi, hrest⟩) nofun
    (fun _ _ he hrest => List.forall_mem_cons.2 ⟨he, hrest⟩) (fun _ _ h => h) item

/-! ## The JSON value of an item

An item is written as JSON in the order that its tables are written in: plain values first, then lists of tables, then
tables. -/

/-- One entry of a table is written before another: plain values come first, then lists with tables among their
elements, then tables, and within each of these names come in order. -/
def Before (a b : String × Item) : Prop := a.2.pass < b.2.pass ∨ a.2.pass = b.2.pass ∧ a.1 ≤ b.1

/-- Which JSON value an item has. -/
inductive Item.Json : Item → Value → Prop
  | text (s : String) : Json (.scalar (.text s)) (.str s)
  | int (n : Int) : Json (.scalar (.int n)) (.num (.int n))
  | float {f : Float} (finite : f.isFinite = true) : Json (.scalar (.float f)) (.num (.float f))
  /-- What is no number has no value. -/
  | unbounded {f : Float} (infinite : f.isFinite = false) : Json (.scalar (.float f)) .null
  | bool (b : Bool) : Json (.scalar (.bool b)) (.bool b)
  /-- A moment is an object with its text. -/
  | moment (s : String) : Json (.scalar (.moment s)) (.obj [(momentKey, .str s)])
  /-- A list has the values of its elements. -/
  | list {items : List Item} {vs : List Value} (values : List.Forall₂ Json items vs) : Json (.list items) (.arr vs)
  /-- A table has the values of its entries under their names, in the order in which they are written. -/
  | table {entries ordered : List (String × Item)} {fields : List (String × Value)} (all : ordered.Perm entries)
      (order : ordered.Pairwise Before) (names : fields.map Prod.fst = ordered.map Prod.fst)
      (values : List.Forall₂ Json (ordered.map Prod.snd) (fields.map Prod.snd)) : Json (.table entries) (.obj fields)

theorem itemValues_eq_map (items : List Item) : itemValues items = items.map Item.value := by
  induction items with
  | nil => rfl
  | cons item rest ih => rw [itemValues, ih, List.map_cons]

/-- An entry with its pass and its value. -/
def entryValue (e : String × Item) : String × Nat × Value := (e.1, e.2.pass, e.2.value)

theorem entryValues_eq_map (entries : List (String × Item)) : entryValues entries = entries.map entryValue := by
  induction entries with
  | nil => rfl
  | cons e rest ih => rw [entryValues, ih]; rfl

section
variable {α : Type} {a b c : String × Nat × α}

theorem writtenBefore_iff : writtenBefore a b = true ↔ a.2.1 < b.2.1 ∨ a.2.1 = b.2.1 ∧ a.1 ≤ b.1 := by
  simp [writtenBefore]

theorem writtenBefore_trans (h : writtenBefore a b = true) (h' : writtenBefore b c = true) :
    writtenBefore a c = true := by
  rw [writtenBefore_iff] at h h' ⊢
  rcases h with h | ⟨h, hname⟩ <;> rcases h' with h' | ⟨h', hname'⟩
  · exact .inl (h.trans h')
  · exact .inl (h' ▸ h)
  · exact .inl (h ▸ h')
  · exact .inr ⟨h.trans h', hname.trans hname'⟩

theorem writtenBefore_total (a b : String × Nat × α) : (writtenBefore a b || writtenBefore b a) = true := by
  rw [Bool.or_eq_true, writtenBefore_iff, writtenBefore_iff]
  rcases Nat.lt_trichotomy a.2.1 b.2.1 with h | h | h
  · exact .inl (.inl h)
  · exact (le_total a.1 b.1).imp (fun hname => .inr ⟨h, hname⟩) fun hname => .inr ⟨h.symm, hname⟩
  · exact .inr (.inl h)

end

/-- The value that is put for an item is its JSON value. -/
theorem json_value (item : Item) : item.Json item.value := by
  induction item using Item.induction with
  | scalar v =>
    cases v with
    | float f =>
      rw [Item.value, Scalar.value]
      split
      · next h => exact .float h
      · next h => exact .unbounded (Bool.eq_false_iff.2 h)
    | text s => exact .text s
    | int n => exact .int n
    | bool b => exact .bool b
    | moment s => exact .moment s
  | list items ih =>
    rw [Item.value, itemValues_eq_map]
    refine .list ?_
    rw [List.forall₂_map_right_iff, List.forall₂_same]
    exact ih
  | table entries ih =>
    -- The entries are sorted by the order in which they are written, and stably, so each kind keeps its order.
    let before (a b : String × Item) : Bool := writtenBefore (entryValue a) (entryValue b)
    have htrans : ∀ a b c, before a b = true → before b c = true → before a c = true := fun _ _ _ => writtenBefore_trans
    have htotal : ∀ a b, (before a b || before b a) = true := fun _ _ => writtenBefore_total _ _
    have hsorted := List.pairwise_mergeSort htrans htotal entries
    have hfields : (entryValues entries).mergeSort writtenBefore = (entries.mergeSort before).map entryValue := by
      rw [entryValues_eq_map]
      exact (List.map_mergeSort (f := entryValue) (r := before) fun _ _ _ _ => rfl).symm
    rw [Item.value, hfields, List.map_map]
    refine .table (List.mergeSort_perm entries before) (hsorted.imp writtenBefore_iff.1) ?_ ?_
    · rw [List.map_map]
      rfl
    · rw [List.map_map, List.forall₂_map_left_iff, List.forall₂_map_right_iff, List.forall₂_same]
      exact fun e he => ih e (List.mem_mergeSort.1 he)

/-- A table in a list is written with its plain values first and its tables last. -/
example : (Item.list [.table [("b", .table [("x", .scalar (.int 1))]), ("c", .list [.table []]),
    ("d", .scalar (.int 3))]]).value =
      .arr [.obj [("d", .num (.int 3)), ("c", .arr [.obj []]), ("b", .obj [("x", .num (.int 1))])]] := by
  cbv

/-! ## Leaves

A leaf is a value that is no table, under the names of the tables around it. -/

/-- A value that is no table, and the keys on the way to it. -/
structure Leaf where
  path : List String
  item : Item

namespace Leaf

/-- The name that the leaf goes under. -/
def name (leaf : Leaf) : String := "_".intercalate leaf.path

/-- The leaf as one of a table that has it under the key. -/
def under (key : String) (leaf : Leaf) : Leaf := { leaf with path := key :: leaf.path }

/-- What is put for the leaf. -/
def entry (leaf : Leaf) : String × Value := (leaf.name, leaf.item.value)

end Leaf

/-- The leaves of a table, given those under each of its keys: in the order of the keys. -/
def gather (parts : List (String × List Leaf)) : List Leaf :=
  (Table.sorted parts).flatMap fun (key, part) => part.map (.under key)

mutual

/-- The leaves of an item, depth first. -/
def Item.leaves : Item → List Leaf
  | .scalar v => [⟨[], .scalar v⟩]
  | .list items => [⟨[], .list items⟩]
  | .table entries => gather (entryLeaves entries)

def entryLeaves : List (String × Item) → List (String × List Leaf)
  | [] => []
  | (key, item) :: rest => (key, item.leaves) :: entryLeaves rest

end

/-- Where a path leads in an item: through tables to a value that is none. -/
inductive Leads : Item → List String → Item → Prop
  | scalar {v : Scalar} : Leads (.scalar v) [] (.scalar v)
  | list {items : List Item} : Leads (.list items) [] (.list items)
  | table {entries : List (String × Item)} {key : String} {item leaf : Item} {path : List String}
      (hkey : (key, item) ∈ entries) (hpath : Leads item path leaf) : Leads (.table entries) (key :: path) leaf

variable {item leaf : Item} {path : List String}

theorem entryLeaves_eq_map (entries : List (String × Item)) :
    entryLeaves entries = entries.map fun e => (e.1, e.2.leaves) := by
  induction entries with
  | nil => rfl
  | cons e rest ih => rw [entryLeaves, ih]; rfl

theorem entryBranches_eq_map (entries : List (String × Item)) :
    entryBranches entries = entries.map fun e => (e.1, e.2.branch) := by
  induction entries with
  | nil => rfl
  | cons e rest ih => rw [entryBranches, ih]; rfl

theorem leaves_table (entries : List (String × Item)) :
    (Item.table entries).leaves = (Table.sorted entries).flatMap fun e => e.2.leaves.map (.under e.1) := by
  rw [Item.leaves, gather, entryLeaves_eq_map, Table.sorted_map, List.flatMap_map]

/-- The leaves are what paths lead to. -/
theorem mem_leaves : ⟨path, leaf⟩ ∈ item.leaves ↔ Leads item path leaf := by
  induction item using Item.induction generalizing path with
  | scalar v =>
    rw [Item.leaves, List.mem_singleton, Leaf.mk.injEq]
    constructor
    · rintro ⟨rfl, rfl⟩
      exact .scalar
    · rintro ⟨⟩
      exact ⟨rfl, rfl⟩
  | list items =>
    rw [Item.leaves, List.mem_singleton, Leaf.mk.injEq]
    constructor
    · rintro ⟨rfl, rfl⟩
      exact .list
    · rintro ⟨⟩
      exact ⟨rfl, rfl⟩
  | table entries ih =>
    rw [leaves_table, List.mem_flatMap]
    constructor
    · rintro ⟨⟨key, item⟩, hkey, hunder⟩
      obtain ⟨leaf, hleaf, he⟩ := List.mem_map.1 hunder
      cases he
      have hentry := List.mem_mergeSort.1 hkey
      exact .table hentry ((ih _ hentry).1 hleaf)
    · rintro (_ | _ | ⟨hkey, hpath⟩)
      exact ⟨_, List.mem_mergeSort.2 hkey, List.mem_map.2 ⟨_, (ih _ hkey).2 hpath, rfl⟩⟩

end Toml

/-! ## The names of leaves

The key of a leaf is made by joining these names with underscores, for each table in the same way. -/

namespace Properties

open Toml

/-- The name of a leaf under a name. -/
def within (name : String) (leaf : Leaf) : String × Value := (leaf.path.foldl joinKey name, leaf.item.value)

theorem tableLeaves_eq_flatMap (name : String) (entries : List (String × Branch)) :
    tableLeaves name entries = entries.flatMap fun e => leaves (joinKey name e.1) e.2 := by
  induction entries with
  | nil => rfl
  | cons e rest ih => rw [tableLeaves, ih, List.flatMap_cons]

/-- What is put for a branch under a name is what its leaves are within it. -/
theorem leaves_branch (item : Item) (name : String) : leaves name item.branch = item.leaves.map (within name) := by
  induction item using Item.induction generalizing name with
  | scalar v => rfl
  | list items => rfl
  | table entries ih =>
    have hentry : ∀ e ∈ Table.sorted entries,
        leaves (joinKey name e.1) e.2.branch = (e.2.leaves.map (.under e.1)).map (within name) := by
      intro e he
      rw [ih e (List.mem_mergeSort.1 he), List.map_map]
      rfl
    rw [Item.branch, leaves, entryBranches_eq_map, Table.sorted_map, tableLeaves_eq_flatMap, leaves_table,
      List.map_flatMap, List.flatMap_map]
    exact List.flatMap_congr hentry

theorem documentLeaves_eq (entries : Table Item) :
    documentLeaves entries = (Item.table entries).leaves.map (within "") := leaves_branch (.table entries) ""

/-- Behind a key that is not empty, keys are joined by underscores. -/
theorem foldl_joinKey {key : String} (hkey : key ≠ "") (path : List String) :
    path.foldl joinKey key = "_".intercalate (key :: path) := by
  induction path generalizing key with
  | nil => rfl
  | cons next path ih =>
    have hjoin : joinKey key next = key ++ "_" ++ next := by
      unfold joinKey
      rw [if_neg (by simpa using hkey)]
      rfl
    rw [List.foldl_cons, hjoin, ih (by simp [hkey])]
    rfl

/-- If no key of a document is empty, then its leaves are put under their names. -/
theorem documentLeaves_names {entries : Table Item} (h : "" ∉ Table.keys entries) :
    documentLeaves entries = (Item.table entries).leaves.map Leaf.entry := by
  rw [documentLeaves_eq, leaves_table]
  refine List.map_congr_left fun leaf hleaf => ?_
  obtain ⟨e, he, hunder⟩ := List.mem_flatMap.1 hleaf
  obtain ⟨leaf, -, rfl⟩ := List.mem_map.1 hunder
  have hkey : e.1 ≠ "" := fun hempty => h (hempty ▸ List.mem_map_of_mem (List.mem_mergeSort.1 he))
  have hname : leaf.path.foldl joinKey e.1 = "_".intercalate (e.1 :: leaf.path) := foldl_joinKey hkey leaf.path
  exact congrArg (·, leaf.item.value) hname

end Properties

/-! ## Loading in turn

Files are loaded one after the other, and a later leaf takes the place of an earlier one with the same key. A file
that cannot be read as a table counts for nothing. -/

/-- After all the puts a name has the last value that was put for it, or else its earlier value. -/
theorem Table.get?_putAll_last {α : Type} (t : Table α) (entries : List (String × α)) (key : String) :
    (t.putAll entries).get? key = ((entries.filter (·.1 = key)).getLast?.map (·.2)).or (t.get? key) := by
  unfold putAll
  induction entries generalizing t with
  | nil => rfl
  | cons e entries ih =>
    rw [List.foldl_cons, ih, List.filter_cons]
    by_cases he : e.1 = key
    · subst he
      rw [get?_put_self, if_pos (by simp), List.getLast?_cons]
      cases (entries.filter _).getLast? <;> rfl
    · rw [get?_put_of_ne _ _ (Ne.symm he), if_neg (by simpa using he)]

namespace Properties

open Toml

/-- The leaves of a text, none if it is no document. -/
def textLeaves (read : List Char → Option (Table Item)) (source : List Char) : List Leaf :=
  match read source with
  | some entries => (Item.table entries).leaves
  | none => []

/-- Loads one text after another. One that is no document is passed over. Tells for each how many leaves it had. -/
def loadAll (read : List Char → Option (Table Item)) (p : Properties) :
    List (List Char) → Properties × List (Option Nat)
  | [] => (p, [])
  | source :: rest =>
    match loadBy? read p source with
    | some (q, count) => ((q.loadAll read rest).1, some count :: (q.loadAll read rest).2)
    | none => ((p.loadAll read rest).1, none :: (p.loadAll read rest).2)

variable {read : List Char → Option (Table Item)} {source : List Char} {sources : List (List Char)}

/-- A document is loaded by putting the values of its leaves under their names, one after another. -/
theorem loadBy?_of_read (p : Properties) {entries : Table Item} (hread : read source = some entries)
    (hkeys : "" ∉ Table.keys entries) :
    loadBy? read p source =
      some (Table.putAll p ((textLeaves read source).map Leaf.entry), (textLeaves read source).length) := by
  unfold loadBy? textLeaves
  simp only [hread, Option.map_some, documentLeaves_names hkeys, List.length_map]

/-- What is no document is not loaded. -/
theorem loadBy?_of_not_read {p : Properties} (hread : read source = none) : loadBy? read p source = none := by
  unfold loadBy?
  rw [hread, Option.map_none]

/-- After leaves are put under their names, a name has the value of its last leaf, or else its earlier value. -/
theorem get?_putAll_leaves (p : Properties) (leaves : List Leaf) (key : String) :
    (Table.putAll p (leaves.map Leaf.entry)).get? key =
      ((leaves.filter (·.name = key)).getLast?.map (·.item.value)).or (Table.get? p key) := by
  rw [Table.get?_putAll_last, List.filter_map, List.getLast?_map, Option.map_map]
  rfl

theorem loadAll_cons_of_not_read (p : Properties) (hread : read source = none) (rest : List (List Char)) :
    p.loadAll read (source :: rest) = ((p.loadAll read rest).1, none :: (p.loadAll read rest).2) := by
  rw [loadAll, loadBy?_of_not_read hread]

theorem loadAll_cons_of_read (p : Properties) {entries : Table Item} (hread : read source = some entries)
    (hkeys : "" ∉ Table.keys entries) (rest : List (List Char)) :
    p.loadAll read (source :: rest) =
      ((loadAll read (Table.putAll p ((textLeaves read source).map Leaf.entry)) rest).1,
        some (textLeaves read source).length ::
          (loadAll read (Table.putAll p ((textLeaves read source).map Leaf.entry)) rest).2) := by
  rw [loadAll, loadBy?_of_read p hread hkeys]

/-- What is put last under a name stays. -/
theorem get?_loadAll (p : Properties)
    (hkeys : ∀ source ∈ sources, ∀ entries, read source = some entries → "" ∉ Table.keys entries) (key : String) :
    Table.get? (p.loadAll read sources).1 key =
      (((sources.flatMap (textLeaves read)).filter (·.name = key)).getLast?.map (·.item.value)).or
        (Table.get? p key) := by
  induction sources generalizing p with
  | nil => rfl
  | cons source rest ih =>
    obtain ⟨hsource, hrest⟩ := List.forall_mem_cons.1 hkeys
    cases hread : read source with
    | none =>
      have hnone : textLeaves read source = [] := by
        unfold textLeaves
        rw [hread]
      rw [loadAll_cons_of_not_read p hread, List.flatMap_cons, hnone, List.nil_append]
      exact ih p hrest
    | some entries =>
      -- the last leaf is one of the rest, if there is one there, or else one of the first text
      rw [loadAll_cons_of_read p hread (hsource entries hread), ih _ hrest, get?_putAll_leaves, List.flatMap_cons,
        List.filter_append, List.getLast?_append, Option.map_or, Option.or_assoc]

/-- Each document is told how many leaves it has, also of those that go under one name. -/
theorem counts_loadAll (p : Properties)
    (hkeys : ∀ source ∈ sources, ∀ entries, read source = some entries → "" ∉ Table.keys entries) :
    (p.loadAll read sources).2 =
      sources.map fun source => (read source).map fun _ => (textLeaves read source).length := by
  induction sources generalizing p with
  | nil => rfl
  | cons source rest ih =>
    obtain ⟨hsource, hrest⟩ := List.forall_mem_cons.1 hkeys
    cases hread : read source with
    | none => rw [loadAll_cons_of_not_read p hread, List.map_cons, hread, ih p hrest, Option.map_none]
    | some entries =>
      rw [loadAll_cons_of_read p hread (hsource entries hread), List.map_cons, hread, ih _ hrest, Option.map_some]

/-- What is no document might as well not be there. -/
theorem loadAll_filter (p : Properties)
    (hkeys : ∀ source ∈ sources, ∀ entries, read source = some entries → "" ∉ Table.keys entries) :
    (p.loadAll read sources).1 = (p.loadAll read (sources.filter fun source => (read source).isSome)).1 := by
  induction sources generalizing p with
  | nil => rfl
  | cons source rest ih =>
    obtain ⟨hsource, hrest⟩ := List.forall_mem_cons.1 hkeys
    cases hread : read source with
    | none =>
      rw [loadAll_cons_of_not_read p hread, List.filter_cons_of_neg (by simp [hread])]
      exact ih p hrest
    | some entries =>
      have hentries := hsource entries hread
      rw [loadAll_cons_of_read p hread hentries, List.filter_cons_of_pos (by simp [hread]),
        loadAll_cons_of_read p hread hentries]
      exact ih _ hrest

/-- Loading texts in turn puts leaves, and the last one of a name stays, with its JSON value. A name that no leaf goes
under keeps its value. Each document is told how many leaves it has, also of those that go under one name. And what is
no document might as well not be there. So it is whatever reader there is. -/
theorem loadAll_last_leaf (read : List Char → Option (Table Item)) (p : Properties)
    (hkeys : ∀ source ∈ sources, ∀ entries, read source = some entries → "" ∉ Table.keys entries) :
    (∀ key, match ((sources.flatMap (textLeaves read)).filter (·.name = key)).getLast? with
      | some leaf => ∃ v, Table.get? (p.loadAll read sources).1 key = some v ∧ leaf.item.Json v
      | none => Table.get? (p.loadAll read sources).1 key = Table.get? p key) ∧
    (∀ source entries, read source = some entries → ∀ path item,
      ⟨path, item⟩ ∈ textLeaves read source ↔ Leads (.table entries) path item) ∧
    (p.loadAll read sources).2 = sources.map (fun source => (read source).map fun _ => (textLeaves read source).length) ∧
    (p.loadAll read sources).1 = (p.loadAll read (sources.filter fun source => (read source).isSome)).1 := by
  refine ⟨fun key => ?_, ?_, counts_loadAll p hkeys, loadAll_filter p hkeys⟩
  · have hget := get?_loadAll p hkeys key
    split
    · next leaf hleaf =>
      rw [hleaf] at hget
      exact ⟨_, hget, json_value leaf.item⟩
    · next hnone =>
      rw [hnone] at hget
      exact hget
  · intro source entries hread path item
    unfold textLeaves
    rw [hread]
    exact mem_leaves

/-- Two documents with three leaves of one name, and a text that is no document. -/
def colliding : List (List Char) :=
  ["A_B_1 = 'one'".toList, "[A]\nB_1 = 'two'\n[A_B]\n1 = 'three'".toList, "= nope".toList]

/-- The last of the three leaves stays. -/
theorem loadAll_last_leaf_colliding :
    (∀ source ∈ colliding, ∀ entries, read? source = some entries → "" ∉ Table.keys entries) ∧
    Table.get? (loadAll read? [("A_B_1", .null), ("C", .null)] colliding).1 "A_B_1" = some (.str "three") ∧
    Table.get? (loadAll read? [("A_B_1", .null), ("C", .null)] colliding).1 "C" = some .null ∧
    (loadAll read? [("A_B_1", .null), ("C", .null)] colliding).2 = [some 1, some 2, none] := by
  have hkeys : ∀ source ∈ colliding, ∀ entries, read? source = some entries → "" ∉ Table.keys entries := by
    have hnames : colliding.map (fun source => (read? source).map Table.keys) =
        [some ["A_B_1"], some ["A", "A_B"], none] := by cbv
    intro source hsource entries hread hempty
    have hmem : some (Table.keys entries) ∈ [some ["A_B_1"], some ["A", "A_B"], none] :=
      hnames ▸ List.mem_map.2 ⟨source, hsource, by rw [hread]; rfl⟩
    rcases List.mem_cons.1 hmem with h | hmem
    · simp [Option.some.inj h] at hempty
    · rcases List.mem_cons.1 hmem with h | hmem
      · simp [Option.some.inj h] at hempty
      · simp at hmem
  have hleaves : colliding.flatMap (textLeaves read?) = [⟨["A_B_1"], .scalar (.text "one")⟩,
      ⟨["A", "B_1"], .scalar (.text "two")⟩, ⟨["A_B", "1"], .scalar (.text "three")⟩] := by cbv
  have hlengths : colliding.map (fun source => (read? source).map fun _ => (textLeaves read? source).length) =
      [some 1, some 2, none] := by cbv
  obtain ⟨hvalues, -, hcounts, -⟩ := loadAll_last_leaf read? [("A_B_1", .null), ("C", .null)] hkeys
  rw [hleaves] at hvalues
  obtain ⟨v, hv, hjson⟩ := hvalues "A_B_1"
  cases hjson
  exact ⟨hkeys, hv, hvalues "C", hcounts.trans hlengths⟩

end Properties
end Sequencer
