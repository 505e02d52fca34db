import DbStorage.Parquet.Column

/-!
# Nested values (`parquet/nested.rs`)

The leaves of nested fields are stored as columns of values with definition
and repetition levels. `reconstruct_row_group` puts the records together
again from them.

`Field` and `Top` are the schemas in the reader's scope, and `shred` writes
records as columns by the Dremel rules. Indexing out of range panics, which
is an error of the model. Result: `reconstruct_returns_records` (shredding
and then reconstructing gives back the records).
-/
namespace DbStorage.Parquet
open List

/-- mirrors reader.rs:106-113; a float is its bits -/
inductive LeafScalar where
  | int32 (v : Int32)
  | int64 (v : Int64)
  | float (bits : UInt32)
  | double (bits : UInt64)
  | bool (b : Bool)
  | str (s : List Char)
  deriving DecidableEq

/-- mirrors nested.rs:16-21 -/
inductive NestedValue where
  | null
  | scalar (s : LeafScalar)
  | list (vs : List NestedValue)
  | struct (fields : List (List Char × NestedValue))

/-- mirrors nested.rs:28-32 -/
structure LeafEntries where
  repLevels : List Nat
  defLevels : List Nat
  values : List (Option LeafScalar)

inductive NestedError where
  | missingLeafData (path : List Char)
  | unsupportedListElement (path : List Char)
  | unsupportedMapShape (path : List Char)
  | panicked
  deriving DecidableEq

/-- The map from paths to columns. -/
abbrev LeafData := List Char → Option LeafEntries

namespace SchemaNode

def name : SchemaNode → List Char
  | .mk name _ _ _ _ => name

def element : SchemaNode → SchemaElement
  | .mk _ element _ _ _ => element

def children : SchemaNode → List SchemaNode
  | .mk _ _ children _ _ => children

def maxDefLevel : SchemaNode → Nat
  | .mk _ _ _ d _ => d

/-- mirrors schema_tree.rs:18-20 -/
def isLeaf (n : SchemaNode) : Bool := n.children.isEmpty

def isRepeated (n : SchemaNode) : Bool := decide (n.element.repetition = some .repeated)

end SchemaNode

/-- `format!("{path}.{}", name)` -/
def dot (path name : List Char) : List Char := path ++ '.' :: name

/-- `map_or(NestedValue::Null, NestedValue::Scalar)` -/
def ofScalar : Option LeafScalar → NestedValue
  | none => .null
  | some s => .scalar s

/-- mirrors nested.rs:151-157 -/
def firstLeafPath : SchemaNode → List Char → List Char
  | .mk _ _ [] _ _, path => path
  | .mk _ _ (child :: _) _ _, path => firstLeafPath child (dot path child.name)

/-- mirrors nested.rs:159-161 -/
def isMap (n : SchemaNode) : Bool :=
  decide (n.element.convertedType = some (.other 1)) && decide (n.children.length = 1)

/-- The elements of one row from `i` on, and where the next row starts. -/
def elements (rep : List Nat) (elementAt : Nat → Option NestedValue) : Nat → Nat → Option (List NestedValue × Nat)
  | 0, _ => none
  | f + 1, i => do
    let v ← elementAt i
    if rep.length ≤ i + 1 ∨ rep[i + 1]? = some 0 then pure ([v], i + 1)
    else do
      let (vs, j) ← elements rep elementAt f (i + 1)
      pure (v :: vs, j)

/-- The loop over the rows. -/
def repeatedRows (wrapperDef repeatedDef : Nat) (rep defs : List Nat) (elementAt : Nat → Option NestedValue) :
    Nat → Nat → Option (List NestedValue)
  | 0, _ => some []
  | n + 1, i => do
    let d ← defs[i]?
    if d < wrapperDef then
      let more ← repeatedRows wrapperDef repeatedDef rep defs elementAt n (i + 1)
      pure (.null :: more)
    else if d < repeatedDef then
      let more ← repeatedRows wrapperDef repeatedDef rep defs elementAt n (i + 1)
      pure (.list [] :: more)
    else do
      let (vs, j) ← elements rep elementAt (rep.length + 1) i
      let more ← repeatedRows wrapperDef repeatedDef rep defs elementAt n j
      pure (.list vs :: more)

/-- mirrors nested.rs:258-291 -/
def buildRepeated (wrapper repeated : SchemaNode) (numRows : Nat) (rep defs : List Nat)
    (elementAt : Nat → Option NestedValue) : Except NestedError (List NestedValue) :=
  match repeatedRows wrapper.maxDefLevel repeated.maxDefLevel rep defs elementAt numRows 0 with
  | none => .error .panicked
  | some rows => .ok rows

def mapEntry (e : Option LeafScalar × Option LeafScalar) : NestedValue :=
  .struct [(['k', 'e', 'y'], ofScalar e.1), (['v', 'a', 'l', 'u', 'e'], ofScalar e.2)]

def mapElementAt (keys values : LeafEntries) (i : Nat) : Option NestedValue := do
  let k ← keys.values[i]?
  let v ← values.values[i]?
  pure (mapEntry (k, v))

def listElementAt (entries : LeafEntries) (i : Nat) : Option NestedValue := (entries.values[i]?).map ofScalar

def lookup (leaves : LeafData) (path : List Char) : Except NestedError LeafEntries :=
  match leaves path with
  | none => .error (.missingLeafData path)
  | some entries => .ok entries

/-- mirrors nested.rs:164-211 -/
def buildMapField (leaves : LeafData) (node : SchemaNode) (path : List Char) (numRows : Nat) :
    Except NestedError (List NestedValue) :=
  match node.children with
  | [] => .error .panicked
  | keyValue :: _ =>
    match keyValue.children with
    | [keyNode, valueNode] =>
      if !keyNode.isLeaf || !valueNode.isLeaf then .error (.unsupportedMapShape path)
      else do
        let keys ← lookup leaves (dot (dot path keyValue.name) keyNode.name)
        let values ← lookup leaves (dot (dot path keyValue.name) valueNode.name)
        buildRepeated node keyValue numRows keys.repLevels keys.defLevels (mapElementAt keys values)
    | _ => .error (.unsupportedMapShape path)

/-- mirrors nested.rs:215-251 -/
def buildListField (leaves : LeafData) (node : SchemaNode) (path : List Char) (numRows : Nat) :
    Except NestedError (List NestedValue) :=
  match node.children with
  | [] => .error .panicked
  | repeated :: _ =>
    let found : SchemaNode × List Char :=
      match repeated.children with
      | [] => (repeated, dot path repeated.name)
      | element :: _ => (element, dot (dot path repeated.name) element.name)
    if !found.1.isLeaf then .error (.unsupportedListElement path)
    else do
      let entries ← lookup leaves found.2
      buildRepeated node repeated numRows entries.repLevels entries.defLevels (listElementAt entries)

/-- The value of a struct in one row. -/
def structRow (maxDef : Nat) (defs : List Nat) (fields : List (List Char × List NestedValue)) (row : Nat) :
    Except NestedError NestedValue :=
  match defs[row]? with
  | none => .error .panicked
  | some d =>
    if d < maxDef then .ok .null
    else
      match fields.mapM fun (name, vals) => (vals[row]?).map (name, ·) with
      | none => .error .panicked
      | some fs => .ok (.struct fs)

mutual

/-- mirrors nested.rs:85-149 -/
def buildField (leaves : LeafData) (numRows : Nat) : SchemaNode → List Char → Except NestedError (List NestedValue)
  | .mk name element children d r, path =>
    let node := SchemaNode.mk name element children d r
    if children.isEmpty then do
      let entries ← lookup leaves path
      pure (entries.values.map ofScalar)
    else if node.isRepeated then buildListField leaves node path numRows
    else if isMap node then buildMapField leaves node path numRows
    else if children.length = 1 ∧ children.any SchemaNode.isRepeated then buildListField leaves node path numRows
    else do
      let driver ← lookup leaves (firstLeafPath node path)
      let fields ← buildStructFields leaves numRows children path
      (List.range numRows).mapM (structRow d driver.defLevels fields)

/-- The loop over a struct's children. -/
def buildStructFields (leaves : LeafData) (numRows : Nat) :
    List SchemaNode → List Char → Except NestedError (List (List Char × List NestedValue))
  | [], _ => .ok []
  | child :: children, path => do
    let vals ← buildField leaves numRows child (dot path child.name)
    let more ← buildStructFields leaves numRows children path
    pure ((child.name, vals) :: more)

end

/-- mirrors nested.rs:69-83 -/
def reconstructRowGroup (root : SchemaNode) (numRows : Nat) (leaves : LeafData) :
    Except NestedError (List (List Char × List NestedValue)) :=
  root.children.mapM fun field => do
    let vals ← buildField leaves numRows field field.name
    pure (field.name, vals)

/-! ## Repeated columns -/

variable {elementAt : Nat → Option NestedValue} {α : Type} {i : Nat} {wrapper repeated : SchemaNode}
  {records : List (List NestedValue)}

section Repeated
variable {β : Type}

/-- What a row of a list or map is written as, with its repetition and
definition levels: a null and an empty list take one entry without an
element. -/
def rowEntries (wrapperDef : Nat) (elemDef : β → Nat) : Option (List β) → List (Nat × Nat × Option β)
  | none => [(0, 0, none)]
  | some [] => [(0, wrapperDef, none)]
  | some (b :: bs) => (0, elemDef b, some b) :: bs.map fun c => (1, elemDef c, some c)

def ofRow (conv : β → NestedValue) : Option (List β) → NestedValue
  | none => .null
  | some bs => .list (bs.map conv)

/-- The elements of a row that starts behind `pre`: the first entry's level is
not looked at, all the others continue the row. -/
theorem elements_of {conv : β → NestedValue} {es : List (Nat × Nat × Option β)}
    (helem : ∀ i r d b, es[i]? = some (r, d, some b) → elementAt i = some (conv b)) (elemDef : β → Nat) (bs : List β) :
    ∀ (pre post : List (Nat × Nat × Option β)) (r : Nat) (b : β) (f : Nat),
      es = pre ++ (r, elemDef b, some b) :: (bs.map fun c => (1, elemDef c, some c)) ++ post →
      (∀ e ∈ post.head?, e.1 = 0) → bs.length < f →
      elements (es.map (·.1)) elementAt f pre.length = some ((b :: bs).map conv, pre.length + bs.length + 1) := by
  induction bs with
  | nil =>
    intro pre post r b f hes hpost hf
    obtain ⟨f, rfl⟩ := Nat.exists_eq_succ_of_ne_zero (by simp at hf; omega : f ≠ 0)
    have hat : elementAt pre.length = some (conv b) := helem _ r (elemDef b) b (by subst hes; simp)
    have hstop : (es.map (·.1)).length ≤ pre.length + 1 ∨ (es.map (·.1))[pre.length + 1]? = some 0 := by
      subst hes
      cases post with
      | nil => left; simp
      | cons e post =>
        right
        have he : e.1 = 0 := hpost e rfl
        simp [he]
    simp only [elements, hat, if_pos hstop]
    rfl
  | cons c bs ih =>
    intro pre post r b f hes hpost hf
    obtain ⟨f, rfl⟩ := Nat.exists_eq_succ_of_ne_zero (by simp at hf; omega : f ≠ 0)
    have hat : elementAt pre.length = some (conv b) := helem _ r (elemDef b) b (by subst hes; simp)
    have hgo : ¬ ((es.map (·.1)).length ≤ pre.length + 1 ∨ (es.map (·.1))[pre.length + 1]? = some 0) := by
      subst hes
      simp
    have hrec := ih (pre ++ [(r, elemDef b, some b)]) post 1 c f (by rw [hes]; simp) hpost
      (by simp only [length_cons] at hf; omega)
    rw [length_append, length_singleton] at hrec
    simp only [elements, hat, if_neg hgo]
    simp only [bind, Option.bind, hrec, pure]
    simp only [map_cons, length_cons, Option.some.injEq, Prod.mk.injEq, true_and]
    omega

/-- Rows are found again, from any row on. -/
theorem repeatedRows_of {conv : β → NestedValue} {wrapperDef repeatedDef : Nat} {elemDef : β → Nat}
    (hle : wrapperDef < repeatedDef) (hdef : ∀ b, repeatedDef ≤ elemDef b) {es : List (Nat × Nat × Option β)}
    (helem : ∀ i r d b, es[i]? = some (r, d, some b) → elementAt i = some (conv b)) (rows : List (Option (List β)))
    (hnull : none ∈ rows → 0 < wrapperDef) :
    ∀ pre, es = pre ++ rows.flatMap (rowEntries wrapperDef elemDef) →
      repeatedRows wrapperDef repeatedDef (es.map (·.1)) (es.map (·.2.1)) elementAt rows.length pre.length =
        some (rows.map (ofRow conv)) := by
  induction rows with
  | nil => exact fun _ _ => rfl
  | cons row rows ih =>
    intro pre hes
    have ih := ih fun h => hnull (mem_cons_of_mem _ h)
    rw [flatMap_cons] at hes
    rw [length_cons]
    match row, hes with
    | none, hes =>
      have hpos := hnull mem_cons_self
      have hd : (es.map (·.2.1))[pre.length]? = some 0 := by rw [hes]; simp [rowEntries]
      have hrec := ih (pre ++ [(0, 0, none)]) (by rw [hes]; simp [rowEntries])
      rw [length_append, length_singleton] at hrec
      simp only [repeatedRows, hd, bind, Option.bind, if_pos hpos, hrec]
      rfl
    | some [], hes =>
      have hd : (es.map (·.2.1))[pre.length]? = some wrapperDef := by rw [hes]; simp [rowEntries]
      have hrec := ih (pre ++ [(0, wrapperDef, none)]) (by rw [hes]; simp [rowEntries])
      rw [length_append, length_singleton] at hrec
      simp only [repeatedRows, hd, bind, Option.bind, if_neg (Nat.lt_irrefl _), if_pos hle, hrec]
      rfl
    | some (b :: bs), hes =>
      have hd : (es.map (·.2.1))[pre.length]? = some (elemDef b) := by rw [hes]; simp [rowEntries]
      have hb := hdef b
      have hhead : ∀ e ∈ (rows.flatMap (rowEntries wrapperDef elemDef)).head?, e.1 = 0 := by
        intro e he
        cases rows with
        | nil => cases he
        | cons row rows =>
          rw [flatMap_cons] at he
          match row with
          | none => simp [rowEntries] at he; simp [← he]
          | some [] => simp [rowEntries] at he; simp [← he]
          | some (c :: cs) => simp [rowEntries] at he; simp [← he]
      have helems := elements_of helem elemDef bs pre _ 0 b ((es.map (·.1)).length + 1)
        (by rw [hes]; simp [rowEntries]) hhead
        (by rw [hes]; simp [rowEntries]; omega)
      have hrec := ih (pre ++ (0, elemDef b, some b) :: bs.map fun c => (1, elemDef c, some c))
        (by rw [hes]; simp [rowEntries])
      rw [length_append, length_cons, length_map, ← Nat.add_assoc] at hrec
      simp only [repeatedRows, hd, bind, Option.bind, if_neg (by omega : ¬ elemDef b < wrapperDef),
        if_neg (by omega : ¬ elemDef b < repeatedDef), helems, hrec]
      rfl

end Repeated

/-! ## Structs: what is written -/

/-- A field of leaves and structs. -/
inductive Field where
  | leaf (name : List Char) (optional : Bool) (attributes : SchemaElement)
  | struct (name : List Char) (optional : Bool) (children : List Field)

def Field.name : Field → List Char
  | .leaf name _ _ => name
  | .struct name _ _ => name

def levelUp (optional : Bool) : Nat := if optional then 1 else 0

def repetitionOf (optional : Bool) : Repetition := if optional then .optional else .required

def leafElement (name : List Char) (r : Repetition) (attributes : SchemaElement) : SchemaElement :=
  { attributes with name := name, repetition := some r, numChildren := none }

def groupElement (name : List Char) (r : Repetition) (count : Nat) (c : Option ConvertedType) : SchemaElement where
  name := name
  physicalType := none
  repetition := some r
  numChildren := some (Int32.ofNat count)
  typeLength := none
  convertedType := c
  scale := none
  precision := none

mutual

/-- The node of a field whose parents have level `d`. -/
def Field.node (d : Nat) : Field → SchemaNode
  | .leaf name o a => .mk name (leafElement name (repetitionOf o) a) [] (d + levelUp o) 0
  | .struct name o cs =>
    .mk name (groupElement name (repetitionOf o) cs.length none) (Field.nodes (d + levelUp o) cs) (d + levelUp o) 0

def Field.nodes (d : Nat) : List Field → List SchemaNode
  | [] => []
  | c :: cs => c.node d :: Field.nodes d cs

end

mutual

/-- The values of a field. -/
def Field.Conforms : Field → NestedValue → Prop
  | .leaf _ o _, v => (v = .null ∧ o = true) ∨ ∃ s, v = .scalar s
  | .struct _ o cs, v => (v = .null ∧ o = true) ∨ ∃ fs, v = .struct fs ∧ Field.AllConform cs fs

def Field.AllConform : List Field → List (List Char × NestedValue) → Prop
  | [], fs => fs = []
  | c :: cs, fs => ∃ v rest, fs = (c.name, v) :: rest ∧ c.Conforms v ∧ Field.AllConform cs rest

end

mutual

/-- A struct has fields, as many as an `i32` counts. -/
def Field.Shaped : Field → Prop
  | .leaf _ _ _ => True
  | .struct _ _ cs => cs ≠ [] ∧ cs.length < 2 ^ 31 ∧ Field.AllShaped cs

def Field.AllShaped : List Field → Prop
  | [] => True
  | c :: cs => c.Shaped ∧ Field.AllShaped cs

end

/-- A field in one row: its value, or the level of the ancestor that is
null. -/
inductive Row where
  | dead (d : Nat)
  | live (v : NestedValue)

/-- The fields of a struct in one row. -/
inductive FieldsRow where
  | dead (d : Nat)
  | live (fs : List (List Char × NestedValue))

/-- `d` is the level of the parents of the struct: what its leaves get if it
is null. -/
def Row.open (d : Nat) : Row → FieldsRow
  | .dead k => .dead k
  | .live (.struct fs) => .live fs
  | .live _ => .dead d

def FieldsRow.head : FieldsRow → Row
  | .dead k => .dead k
  | .live ((_, v) :: _) => .live v
  | .live [] => .dead 0

def FieldsRow.tail : FieldsRow → FieldsRow
  | .dead k => .dead k
  | .live fs => .live fs.tail

/-- The definition level counts the optional ancestors that are there, the
leaf included. -/
def Row.level (d : Nat) (optional : Bool) : Row → Nat
  | .dead k => k
  | .live (.scalar _) => d + levelUp optional
  | .live _ => d

def Row.value : Row → Option LeafScalar
  | .live (.scalar s) => some s
  | _ => none

def leafColumn (d : Nat) (optional : Bool) (rows : List Row) : LeafEntries where
  repLevels := rows.map fun _ => 0
  defLevels := rows.map (Row.level d optional)
  values := rows.map Row.value

mutual

/-- The columns of the leaves of a field. -/
def Field.columns (d : Nat) : Field → List Char → List Row → List (List Char × LeafEntries)
  | .leaf _ o _, path, rows => [(path, leafColumn d o rows)]
  | .struct _ o cs, path, rows => Field.columnsList (d + levelUp o) cs path (rows.map (Row.open d))

def Field.columnsList (d : Nat) : List Field → List Char → List FieldsRow → List (List Char × LeafEntries)
  | [], _, _ => []
  | c :: cs, path, rows =>
    c.columns d (dot path c.name) (rows.map FieldsRow.head) ++ Field.columnsList d cs path (rows.map FieldsRow.tail)

end

/-! ## Structs are put together -/

theorem Field.nodes_length (d : Nat) (cs : List Field) : (Field.nodes d cs).length = cs.length := by
  induction cs with
  | nil => rfl
  | cons c cs ih => rw [Field.nodes, length_cons, ih, length_cons]

@[simp] theorem Field.node_name (d : Nat) (f : Field) : (f.node d).name = f.name := by
  cases f <;> rfl

theorem Field.node_not_repeated (d : Nat) (f : Field) : (f.node d).isRepeated = false := by
  cases f with
  | leaf name o a => cases o <;> rfl
  | struct name o cs => cases o <;> rfl

theorem Field.nodes_not_repeated (d : Nat) (cs : List Field) : (Field.nodes d cs).any SchemaNode.isRepeated = false := by
  induction cs with
  | nil => rfl
  | cons c cs ih => rw [Field.nodes, any_cons, c.node_not_repeated, ih]; rfl

def Row.Fits (f : Field) : Row → Prop
  | .dead _ => True
  | .live v => f.Conforms v

def FieldsRow.Fits (cs : List Field) : FieldsRow → Prop
  | .dead _ => True
  | .live fs => Field.AllConform cs fs

theorem Row.Fits.open {name : List Char} {o : Bool} {cs : List Field} {row : Row} (d : Nat)
    (h : row.Fits (.struct name o cs)) : (row.open d).Fits cs := by
  cases row with
  | dead k => trivial
  | live v =>
    rw [Row.Fits, Field.Conforms] at h
    obtain ⟨rfl, -⟩ | ⟨fs, rfl, hfs⟩ := h
    · trivial
    · exact hfs

theorem FieldsRow.Fits.head {c : Field} {cs : List Field} {row : FieldsRow} (h : row.Fits (c :: cs)) :
    row.head.Fits c := by
  cases row with
  | dead k => trivial
  | live fs =>
    rw [FieldsRow.Fits, Field.AllConform] at h
    obtain ⟨v, rest, rfl, hv, -⟩ := h
    exact hv

theorem FieldsRow.Fits.tail {c : Field} {cs : List Field} {row : FieldsRow} (h : row.Fits (c :: cs)) :
    row.tail.Fits cs := by
  cases row with
  | dead k => trivial
  | live fs =>
    rw [FieldsRow.Fits, Field.AllConform] at h
    obtain ⟨v, rest, rfl, -, hrest⟩ := h
    exact hrest

variable {l : List α}

theorem forall₂_mono {β : Type} {R S : α → β → Prop} {m : List β} (h : List.Forall₂ R l m)
    (hi : ∀ a ∈ l, ∀ b, R a b → S a b) : List.Forall₂ S l m := by
  induction h with
  | nil => exact .nil
  | cons hab _ ih =>
    exact .cons (hi _ mem_cons_self _ hab) (ih fun a ha => hi a (mem_cons_of_mem _ ha))

theorem forall₂_get {β : Type} {R : α → β → Prop} {m : List β} (h : List.Forall₂ R l m) {a : α} (ha : l[i]? = some a) :
    ∃ b, m[i]? = some b ∧ R a b := by
  induction h generalizing i with
  | nil => cases ha
  | cons hab _ ih =>
    cases i with
    | zero => cases ha; exact ⟨_, rfl, hab⟩
    | succ i => exact ih ha

/-- What the first leaf's level says of a row. -/
def Row.Drives (d : Nat) (row : Row) (k : Nat) : Prop :=
  match row with
  | .dead j => k = j
  | .live _ => d ≤ k

/-- The first leaf below a field is there, and a level in it below the field's
parents' comes from a null ancestor. -/
theorem Field.driver (f : Field) {d : Nat} (path : List Char) {rows : List Row} (hf : f.Shaped)
    (hr : ∀ row ∈ rows, row.Fits f) :
    ∃ e, (firstLeafPath (f.node d) path, e) ∈ f.columns d path rows ∧
      List.Forall₂ (Row.Drives d) rows e.defLevels := by
  match f with
  | .leaf name o a =>
    rw [Field.node, firstLeafPath, Field.columns]
    refine ⟨_, mem_singleton.2 rfl, ?_⟩
    rw [leafColumn, forall₂_map_right_iff, forall₂_same]
    intro row _
    match row with
    | .dead k => rfl
    | .live .null => exact Nat.le_refl _
    | .live (.scalar _) => exact Nat.le_add_right _ _
    | .live (.list _) => exact Nat.le_refl _
    | .live (.struct _) => exact Nat.le_refl _
  | .struct name o [] => exact absurd rfl hf.1
  | .struct name o (c :: cs) =>
    have hhead : ∀ row ∈ (rows.map (Row.open d)).map FieldsRow.head, row.Fits c := by
      intro row hrow
      simp only [map_map, mem_map] at hrow
      obtain ⟨row', hrow', rfl⟩ := hrow
      exact ((hr row' hrow').open d).head
    have hshaped : c.Shaped := by
      have := hf.2.2
      rw [Field.AllShaped] at this
      exact this.1
    obtain ⟨e, hmem, hdrive⟩ := Field.driver c (d := d + levelUp o) (dot path c.name) hshaped hhead
    refine ⟨e, ?_, ?_⟩
    · rw [Field.node, Field.nodes, firstLeafPath, Field.node_name, Field.columns, Field.columnsList]
      exact mem_append_left _ hmem
    · rw [map_map, forall₂_map_left_iff] at hdrive
      have hall : ∀ row ∈ rows, ∀ k, Row.Drives (d + levelUp o) ((FieldsRow.head ∘ Row.open d) row) k →
          Row.Drives d row k := by
        intro row hrow k hk
        have hfit := hr row hrow
        cases row with
        | dead j => exact hk
        | live v =>
          rw [Row.Fits, Field.Conforms] at hfit
          obtain ⟨rfl, -⟩ | ⟨fs, rfl, hfs⟩ := hfit
          · exact Nat.le_of_eq (Eq.symm hk)
          · rw [Field.AllConform] at hfs
            obtain ⟨v, rest, rfl, -, -⟩ := hfs
            exact Nat.le_trans (Nat.le_add_right _ _) hk
      exact forall₂_mono hdrive hall

/-- What is built for a row is its value, if it has one. -/
def Row.Agrees (row : Row) (v : NestedValue) : Prop := ∀ u, row = .live u → v = u

/-- Row by row, the fields of a struct. -/
def FieldsRow.Agrees (row : FieldsRow) (fs : List (List Char × NestedValue)) : Prop := ∀ gs, row = .live gs → fs = gs

theorem mapM_exists {β ε : Type} {g : α → Except ε β} {P : α → β → Prop} (h : ∀ a ∈ l, ∃ b, g a = .ok b ∧ P a b) :
    ∃ bs, l.mapM g = .ok bs ∧ List.Forall₂ P l bs := by
  induction l with
  | nil => exact ⟨[], rfl, .nil⟩
  | cons a l ih =>
    obtain ⟨b, hb, hP⟩ := h a mem_cons_self
    obtain ⟨bs, hbs, hPs⟩ := ih fun x hx => h x (mem_cons_of_mem _ hx)
    refine ⟨b :: bs, ?_, .cons hP hPs⟩
    rw [mapM_cons, hb, hbs]
    rfl

/-- The fields' values in row `i`. -/
def fieldsAt (fields : List (List Char × List NestedValue)) (i : Nat) : Option (List (List Char × NestedValue)) :=
  fields.mapM fun (name, vals) => (vals[i]?).map (name, ·)

/-- The columns are in the map. -/
def HasColumns (leaves : LeafData) (cols : List (List Char × LeafEntries)) : Prop := ∀ c ∈ cols, leaves c.1 = some c.2

theorem HasColumns.left {leaves : LeafData} {a b : List (List Char × LeafEntries)} (h : HasColumns leaves (a ++ b)) :
    HasColumns leaves a := fun c hc => h c (mem_append_left _ hc)

theorem HasColumns.right {leaves : LeafData} {a b : List (List Char × LeafEntries)} (h : HasColumns leaves (a ++ b)) :
    HasColumns leaves b := fun c hc => h c (mem_append_right _ hc)

theorem lookup_of {leaves : LeafData} {path : List Char} {e : LeafEntries} (h : leaves path = some e) :
    lookup leaves path = .ok e := by
  rw [lookup, h]

theorem structRow_of {name : List Char} {o : Bool} {c : Field} {cs : List Field} {d k : Nat} {row : Row}
    {defs : List Nat} {fields : List (List Char × List NestedValue)} {fs : List (List Char × NestedValue)}
    (hfit : row.Fits (.struct name o (c :: cs))) (hk : defs[i]? = some k)
    (hdrive : Row.Drives (d + levelUp o) (row.open d).head k) (hfs : fieldsAt fields i = some fs)
    (hagree : (row.open d).Agrees fs) : ∃ v, structRow (d + levelUp o) defs fields i = .ok v ∧ row.Agrees v := by
  unfold fieldsAt at hfs
  cases row with
  | dead j =>
    unfold structRow
    rw [hk]
    simp only [hfs]
    split
    · exact ⟨_, rfl, nofun⟩
    · exact ⟨_, rfl, nofun⟩
  | live v =>
    rw [Row.Fits, Field.Conforms] at hfit
    obtain ⟨rfl, rfl⟩ | ⟨gs, rfl, hgs⟩ := hfit
    · -- null: the leaves have the parents' level
      have hkd : k = d := hdrive
      have hlt : k < d + levelUp true := by rw [hkd]; exact Nat.lt_succ_self d
      refine ⟨.null, ?_, fun u hu => by cases hu; rfl⟩
      simp only [structRow, hk, if_pos hlt]
    · obtain rfl : fs = gs := hagree gs rfl
      rw [Field.AllConform] at hgs
      obtain ⟨u, rest, rfl, -, -⟩ := hgs
      have hle : ¬ k < d + levelUp o := Nat.not_lt.2 hdrive
      refine ⟨.struct ((c.name, u) :: rest), ?_, fun u hu => by cases hu; rfl⟩
      simp only [structRow, hk, if_neg hle, hfs]

/-- A struct is neither a list nor a map. -/
theorem buildField_struct {leaves : LeafData} {n d : Nat} {name path : List Char} {o : Bool} {cs : List Field}
    (hcs : cs ≠ []) :
    buildField leaves n ((Field.struct name o cs).node d) path = (do
      let driver ← lookup leaves (firstLeafPath ((Field.struct name o cs).node d) path)
      let fields ← buildStructFields leaves n (Field.nodes (d + levelUp o) cs) path
      (List.range n).mapM (structRow (d + levelUp o) driver.defLevels fields)) := by
  have hne : (Field.nodes (d + levelUp o) cs).isEmpty = false := by
    cases cs with
    | nil => exact absurd rfl hcs
    | cons c cs => rfl
  have hrep := (Field.struct name o cs).node_not_repeated d
  have hchildren := Field.nodes_not_repeated (d + levelUp o) cs
  rw [Field.node] at hrep ⊢
  have hmap : isMap (SchemaNode.mk name (groupElement name (repetitionOf o) cs.length none)
      (Field.nodes (d + levelUp o) cs) (d + levelUp o) 0) = false := rfl
  rw [buildField]
  simp only [hne, hrep, hmap, hchildren, Bool.false_eq_true, and_false, if_false]

mutual

theorem Field.build (f : Field) {leaves : LeafData} {d : Nat} {path : List Char} {rows : List Row} (hf : f.Shaped)
    (hr : ∀ row ∈ rows, row.Fits f) (hl : HasColumns leaves (f.columns d path rows)) :
    ∃ vals, buildField leaves rows.length (f.node d) path = .ok vals ∧ List.Forall₂ Row.Agrees rows vals := by
  match f with
  | .leaf name o a =>
    rw [Field.columns] at hl
    have hentries := lookup_of (hl _ (mem_singleton.2 rfl))
    refine ⟨_, by simp only [Field.node, buildField, isEmpty_nil, if_true, hentries]; rfl, ?_⟩
    rw [leafColumn, map_map, forall₂_map_right_iff, forall₂_same]
    intro row hrow v hv
    have hfit := hr row hrow
    subst hv
    rw [Row.Fits, Field.Conforms] at hfit
    obtain ⟨rfl, -⟩ | ⟨s, rfl⟩ := hfit
    · rfl
    · rfl
  | .struct name o [] => exact absurd rfl hf.1
  | .struct name o (c :: cs) =>
    have hshaped := hf.2.2
    have hfits : ∀ row ∈ rows.map (Row.open d), row.Fits (c :: cs) := by
      intro row hrow
      obtain ⟨row', hrow', rfl⟩ := mem_map.1 hrow
      exact (hr row' hrow').open d
    have hheads : ∀ row ∈ (rows.map (Row.open d)).map FieldsRow.head, row.Fits c := by
      intro row hrow
      obtain ⟨row', hrow', rfl⟩ := mem_map.1 hrow
      exact (hfits row' hrow').head
    rw [Field.AllShaped] at hshaped
    obtain ⟨e, hmem, hdrive⟩ := Field.driver c (d := d + levelUp o) (dot path c.name) hshaped.1 hheads
    rw [Field.columns] at hl
    have hdriver : lookup leaves (firstLeafPath ((Field.struct name o (c :: cs)).node d) path) = .ok e := by
      rw [Field.node, Field.nodes, firstLeafPath, Field.node_name]
      rw [Field.columnsList] at hl
      exact lookup_of (hl.left _ hmem)
    obtain ⟨fields, hfields, hrows⟩ := Field.buildAll (c :: cs) (d := d + levelUp o) hf.2.2 hfits hl
    rw [length_map] at hfields
    rw [map_map, forall₂_map_left_iff] at hdrive
    have hrow : ∀ i ∈ List.range rows.length, ∃ v, structRow (d + levelUp o) e.defLevels fields i = .ok v ∧
        ∀ row, rows[i]? = some row → row.Agrees v := by
      intro i hi
      obtain ⟨row, hrow⟩ : ∃ row, rows[i]? = some row := ⟨_, List.getElem?_eq_getElem (mem_range.1 hi)⟩
      obtain ⟨k, hk, hd⟩ := forall₂_get hdrive hrow
      obtain ⟨fs, hfs, hagree⟩ := hrows i (row.open d) (by rw [List.getElem?_map, hrow]; rfl)
      obtain ⟨v, hv, hva⟩ := structRow_of (hr row (mem_of_getElem? hrow)) hk hd hfs hagree
      refine ⟨v, hv, fun row' h => ?_⟩
      rw [hrow] at h
      cases h
      exact hva
    obtain ⟨vals, hvals, hall⟩ := mapM_exists hrow
    refine ⟨vals, ?_, ?_⟩
    · rw [buildField_struct (cons_ne_nil c cs), hdriver]
      simp only [bind, Except.bind, hfields]
      exact hvals
    · have hlen := hall.length_eq
      rw [length_range] at hlen
      refine forall₂_iff_get.2 ⟨hlen, fun i h₁ h₂ => ?_⟩
      obtain ⟨v, hv, hva⟩ := forall₂_get hall (i := i) (a := i) (by simp [h₁])
      rw [List.getElem?_eq_getElem h₂] at hv
      cases hv
      exact hva _ (List.getElem?_eq_getElem h₁)

theorem Field.buildAll (cs : List Field) {leaves : LeafData} {d : Nat} {path : List Char} {rows : List FieldsRow}
    (hf : Field.AllShaped cs) (hr : ∀ row ∈ rows, row.Fits cs) (hl : HasColumns leaves (Field.columnsList d cs path rows)) :
    ∃ fields, buildStructFields leaves rows.length (Field.nodes d cs) path = .ok fields ∧
      ∀ i row, rows[i]? = some row → ∃ fs, fieldsAt fields i = some fs ∧ row.Agrees fs := by
  match cs with
  | [] =>
    refine ⟨[], rfl, fun i row hrow => ⟨[], rfl, fun gs hgs => ?_⟩⟩
    have hfit := hr row (mem_of_getElem? hrow)
    subst hgs
    rw [FieldsRow.Fits, Field.AllConform] at hfit
    exact hfit.symm
  | c :: cs =>
    rw [Field.AllShaped] at hf
    rw [Field.columnsList] at hl
    have hheads : ∀ row ∈ rows.map FieldsRow.head, row.Fits c := by
      intro row hrow
      obtain ⟨row', hrow', rfl⟩ := mem_map.1 hrow
      exact (hr row' hrow').head
    have htails : ∀ row ∈ rows.map FieldsRow.tail, row.Fits cs := by
      intro row hrow
      obtain ⟨row', hrow', rfl⟩ := mem_map.1 hrow
      exact (hr row' hrow').tail
    obtain ⟨vals, hvals, hall⟩ := Field.build c hf.1 hheads hl.left
    obtain ⟨fields, hfields, hrest⟩ := Field.buildAll cs hf.2 htails hl.right
    rw [length_map] at hvals hfields
    refine ⟨(c.name, vals) :: fields, ?_, fun i row hrow => ?_⟩
    · simp only [Field.nodes, buildStructFields, Field.node_name, hvals, hfields, bind, Except.bind]
      rfl
    · obtain ⟨v, hv, hva⟩ := forall₂_get hall (i := i) (a := row.head) (by rw [List.getElem?_map, hrow]; rfl)
      obtain ⟨fs, hfs, hfa⟩ := hrest i row.tail (by rw [List.getElem?_map, hrow]; rfl)
      refine ⟨(c.name, v) :: fs, ?_, fun gs hgs => ?_⟩
      · unfold fieldsAt at hfs ⊢
        rw [mapM_cons, hfs]
        simp only [hv]
        rfl
      · have hfit := hr row (mem_of_getElem? hrow)
        subst hgs
        rw [FieldsRow.Fits, Field.AllConform] at hfit
        obtain ⟨u, rest, rfl, -, -⟩ := hfit
        rw [hva u rfl, hfa rest rfl]

end

/-! ## Lists and maps -/

def scalarOf : NestedValue → Option LeafScalar
  | .scalar s => some s
  | _ => none

def listOf : NestedValue → Option (List NestedValue)
  | .list vs => some vs
  | _ => none

/-- The key and the value of a map's entry. -/
def entryOf : NestedValue → Option LeafScalar × Option LeafScalar
  | .struct [(_, k), (_, v)] => (scalarOf k, scalarOf v)
  | _ => (none, none)

section Column
variable {β : Type}

/-- The column of one leaf of a list or map. -/
def repeatedColumn (w : Nat) (elemDef : β → Nat) (value : β → Option LeafScalar) (rows : List (Option (List β))) :
    LeafEntries where
  repLevels := (rows.flatMap (rowEntries w elemDef)).map (·.1)
  defLevels := (rows.flatMap (rowEntries w elemDef)).map (·.2.1)
  values := (rows.flatMap (rowEntries w elemDef)).map fun e => e.2.2.bind value

/-- The elements do not depend on the levels. -/
theorem rowEntries_elements (w : Nat) (f g : β → Nat) (rows : List (Option (List β))) :
    (rows.flatMap (rowEntries w f)).map (·.2.2) = (rows.flatMap (rowEntries w g)).map (·.2.2) := by
  rw [map_flatMap, map_flatMap]
  congr 1
  funext row
  match row with
  | none => rfl
  | some [] => rfl
  | some (b :: bs) => simp [rowEntries]

theorem getElem?_value {w : Nat} {f g : β → Nat} {value : β → Option LeafScalar} {rows : List (Option (List β))}
    {r d : Nat} {b : β} (h : (rows.flatMap (rowEntries w f))[i]? = some (r, d, some b)) :
    (repeatedColumn w g value rows).values[i]? = some (value b) := by
  have hf : ((rows.flatMap (rowEntries w f)).map (·.2.2))[i]? = some (some b) := by rw [List.getElem?_map, h]; rfl
  rw [rowEntries_elements w f g, List.getElem?_map] at hf
  obtain ⟨e, he, hb⟩ := Option.map_eq_some_iff.1 hf
  rw [repeatedColumn, List.getElem?_map, he, Option.map_some, hb]
  rfl

theorem buildRepeated_of {w : Nat} {elemDef : β → Nat} {value : β → Option LeafScalar} {conv : β → NestedValue}
    {rows : List (Option (List β))} (hw : wrapper.maxDefLevel = w) (hr : repeated.maxDefLevel = w + 1)
    (hdef : ∀ b, w + 1 ≤ elemDef b) (hnull : none ∈ rows → 0 < w)
    (helem : ∀ i r d b, (rows.flatMap (rowEntries w elemDef))[i]? = some (r, d, some b) → elementAt i = some (conv b)) :
    buildRepeated wrapper repeated rows.length (repeatedColumn w elemDef value rows).repLevels
      (repeatedColumn w elemDef value rows).defLevels elementAt = .ok (rows.map (ofRow conv)) := by
  have h := repeatedRows_of (Nat.lt_succ_self w) hdef helem rows hnull [] rfl
  rw [length_nil] at h
  unfold buildRepeated
  rw [hw, hr]
  simp only [repeatedColumn, h]

end Column

/-- A field directly under the root. -/
inductive Top where
  | field (f : Field)
  | list2 (name repeatedName : List Char) (optional : Bool) (c : Option ConvertedType) (a : SchemaElement)
  | list3 (name repeatedName elementName : List Char) (optional elementOptional : Bool)
      (c rc : Option ConvertedType) (a : SchemaElement)
  | map (name entryName keyName valueName : List Char) (optional valueOptional : Bool) (ec : Option ConvertedType)
      (ka va : SchemaElement)

namespace Top

def name : Top → List Char
  | .field f => f.name
  | .list2 name _ _ _ _ => name
  | .list3 name _ _ _ _ _ _ _ => name
  | .map name _ _ _ _ _ _ _ _ => name

/-- A list's group is not marked as a map. -/
def Shaped : Top → Prop
  | .field f => f.Shaped
  | .list2 _ _ _ c _ => c ≠ some (.other 1)
  | .list3 _ _ _ _ _ c _ _ => c ≠ some (.other 1)
  | .map .. => True

def node : Top → SchemaNode
  | .field f => f.node 0
  | .list2 name rn o c a =>
    .mk name (groupElement name (repetitionOf o) 1 c)
      [.mk rn (leafElement rn .repeated a) [] (levelUp o + 1) 1] (levelUp o) 0
  | .list3 name rn en o eo c rc a =>
    .mk name (groupElement name (repetitionOf o) 1 c)
      [.mk rn (groupElement rn .repeated 1 rc)
        [.mk en (leafElement en (repetitionOf eo) a) [] (levelUp o + 1 + levelUp eo) 1] (levelUp o + 1) 1] (levelUp o) 0
  | .map name en kn vn o vo ec ka va =>
    .mk name (groupElement name (repetitionOf o) 1 (some (.other 1)))
      [.mk en (groupElement en .repeated 2 ec)
        [.mk kn (leafElement kn .required ka) [] (levelUp o + 1) 1,
          .mk vn (leafElement vn (repetitionOf vo) va) [] (levelUp o + 1 + levelUp vo) 1] (levelUp o + 1) 1] (levelUp o) 0

def Conforms : Top → NestedValue → Prop
  | .field f, v => f.Conforms v
  | .list2 _ _ o _ _, v => (v = .null ∧ o = true) ∨ ∃ ss : List LeafScalar, v = .list (ss.map .scalar)
  | .list3 _ _ _ o eo _ _ _, v => (v = .null ∧ o = true) ∨
      ∃ ss : List (Option LeafScalar), v = .list (ss.map ofScalar) ∧ (none ∈ ss → eo = true)
  | .map _ _ _ _ o vo _ _ _, v => (v = .null ∧ o = true) ∨
      ∃ es : List (LeafScalar × Option LeafScalar), v = .list (es.map fun e => mapEntry (some e.1, e.2)) ∧
        ∀ e ∈ es, e.2 = none → vo = true

/-- The level of an element: one more than the list's if it is null. -/
def elementLevel (o eo : Bool) (e : Option LeafScalar) : Nat := levelUp o + 1 + if e.isSome then levelUp eo else 0

def listRows (vals : List NestedValue) : List (Option (List (Option LeafScalar))) :=
  vals.map fun v => (listOf v).map (·.map scalarOf)

def mapRows (vals : List NestedValue) : List (Option (List (Option LeafScalar × Option LeafScalar))) :=
  vals.map fun v => (listOf v).map (·.map entryOf)

/-- The columns of the leaves of a field. -/
def columns : Top → List NestedValue → List (List Char × LeafEntries)
  | .field f, vals => f.columns 0 f.name (vals.map .live)
  | .list2 name rn o _ _, vals =>
    [(dot name rn, repeatedColumn (levelUp o) (elementLevel o false) id (listRows vals))]
  | .list3 name rn en o eo _ _ _, vals =>
    [(dot (dot name rn) en, repeatedColumn (levelUp o) (elementLevel o eo) id (listRows vals))]
  | .map name en kn vn o vo _ _ _, vals =>
    [(dot (dot name en) kn, repeatedColumn (levelUp o) (fun _ => levelUp o + 1) (·.1) (mapRows vals)),
      (dot (dot name en) vn, repeatedColumn (levelUp o) (fun e => elementLevel o vo e.2) (·.2) (mapRows vals))]

theorem scalarOf_ofScalar (e : Option LeafScalar) : scalarOf (ofScalar e) = e := by cases e <;> rfl

theorem entryOf_mapEntry (e : Option LeafScalar × Option LeafScalar) : entryOf (mapEntry e) = e := by
  obtain ⟨k, v⟩ := e
  simp only [mapEntry, entryOf, scalarOf_ofScalar]

theorem rows_back {β : Type} {conv : β → NestedValue} {back : NestedValue → β} (hback : ∀ b, back (conv b) = b)
    {vals : List NestedValue} (h : ∀ v ∈ vals, v = .null ∨ ∃ bs : List β, v = .list (bs.map conv)) :
    (vals.map fun v => (listOf v).map (·.map back)).map (ofRow conv) = vals := by
  rw [map_map]
  refine (map_congr_left fun v hv => ?_).trans (map_id _)
  obtain rfl | ⟨bs, rfl⟩ := h v hv
  · rfl
  · simp [listOf, ofRow, map_map, Function.comp_def, hback]

theorem null_optional {β : Type} {back : NestedValue → β} {o : Bool} {vals : List NestedValue}
    (h : ∀ v ∈ vals, (v = .null ∧ o = true) ∨ ∃ vs, v = .list vs)
    (hn : none ∈ vals.map fun v => (listOf v).map (·.map back)) : 0 < levelUp o := by
  obtain ⟨v, hv, hnone⟩ := mem_map.1 hn
  obtain ⟨-, rfl⟩ | ⟨vs, rfl⟩ := h v hv
  · exact Nat.one_pos
  · cases hnone

/-- A group around one repeated child, which is not marked as a map, is a list. -/
theorem buildField_list {leaves : LeafData} {n d r : Nat} {name path : List Char} {o : Bool} {c : Option ConvertedType}
    {child : SchemaNode} (hc : c ≠ some (.other 1)) (hchild : child.isRepeated = true) :
    buildField leaves n (.mk name (groupElement name (repetitionOf o) 1 c) [child] d r) path =
      buildListField leaves (.mk name (groupElement name (repetitionOf o) 1 c) [child] d r) path n := by
  have hrep : (SchemaNode.mk name (groupElement name (repetitionOf o) 1 c) [child] d r).isRepeated = false := by
    cases o <;> rfl
  have hmap : isMap (.mk name (groupElement name (repetitionOf o) 1 c) [child] d r) = false := by
    simp [isMap, SchemaNode.element, groupElement, hc]
  rw [buildField]
  simp [hrep, hmap, hchild]

section Build
variable {leaves : LeafData} {vals : List NestedValue} {o : Bool}

theorem buildRepeated_list (eo : Bool) (hw : wrapper.maxDefLevel = levelUp o)
    (hr : repeated.maxDefLevel = levelUp o + 1)
    (hv : ∀ v ∈ vals, (v = .null ∧ o = true) ∨ ∃ ss : List (Option LeafScalar), v = .list (ss.map ofScalar)) :
    buildRepeated wrapper repeated vals.length
      (repeatedColumn (levelUp o) (elementLevel o eo) id (listRows vals)).repLevels
      (repeatedColumn (levelUp o) (elementLevel o eo) id (listRows vals)).defLevels
      (listElementAt (repeatedColumn (levelUp o) (elementLevel o eo) id (listRows vals))) = .ok vals := by
  have hnull : none ∈ listRows vals → 0 < levelUp o :=
    null_optional fun v h => (hv v h).imp id fun ⟨_, hs⟩ => ⟨_, hs⟩
  have hback : (listRows vals).map (ofRow ofScalar) = vals :=
    rows_back scalarOf_ofScalar fun v h => (hv v h).imp And.left id
  have hlen : (listRows vals).length = vals.length := length_map _
  have hdef : ∀ b, levelUp o + 1 ≤ elementLevel o eo b := fun b => Nat.le_add_right _ _
  rw [← hlen, buildRepeated_of hw hr hdef hnull fun i r d b hb => ?_, hback]
  rw [listElementAt, getElem?_value hb]
  rfl

theorem buildRepeated_map (vo : Bool) (hw : wrapper.maxDefLevel = levelUp o) (hr : repeated.maxDefLevel = levelUp o + 1)
    (hv : ∀ v ∈ vals, (v = .null ∧ o = true) ∨ ∃ es : List (Option LeafScalar × Option LeafScalar), v = .list (es.map mapEntry)) :
    buildRepeated wrapper repeated vals.length
      (repeatedColumn (levelUp o) (fun _ => levelUp o + 1) (·.1) (mapRows vals)).repLevels
      (repeatedColumn (levelUp o) (fun _ => levelUp o + 1) (·.1) (mapRows vals)).defLevels
      (mapElementAt (repeatedColumn (levelUp o) (fun _ => levelUp o + 1) (·.1) (mapRows vals))
        (repeatedColumn (levelUp o) (fun e => elementLevel o vo e.2) (·.2) (mapRows vals))) = .ok vals := by
  have hnull : none ∈ mapRows vals → 0 < levelUp o :=
    null_optional fun v h => (hv v h).imp id fun ⟨_, hs⟩ => ⟨_, hs⟩
  have hback : (mapRows vals).map (ofRow mapEntry) = vals :=
    rows_back entryOf_mapEntry fun v h => (hv v h).imp And.left id
  have hlen : (mapRows vals).length = vals.length := length_map _
  rw [← hlen, buildRepeated_of hw hr (fun b => Nat.le_refl _) hnull fun i r d b hb => ?_, hback]
  simp only [mapElementAt, getElem?_value hb, bind, Option.bind, pure]

/-- **A field under the root is put together again.** -/
theorem build (t : Top) (hs : t.Shaped) (hv : ∀ v ∈ vals, t.Conforms v) (hl : HasColumns leaves (t.columns vals)) :
    buildField leaves vals.length t.node t.name = .ok vals := by
  cases t with
  | field f =>
    have hfit : ∀ row ∈ vals.map Row.live, row.Fits f := by
      intro row hrow
      obtain ⟨v, hmem, rfl⟩ := mem_map.1 hrow
      exact hv v hmem
    obtain ⟨built, hbuild, hall⟩ := Field.build f hs hfit hl
    rw [length_map] at hbuild
    rw [forall₂_map_left_iff] at hall
    have heq : built = vals := by
      clear hbuild hl hfit hv
      induction hall with
      | nil => rfl
      | cons h _ ih => rw [h _ rfl, ih]
    rw [heq] at hbuild
    exact hbuild
  | list2 name rn o c a =>
    have hchild : (SchemaNode.mk rn (leafElement rn .repeated a) [] (levelUp o + 1) 1).isRepeated = true := rfl
    have hentries := lookup_of (hl _ (mem_singleton.2 rfl))
    show buildField leaves vals.length (.mk name (groupElement name (repetitionOf o) 1 c) _ _ _) name = _
    rw [buildField_list hs hchild]
    simp only [buildListField, SchemaNode.children, SchemaNode.isLeaf, SchemaNode.name, isEmpty_nil, Bool.not_true,
      Bool.false_eq_true, if_false, hentries, bind, Except.bind]
    refine buildRepeated_list false rfl rfl fun v h => ?_
    obtain h | ⟨ss, rfl⟩ := hv v h
    · exact .inl h
    · exact .inr ⟨ss.map some, by rw [map_map]; rfl⟩
  | list3 name rn en o eo c rc a =>
    have hchild : (SchemaNode.mk rn (groupElement rn .repeated 1 rc)
        [.mk en (leafElement en (repetitionOf eo) a) [] (levelUp o + 1 + levelUp eo) 1] (levelUp o + 1) 1).isRepeated =
          true := rfl
    have hentries := lookup_of (hl _ (mem_singleton.2 rfl))
    show buildField leaves vals.length (.mk name (groupElement name (repetitionOf o) 1 c) _ _ _) name = _
    rw [buildField_list hs hchild]
    simp only [buildListField, SchemaNode.children, SchemaNode.isLeaf, SchemaNode.name, isEmpty_nil, Bool.not_true,
      Bool.false_eq_true, if_false, hentries, bind, Except.bind]
    refine buildRepeated_list eo rfl rfl fun v h => ?_
    obtain h | ⟨ss, rfl, -⟩ := hv v h
    · exact .inl h
    · exact .inr ⟨ss, rfl⟩
  | map name en kn vn o vo ec ka va =>
    have hkeys := lookup_of (hl _ mem_cons_self)
    have hvalues := lookup_of (hl _ (mem_cons_of_mem _ mem_cons_self))
    have hrep : (Top.map name en kn vn o vo ec ka va).node.isRepeated = false := by cases o <;> rfl
    have hmap : isMap (Top.map name en kn vn o vo ec ka va).node = true := rfl
    rw [Top.node] at hrep hmap ⊢
    rw [buildField]
    simp only [isEmpty_cons, Bool.false_eq_true, if_false, hrep, hmap, if_true]
    simp only [buildMapField, SchemaNode.children, SchemaNode.isLeaf, SchemaNode.name, isEmpty_nil, Bool.not_true,
      Bool.or_self, Bool.false_eq_true, if_false, Top.name, hkeys, hvalues, bind, Except.bind]
    refine buildRepeated_map vo rfl rfl fun v h => ?_
    obtain h | ⟨es, rfl, -⟩ := hv v h
    · exact .inl h
    · exact .inr ⟨es.map fun e => (some e.1, e.2), by rw [map_map]; rfl⟩

end Build

end Top

/-! ## Paths -/

/-- The rest of a path below a node. -/
def Below (path p : List Char) : Prop := ∃ rest, p = path ++ rest ∧ ∀ c ∈ rest.head?, c = '.'

theorem Below.refl (path : List Char) : Below path path := ⟨[], (append_nil _).symm, nofun⟩

theorem Below.of_dot {path name p : List Char} (h : Below (dot path name) p) : Below path p := by
  obtain ⟨rest, rfl, -⟩ := h
  refine ⟨'.' :: (name ++ rest), by rw [dot, append_assoc]; rfl, fun c hc => ?_⟩
  cases hc
  rfl

/-- A name without a dot ends where the next dot is. -/
theorem name_eq_of_below {a b r s : List Char} (ha : '.' ∉ a) (hb : '.' ∉ b) (hr : ∀ c ∈ r.head?, c = '.')
    (hs : ∀ c ∈ s.head?, c = '.') (h : a ++ r = b ++ s) : a = b := by
  have htake : ∀ {l m : List Char}, '.' ∉ l → (∀ c ∈ m.head?, c = '.') → (l ++ m).takeWhile (· ≠ '.') = l := by
    intro l m hl hm
    rw [takeWhile_append_of_pos fun c hc => by
      have : c ≠ '.' := fun h => hl (h ▸ hc)
      simpa using this]
    cases m with
    | nil => simp
    | cons c m =>
      have hc : c = '.' := hm c rfl
      simp [hc]
  rw [← htake ha hr, h, htake hb hs]

/-- Paths below different siblings are different. -/
theorem below_ne (path : List Char) {a b p q : List Char} (ha : '.' ∉ a) (hb : '.' ∉ b) (hne : a ≠ b) (hp : Below (dot path a) p)
    (hq : Below (dot path b) q) : p ≠ q := by
  obtain ⟨r, rfl, hr⟩ := hp
  obtain ⟨s, rfl, hs⟩ := hq
  intro h
  simp only [dot, append_assoc, cons_append, append_cancel_left_eq, List.cons.injEq, true_and] at h
  exact hne (name_eq_of_below ha hb hr hs h)

def Distinct (names : List (List Char)) : Prop := names.Nodup ∧ ∀ n ∈ names, '.' ∉ n

mutual

/-- Siblings have distinct names without dots. -/
def Field.Named : Field → Prop
  | .leaf _ _ _ => True
  | .struct _ _ cs => Distinct (cs.map Field.name) ∧ Field.AllNamed cs

def Field.AllNamed : List Field → Prop
  | [] => True
  | c :: cs => c.Named ∧ Field.AllNamed cs

end

mutual

theorem Field.columns_below (f : Field) {d : Nat} {path : List Char} {rows : List Row} :
    ∀ c ∈ f.columns d path rows, Below path c.1 := by
  match f with
  | .leaf name o a =>
    intro c hc
    rw [Field.columns, mem_singleton] at hc
    rw [hc]
    exact .refl path
  | .struct name o cs =>
    intro c hc
    rw [Field.columns] at hc
    obtain ⟨g, -, hg⟩ := Field.columnsList_below cs c hc
    exact hg.of_dot

/-- A column of a struct is below one of its fields. -/
theorem Field.columnsList_below (cs : List Field) {d : Nat} {path : List Char} {rows : List FieldsRow} :
    ∀ c ∈ Field.columnsList d cs path rows, ∃ g ∈ cs, Below (dot path g.name) c.1 := by
  match cs with
  | [] => exact nofun
  | g :: cs =>
    intro c hc
    rw [Field.columnsList] at hc
    obtain hc | hc := mem_append.1 hc
    · exact ⟨g, mem_cons_self, Field.columns_below g c hc⟩
    · obtain ⟨g', hg', hb⟩ := Field.columnsList_below cs c hc
      exact ⟨g', mem_cons_of_mem _ hg', hb⟩

end

mutual

theorem Field.columns_nodup (f : Field) {d : Nat} {path : List Char} {rows : List Row} (h : f.Named) :
    ((f.columns d path rows).map Prod.fst).Nodup := by
  match f with
  | .leaf name o a => rw [Field.columns]; exact nodup_singleton _
  | .struct name o cs =>
    rw [Field.columns]
    rw [Field.Named] at h
    exact Field.columnsList_nodup cs h.1 h.2

theorem Field.columnsList_nodup (cs : List Field) {d : Nat} {path : List Char} {rows : List FieldsRow}
    (hd : Distinct (cs.map Field.name)) (h : Field.AllNamed cs) :
    ((Field.columnsList d cs path rows).map Prod.fst).Nodup := by
  match cs with
  | [] => exact nodup_nil
  | c :: cs =>
    rw [Field.AllNamed] at h
    obtain ⟨hnodup, hdots⟩ := hd
    rw [map_cons, nodup_cons] at hnodup
    have htail : Distinct (cs.map Field.name) := ⟨hnodup.2, fun n hn => hdots n (mem_cons_of_mem _ hn)⟩
    rw [Field.columnsList, map_append]
    refine List.Nodup.append (Field.columns_nodup c h.1) (Field.columnsList_nodup cs htail h.2) ?_
    intro p hp hq
    obtain ⟨x, hx, rfl⟩ := mem_map.1 hp
    obtain ⟨y, hy, hxy⟩ := mem_map.1 hq
    obtain ⟨g, hg, hb⟩ := Field.columnsList_below cs y hy
    refine below_ne path (hdots _ mem_cons_self) (hdots _ (mem_cons_of_mem _ (mem_map_of_mem hg))) ?_
      (Field.columns_below c x hx) hb hxy.symm
    exact fun he => hnodup.1 (he ▸ mem_map_of_mem hg)

end

namespace Top

/-- A map's key and value have distinct names without dots. -/
def Named : Top → Prop
  | .field f => f.Named
  | .map _ _ kn vn _ _ _ _ _ => Distinct [kn, vn]
  | _ => True

theorem columns_below (t : Top) (vals : List NestedValue) : ∀ c ∈ t.columns vals, Below t.name c.1 := by
  intro c hc
  cases t with
  | field f => exact Field.columns_below f c hc
  | list2 name rn o c a =>
    rw [mem_singleton.1 hc]
    exact (Below.refl _).of_dot
  | list3 name rn en o eo c rc a =>
    rw [mem_singleton.1 hc]
    exact (Below.refl _).of_dot.of_dot
  | map name en kn vn o vo ec ka va =>
    simp only [columns, mem_cons, not_mem_nil, or_false] at hc
    obtain rfl | rfl := hc
    · exact (Below.refl _).of_dot.of_dot
    · exact (Below.refl _).of_dot.of_dot

theorem columns_nodup (t : Top) (vals : List NestedValue) (h : t.Named) : ((t.columns vals).map Prod.fst).Nodup := by
  cases t with
  | field f => exact Field.columns_nodup f h
  | list2 name rn o c a => exact nodup_singleton _
  | list3 name rn en o eo c rc a => exact nodup_singleton _
  | map name en kn vn o vo ec ka va =>
    obtain ⟨hnodup, hdots⟩ := h
    have hne : kn ≠ vn := by simpa using hnodup
    have hpath := below_ne (dot name en) (hdots kn (by simp)) (hdots vn (by simp)) hne (.refl _) (.refl _)
    simpa [columns] using hpath

end Top

/-! ## Row groups -/

/-- The columns of all leaves, for records with one value for each field. -/
def shred : List Top → List (List NestedValue) → List (List Char × LeafEntries)
  | [], _ => []
  | t :: ts, records => t.columns (records.map (·.headD .null)) ++ shred ts (records.map List.tail)

def LeafData.insert (m : LeafData) (c : List Char × LeafEntries) : LeafData :=
  Function.update m c.1 (some c.2)

/-- The map after all columns have been inserted. -/
def leafData (cols : List (List Char × LeafEntries)) : LeafData := cols.foldl LeafData.insert fun _ => none

theorem foldl_insert {cols : List (List Char × LeafEntries)} (h : (cols.map Prod.fst).Nodup) (m : LeafData) :
    (∀ c ∈ cols, cols.foldl LeafData.insert m c.1 = some c.2) ∧
      ∀ p, p ∉ cols.map Prod.fst → cols.foldl LeafData.insert m p = m p := by
  induction cols generalizing m with
  | nil => exact ⟨nofun, fun _ _ => rfl⟩
  | cons x cols ih =>
    rw [map_cons, nodup_cons] at h
    obtain ⟨hin, hout⟩ := ih h.2 (m.insert x)
    refine ⟨fun c hc => ?_, fun p hp => ?_⟩
    · rw [foldl_cons]
      obtain rfl | hc := mem_cons.1 hc
      · rw [hout _ h.1, LeafData.insert, Function.update_self]
      · exact hin c hc
    · rw [map_cons, mem_cons, not_or] at hp
      rw [foldl_cons, hout p hp.2, LeafData.insert, Function.update_of_ne hp.1]

theorem hasColumns_leafData {cols : List (List Char × LeafEntries)} (h : (cols.map Prod.fst).Nodup) :
    HasColumns (leafData cols) cols := (foldl_insert h _).1

variable {ts : List Top}

theorem shred_below : ∀ c ∈ shred ts records, ∃ t ∈ ts, Below t.name c.1 := by
  induction ts generalizing records with
  | nil => exact nofun
  | cons t ts ih =>
    intro c hc
    obtain hc | hc := mem_append.1 hc
    · exact ⟨t, mem_cons_self, t.columns_below _ c hc⟩
    · obtain ⟨t', ht', hb⟩ := ih c hc
      exact ⟨t', mem_cons_of_mem _ ht', hb⟩

theorem shred_nodup (hd : Distinct (ts.map Top.name)) (hn : ∀ t ∈ ts, t.Named) (records : List (List NestedValue)) :
    ((shred ts records).map Prod.fst).Nodup := by
  induction ts generalizing records with
  | nil => exact nodup_nil
  | cons t ts ih =>
    obtain ⟨hnodup, hdots⟩ := hd
    rw [map_cons, nodup_cons] at hnodup
    have htail : Distinct (ts.map Top.name) := ⟨hnodup.2, fun n h => hdots n (mem_cons_of_mem _ h)⟩
    rw [shred, map_append]
    refine List.Nodup.append (t.columns_nodup _ (hn t mem_cons_self))
      (ih htail (fun u hu => hn u (mem_cons_of_mem _ hu)) _) ?_
    intro p hp hq
    obtain ⟨x, hx, rfl⟩ := mem_map.1 hp
    obtain ⟨y, hy, hxy⟩ := mem_map.1 hq
    obtain ⟨u, hu, s, hs, hsdot⟩ := shred_below y hy
    obtain ⟨q, hq, hqdot⟩ := t.columns_below _ x hx
    have hname : t.name = u.name :=
      name_eq_of_below (hdots _ mem_cons_self) (hdots _ (mem_cons_of_mem _ (mem_map_of_mem hu))) hqdot
        hsdot (by rw [← hq, ← hs, hxy])
    exact hnodup.1 (hname ▸ mem_map_of_mem hu)

/-- The records by columns. -/
def byColumn : List Top → List (List NestedValue) → List (List Char × List NestedValue)
  | [], _ => []
  | t :: ts, records => (t.name, records.map (·.headD .null)) :: byColumn ts (records.map List.tail)

@[simp] theorem Top.node_name (t : Top) : t.node.name = t.name := by
  cases t with
  | field f => exact f.node_name 0
  | list2 => rfl
  | list3 => rfl
  | map => rfl

theorem mapM_build {leaves : LeafData} {n : Nat} (hn : records.length = n) (hs : ∀ t ∈ ts, t.Shaped)
    (hr : ∀ r ∈ records, List.Forall₂ Top.Conforms ts r) (hl : HasColumns leaves (shred ts records)) :
    (ts.map Top.node).mapM (fun field => do
      let vals ← buildField leaves n field field.name
      pure (field.name, vals)) = .ok (byColumn ts records) := by
  induction ts generalizing records with
  | nil => rfl
  | cons t ts ih =>
    have hheads : ∀ v ∈ records.map (·.headD .null), t.Conforms v := by
      intro v hv
      obtain ⟨r, hmem, rfl⟩ := mem_map.1 hv
      cases hr r hmem with
      | cons h _ => exact h
    have htails : ∀ r ∈ records.map List.tail, List.Forall₂ Top.Conforms ts r := by
      intro r hr'
      obtain ⟨r, hmem, rfl⟩ := mem_map.1 hr'
      cases hr r hmem with
      | cons _ h => exact h
    have hbuild := t.build (hs t mem_cons_self) hheads hl.left
    rw [length_map, hn] at hbuild
    have hrest := ih (by rw [length_map, hn]) (fun u hu => hs u (mem_cons_of_mem _ hu)) htails hl.right
    rw [map_cons, mapM_cons, Top.node_name, hbuild, hrest]
    rfl

/-- Row `i` of the columns is record `i`. -/
theorem byColumn_row (hr : ∀ r ∈ records, List.Forall₂ Top.Conforms ts r) {r : List NestedValue}
    (hi : records[i]? = some r) : (byColumn ts records).map (fun c => c.2[i]?) = r.map some := by
  induction ts generalizing records r with
  | nil =>
    cases hr r (mem_of_getElem? hi)
    rfl
  | cons t ts ih =>
    have htails : ∀ r ∈ records.map List.tail, List.Forall₂ Top.Conforms ts r := by
      intro r hr'
      obtain ⟨r, hmem, rfl⟩ := mem_map.1 hr'
      cases hr r hmem with
      | cons _ h => exact h
    cases hr r (mem_of_getElem? hi) with
    | @cons _ v _ rest hv hrest =>
      have := ih htails (r := rest) (by rw [List.getElem?_map, hi]; rfl)
      rw [byColumn, map_cons, this, List.getElem?_map, hi]
      rfl

theorem byColumn_names (ts : List Top) (records : List (List NestedValue)) :
    (byColumn ts records).map Prod.fst = ts.map Top.name := by
  induction ts generalizing records with
  | nil => rfl
  | cons t ts ih => rw [byColumn, map_cons, ih, map_cons]

theorem byColumn_length : ∀ c ∈ byColumn ts records, c.2.length = records.length := by
  induction ts generalizing records with
  | nil => exact nofun
  | cons t ts ih =>
    intro c hc
    obtain rfl | hc := mem_cons.1 hc
    · exact length_map _
    · rw [ih c hc, length_map]

/-! ## The schema's list -/

mutual

/-- The flattened schema: a node, then its children. -/
def SchemaNode.flatten : SchemaNode → List SchemaElement
  | .mk _ e cs _ _ => e :: SchemaNode.flattenAll cs

def SchemaNode.flattenAll : List SchemaNode → List SchemaElement
  | [] => []
  | c :: cs => c.flatten ++ SchemaNode.flattenAll cs

end

mutual

/-- The levels and counts of a node are those its element gives it. -/
def SchemaNode.Leveled : SchemaNode → Nat → Nat → Bool → Prop
  | .mk name e cs md mr, d, r, isRoot =>
    name = e.name ∧ (md, mr) = levels d r isRoot e ∧ e.childCount = cs.length ∧ SchemaNode.AllLeveled cs md mr

def SchemaNode.AllLeveled : List SchemaNode → Nat → Nat → Prop
  | [], _, _ => True
  | c :: cs, d, r => c.Leveled d r false ∧ SchemaNode.AllLeveled cs d r

end

theorem SchemaNode.flatten_pos (n : SchemaNode) : 0 < n.flatten.length := by
  cases n
  rw [SchemaNode.flatten]
  exact Nat.succ_pos _

mutual

theorem buildNode_flatten (Z : Layout) (len : Nat) (n : SchemaNode) {d r f : Nat} {isRoot : Bool}
    (h : n.Leveled d r isRoot) (hf : 2 * n.flatten.length ≤ f + 1) (rest : List SchemaElement) (log : List Event) :
    ∃ log', Action.exec (buildNode Z len f d r isRoot) ⟨n.flatten ++ rest, log⟩ = (.ok n, ⟨rest, log'⟩) := by
  match n with
  | .mk name e cs md mr =>
    rw [SchemaNode.Leveled] at h
    obtain ⟨rfl, hlevels, hcount, hcs⟩ := h
    rw [SchemaNode.flatten, length_cons] at hf
    obtain ⟨f, rfl⟩ := Nat.exists_eq_succ_of_ne_zero (by omega : f ≠ 0)
    rw [SchemaNode.flatten, cons_append]
    have htake (l : List SchemaElement) : Action.exec (takeElement len) ⟨e :: l, log⟩ =
        (.ok e, ⟨l, log ++ [.index (len - (l.length + 1)) len]⟩) := by
      simp [takeElement, Action.exec_ofFn]
    have hreserve (l : List SchemaElement) (log : List Event) : Action.exec (reserveChildren Z e.childCount) ⟨l, log⟩ =
        (.ok (), ⟨l, log ++ [.reserve e.childCount Z.node]⟩) := rfl
    have hmd : (levels d r isRoot e).1 = md := by rw [← hlevels]
    have hmr : (levels d r isRoot e).2 = mr := by rw [← hlevels]
    rw [buildNode, Action.exec_bind_ok (htake _)]
    simp only [hmd, hmr]
    rw [Action.exec_bind_ok (hreserve _ _), hcount]
    obtain ⟨log', hchildren⟩ := buildChildren_flatten Z len cs (f := f) hcs (by omega) rest
      (log ++ [.index (len - ((SchemaNode.flattenAll cs ++ rest).length + 1)) len] ++ [.reserve e.childCount Z.node])
    rw [hcount] at hchildren
    exact ⟨log', by rw [Action.exec_bind_ok hchildren]; rfl⟩

theorem buildChildren_flatten (Z : Layout) (len : Nat) (cs : List SchemaNode) {d r f : Nat}
    (h : SchemaNode.AllLeveled cs d r) (hf : 2 * (SchemaNode.flattenAll cs).length ≤ f) (rest : List SchemaElement)
    (log : List Event) :
    ∃ log', Action.exec (buildChildren Z len f d r cs.length) ⟨SchemaNode.flattenAll cs ++ rest, log⟩ =
      (.ok cs, ⟨rest, log'⟩) := by
  match cs with
  | [] =>
    rw [length_nil, buildChildren]
    exact ⟨log, rfl⟩
  | c :: cs =>
    rw [SchemaNode.AllLeveled] at h
    have hpos := c.flatten_pos
    rw [SchemaNode.flattenAll, length_append] at hf
    obtain ⟨f, rfl⟩ := Nat.exists_eq_succ_of_ne_zero (by omega : f ≠ 0)
    obtain ⟨log₁, hnode⟩ := buildNode_flatten Z len c (f := f) h.1 (by omega) (SchemaNode.flattenAll cs ++ rest) log
    obtain ⟨log₂, hrest⟩ := buildChildren_flatten Z len cs (f := f) h.2 (by omega) rest log₁
    refine ⟨log₂, ?_⟩
    rw [SchemaNode.flattenAll, append_assoc, length_cons, buildChildren, Action.exec_bind_ok hnode,
      Action.exec_bind_ok hrest]
    rfl

end

theorem childCount_group {name : List Char} {r : Repetition} {n : Nat} {c : Option ConvertedType} (h : n < 2 ^ 31) :
    (groupElement name r n c).childCount = n :=
  asUsize_eq (Int32.toInt_ofNat_of_lt h)

theorem levels_required {d r : Nat} {e : SchemaElement} {o : Bool} (h : e.repetition = some (repetitionOf o)) :
    levels d r false e = (d + levelUp o, r) := by
  cases o <;> simp [levels, h, repetitionOf, levelUp]

theorem levels_repeated {d r : Nat} {e : SchemaElement} (h : e.repetition = some .repeated) :
    levels d r false e = (d + 1, r + 1) := by
  simp [levels, h]

mutual

theorem Field.leveled (f : Field) {d : Nat} (h : f.Shaped) : (f.node d).Leveled d 0 false := by
  match f with
  | .leaf name o a =>
    rw [Field.node, SchemaNode.Leveled]
    exact ⟨rfl, (levels_required rfl).symm, rfl, trivial⟩
  | .struct name o cs =>
    have hlen : (Field.nodes (d + levelUp o) cs).length = cs.length := Field.nodes_length _ cs
    rw [Field.node, SchemaNode.Leveled, hlen]
    exact ⟨rfl, (levels_required rfl).symm, childCount_group h.2.1, Field.allLeveled cs h.2.2⟩

theorem Field.allLeveled (cs : List Field) {d : Nat} (h : Field.AllShaped cs) :
    SchemaNode.AllLeveled (Field.nodes d cs) d 0 := by
  match cs with
  | [] => trivial
  | c :: cs =>
    rw [Field.AllShaped] at h
    rw [Field.nodes, SchemaNode.AllLeveled]
    exact ⟨Field.leveled c h.1, Field.allLeveled cs h.2⟩

end

theorem Top.leveled (t : Top) (h : t.Shaped) : t.node.Leveled 0 0 false := by
  cases t with
  | field f => exact Field.leveled f h
  | list2 name rn o c a =>
    simp only [Top.node, SchemaNode.Leveled, SchemaNode.AllLeveled, and_true]
    refine ⟨rfl, ?_, childCount_group (by decide), rfl, (levels_repeated rfl).symm, rfl⟩
    rw [levels_required (o := o) rfl, Nat.zero_add]
  | list3 name rn en o eo c rc a =>
    simp only [Top.node, SchemaNode.Leveled, SchemaNode.AllLeveled, and_true]
    refine ⟨rfl, ?_, childCount_group (by decide), rfl, (levels_repeated rfl).symm, childCount_group (by decide), rfl,
      (levels_required rfl).symm, rfl⟩
    rw [levels_required (o := o) rfl, Nat.zero_add]
  | map name en kn vn o vo ec ka va =>
    simp only [Top.node, SchemaNode.Leveled, SchemaNode.AllLeveled, and_true]
    refine ⟨rfl, ?_, childCount_group (by decide), rfl, (levels_repeated rfl).symm, childCount_group (by decide),
      ⟨rfl, (levels_required (o := false) rfl).symm, rfl⟩, rfl, (levels_required rfl).symm, rfl⟩
    rw [levels_required (o := o) rfl, Nat.zero_add]

theorem allLeveled_tops (h : ∀ t ∈ ts, t.Shaped) : SchemaNode.AllLeveled (ts.map Top.node) 0 0 := by
  induction ts with
  | nil => trivial
  | cons t ts ih =>
    rw [map_cons, SchemaNode.AllLeveled]
    exact ⟨t.leveled (h t mem_cons_self), ih fun u hu => h u (mem_cons_of_mem _ hu)⟩

/-- The message of a schema. -/
def rootNode (name : List Char) (a : SchemaElement) (ts : List Top) : SchemaNode :=
  .mk name { a with name := name, numChildren := some (Int32.ofNat ts.length) } (ts.map Top.node) 0 0

/-- The tree built from the flattened schema is the schema's. -/
theorem buildSchemaTree_flatten (Z : Layout) (name : List Char) (a : SchemaElement) (hlen : ts.length < 2 ^ 31)
    (hs : ∀ t ∈ ts, t.Shaped) : (buildSchemaTree Z (rootNode name a ts).flatten).1 = .ok (rootNode name a ts) := by
  have hleveled : (rootNode name a ts).Leveled 0 0 true := by
    rw [rootNode, SchemaNode.Leveled, length_map]
    exact ⟨rfl, rfl, asUsize_eq (Int32.toInt_ofNat_of_lt hlen), allLeveled_tops hs⟩
  obtain ⟨log, hbuild⟩ := buildNode_flatten Z (rootNode name a ts).flatten.length (rootNode name a ts)
    (f := 2 * (rootNode name a ts).flatten.length + 1) hleveled (by omega) [] []
  rw [append_nil] at hbuild
  rw [buildSchemaTree, hbuild]

/-- **Shredded records are put together again.** For every schema in scope and
every list of its records: the tree built from the schema's list and the
columns of the shredded records give back, for each field, one value for each
record, and record `i` is what the fields have at `i`. -/
theorem reconstruct_returns_records (Z : Layout) (name : List Char) (a : SchemaElement) (ts : List Top)
    (records : List (List NestedValue)) (hlen : ts.length < 2 ^ 31) (hs : ∀ t ∈ ts, t.Shaped)
    (hd : Distinct (ts.map Top.name)) (hn : ∀ t ∈ ts, t.Named)
    (hr : ∀ r ∈ records, List.Forall₂ Top.Conforms ts r) :
    ∃ root cols, (buildSchemaTree Z (rootNode name a ts).flatten).1 = .ok root ∧
      reconstructRowGroup root records.length (leafData (shred ts records)) = .ok cols ∧
      cols.map Prod.fst = ts.map Top.name ∧ (∀ c ∈ cols, c.2.length = records.length) ∧
      ∀ (i : Nat) (r : List NestedValue), records[i]? = some r → cols.map (fun c => c.2[i]?) = r.map some := by
  have hcols := hasColumns_leafData (shred_nodup hd hn records)
  exact ⟨rootNode name a ts, byColumn ts records, buildSchemaTree_flatten Z name a hlen hs,
    mapM_build rfl hs hr hcols, byColumn_names ts records, byColumn_length, fun i r hi => byColumn_row hr hi⟩

/-- An optional list of optional numbers. -/
def numbersField : Top :=
  .list3 ['n'] ['l'] ['e'] true true none none (leafElement ['e'] .optional (sampleElement .optional))

/-- A null list, an empty one, and one with a null. -/
def numbersRecords : List (List NestedValue) :=
  [[.null], [.list []], [.list [.scalar (.int32 7), .null]]]

theorem numbers_returned : ∃ root cols,
    (buildSchemaTree hostLayout (rootNode [] (sampleElement .required) [numbersField]).flatten).1 = .ok root ∧
      reconstructRowGroup root numbersRecords.length (leafData (shred [numbersField] numbersRecords)) = .ok cols ∧
      cols.map Prod.fst = [numbersField].map Top.name ∧ (∀ c ∈ cols, c.2.length = numbersRecords.length) ∧
      ∀ (i : Nat) (r : List NestedValue), numbersRecords[i]? = some r → cols.map (fun c => c.2[i]?) = r.map some := by
  have hnull : numbersField.Conforms .null := .inl ⟨rfl, rfl⟩
  have hempty : numbersField.Conforms (.list []) := .inr ⟨[], rfl, nofun⟩
  have hseven : numbersField.Conforms (.list [.scalar (.int32 7), .null]) :=
    .inr ⟨[some (.int32 7), none], rfl, fun _ => rfl⟩
  refine reconstruct_returns_records hostLayout [] (sampleElement .required) [numbersField] numbersRecords (by decide)
    ?_ ?_ ?_ ?_
  · intro t ht
    rw [mem_singleton.1 ht]
    exact nofun
  · exact ⟨nodup_singleton _, by decide⟩
  · intro t ht
    rw [mem_singleton.1 ht]
    trivial
  · intro r hr
    simp only [numbersRecords, mem_cons, not_mem_nil, or_false] at hr
    obtain rfl | rfl | rfl := hr
    · exact .cons hnull .nil
    · exact .cons hempty .nil
    · exact .cons hseven .nil

end DbStorage.Parquet
