import DbStorage.Parquet.Thrift
import DbStorage.Record.Text

/-!
# Opening a Parquet file (`footer.rs`, `schema_tree.rs` and `parquet_file.rs` in `src/column/parquet`)

`ParquetFile::open` finds the metadata at the end of the file, decodes it and
builds the tree of its flattened schema. The operations that can panic are
logged as in the decoder.

Result: `buildSchemaTree_spec` (the tree is built exactly if the list has all
of it, and otherwise the list is indexed out of range).

Left out: the file's bytes in `ParquetFile` (`open` only keeps a reference).
The levels of a node are `u32`s that do not overflow: the metadata has less
than 2^32 bytes, and every schema element takes at least one.
-/
namespace DbStorage.Parquet
open Bytes Record

/-! ## Metadata -/

namespace Value

/-- mirrors thrift.rs:61-69 -/
def asI32 : Value → Option Int32
  | .i16 v => some v.toInt32
  | .i32 v => some v
  | .i64 v => some v.toInt32
  | .byte v => some v.toInt32
  | _ => none

/-- mirrors thrift.rs:71-79 -/
def asI64 : Value → Option Int64
  | .i16 v => some v.toInt64
  | .i32 v => some v.toInt64
  | .i64 v => some v
  | .byte v => some v.toInt64
  | _ => none

/-- mirrors thrift.rs:81-86 -/
def asStr : Value → Option (List Char)
  | .binary b => (decodeUtf8 b).toOption
  | _ => none

/-- mirrors thrift.rs:95-100 -/
def asList : Value → Option (List Value)
  | .list l => some l
  | _ => none

end Value

/-- The first field with that id. -/
def findField (fields : List (Int16 × Value)) (id : Int16) : Option Value :=
  (fields.find? fun x => x.1 == id).map Prod.snd

/-- mirrors thrift.rs:110-116 -/
def Value.field (v : Value) (id : Int16) : Option Value :=
  match v with
  | .struct fields => findField fields id
  | _ => none

inductive PhysicalType where
  | boolean
  | int32
  | int64
  | int96
  | float
  | double
  | byteArray
  | fixedLenByteArray
  | unknown (v : Int32)
  deriving DecidableEq

/-- mirrors footer.rs:53-67 -/
def PhysicalType.ofI32 (v : Int32) : PhysicalType :=
  if v = 0 then .boolean
  else if v = 1 then .int32
  else if v = 2 then .int64
  else if v = 3 then .int96
  else if v = 4 then .float
  else if v = 5 then .double
  else if v = 6 then .byteArray
  else if v = 7 then .fixedLenByteArray
  else .unknown v

inductive Repetition where
  | required
  | optional
  | repeated
  | unknown (v : Int32)
  deriving DecidableEq

/-- mirrors footer.rs:78-87 -/
def Repetition.ofI32 (v : Int32) : Repetition :=
  if v = 0 then .required
  else if v = 1 then .optional
  else if v = 2 then .repeated
  else .unknown v

inductive ConvertedType where
  | decimal
  | timestampMillis
  | timestampMicros
  | other (v : Int32)
  deriving DecidableEq

/-- mirrors footer.rs:119-128 -/
def ConvertedType.ofI32 (v : Int32) : ConvertedType :=
  if v = 5 then .decimal
  else if v = 9 then .timestampMillis
  else if v = 10 then .timestampMicros
  else .other v

inductive Codec where
  | uncompressed
  | snappy
  | zstd
  | other (v : Int32)
  deriving DecidableEq

/-- mirrors footer.rs:139-148 -/
def Codec.ofI32 (v : Int32) : Codec :=
  if v = 0 then .uncompressed
  else if v = 1 then .snappy
  else if v = 6 then .zstd
  else .other v

/-- mirrors footer.rs:91-108 -/
structure SchemaElement where
  name : List Char
  physicalType : Option PhysicalType
  repetition : Option Repetition
  numChildren : Option Int32
  typeLength : Option Int32
  convertedType : Option ConvertedType
  scale : Option Int32
  precision : Option Int32
  deriving DecidableEq

/-- mirrors footer.rs:151-160 -/
structure ColumnMetaData where
  physicalType : PhysicalType
  codec : Codec
  pathInSchema : List (List Char)
  numValues : Int64
  totalUncompressedSize : Int64
  totalCompressedSize : Int64
  dataPageOffset : Int64
  dictionaryPageOffset : Option Int64
  deriving DecidableEq

structure ColumnChunk where
  fileOffset : Int64
  metaData : Option ColumnMetaData
  deriving DecidableEq

structure RowGroup where
  columns : List ColumnChunk
  totalByteSize : Int64
  numRows : Int64
  deriving DecidableEq

/-- mirrors footer.rs:176-182 -/
structure FileMetaData where
  version : Int32
  schema : List SchemaElement
  numRows : Int64
  rowGroups : List RowGroup
  createdBy : Option (List Char)
  deriving DecidableEq

/-- mirrors footer.rs:230-249 -/
def parseSchemaElement (v : Value) : SchemaElement where
  name := ((v.field 4).bind Value.asStr).getD []
  physicalType := ((v.field 1).bind Value.asI32).map PhysicalType.ofI32
  typeLength := (v.field 2).bind Value.asI32
  repetition := ((v.field 3).bind Value.asI32).map Repetition.ofI32
  numChildren := (v.field 5).bind Value.asI32
  convertedType := ((v.field 6).bind Value.asI32).map ConvertedType.ofI32
  scale := (v.field 7).bind Value.asI32
  precision := (v.field 8).bind Value.asI32

/-- mirrors footer.rs:275-312 -/
def parseColumnMetaData (v : Value) : ColumnMetaData where
  physicalType := (((v.field 1).bind Value.asI32).map PhysicalType.ofI32).getD (.unknown (-1))
  codec := (((v.field 4).bind Value.asI32).map Codec.ofI32).getD .uncompressed
  pathInSchema := (((v.field 3).bind Value.asList).map (List.filterMap Value.asStr)).getD []
  numValues := ((v.field 5).bind Value.asI64).getD 0
  totalUncompressedSize := ((v.field 6).bind Value.asI64).getD 0
  totalCompressedSize := ((v.field 7).bind Value.asI64).getD 0
  dataPageOffset := ((v.field 9).bind Value.asI64).getD 0
  dictionaryPageOffset := (v.field 11).bind Value.asI64

/-- mirrors footer.rs:266-273 -/
def parseColumnChunk (v : Value) : ColumnChunk where
  fileOffset := ((v.field 2).bind Value.asI64).getD 0
  metaData := (v.field 3).map parseColumnMetaData

/-- mirrors footer.rs:251-264 -/
def parseRowGroup (v : Value) : RowGroup where
  columns := (((v.field 1).bind Value.asList).map (List.map parseColumnChunk)).getD []
  totalByteSize := ((v.field 2).bind Value.asI64).getD 0
  numRows := ((v.field 3).bind Value.asI64).getD 0

/-- mirrors footer.rs:206-228 -/
def parseFileMetaData (fields : List (Int16 × Value)) : FileMetaData where
  version := ((findField fields 1).bind Value.asI32).getD 0
  schema := (((findField fields 2).bind Value.asList).map (List.map parseSchemaElement)).getD []
  numRows := ((findField fields 3).bind Value.asI64).getD 0
  rowGroups := (((findField fields 4).bind Value.asList).map (List.map parseRowGroup)).getD []
  createdBy := (findField fields 6).bind Value.asStr

/-! ## The footer -/

inductive FooterError where
  | fileTooShort
  | badMagic
  | thrift (e : ThriftError)
  deriving DecidableEq

/-- The decoder does not run out of fuel (`decodeStruct_fuel`). -/
def Halt.toFooterError : Halt → FooterError
  | .error e => .thrift e
  | .outOfFuel => .fileTooShort

def footerLen : Nat := 8

/-- `PAR1` -/
def magic : Bytes := [0x50, 0x41, 0x52, 0x31]

/-- The metadata within the file.
mirrors footer.rs:186-201 -/
def metadataBytes (file : Bytes) : Except FooterError Bytes :=
  if file.length < footerLen then .error .fileTooShort
  else
    let tail := file.drop (file.length - footerLen)
    if tail.drop 4 ≠ magic then .error .badMagic
    else
      let metadataLen := (ofLe32 (tail.take 4)).toNat
      if file.length < footerLen + metadataLen then .error .fileTooShort
      else .ok (slice file (file.length - (footerLen + metadataLen)) metadataLen)

/-- mirrors footer.rs:186-204 -/
def parseFooter (Z : Layout) (file : Bytes) : Except FooterError FileMetaData × List Event :=
  match metadataBytes file with
  | .error e => (.error e, [])
  | .ok bytes =>
    ((decodeStruct Z bytes).1.mapError Halt.toFooterError |>.map parseFileMetaData, (decodeStruct Z bytes).2.log)

/-! ## The schema tree -/

/-- mirrors schema_tree.rs:9-15 -/
inductive SchemaNode where
  | mk (name : List Char) (element : SchemaElement) (children : List SchemaNode) (maxDefLevel maxRepLevel : Nat)

/-- `as usize`, with the sign extended. -/
def SchemaElement.childCount (e : SchemaElement) : Nat := ((e.numChildren.getD 0).toInt64).toUInt64.toNat

/-- The elements behind `idx`. -/
structure Builder where
  rest : List SchemaElement
  log : List Event

inductive Stop where
  | indexOutOfRange
  | outOfFuel
  deriving DecidableEq

/-- `schema[*idx]`, and `*idx += 1`; `len` is the length of the whole list. -/
def takeElement (len : Nat) : Action Builder Stop SchemaElement := Action.ofFn fun s =>
  let log := s.log ++ [.index (len - s.rest.length) len]
  match s.rest with
  | [] => (.error .indexOutOfRange, ⟨[], log⟩)
  | e :: rest => (.ok e, ⟨rest, log⟩)

def reserveChildren (Z : Layout) (count : Nat) : Action Builder Stop Unit :=
  Action.ofFn fun s => (.ok (), { s with log := s.log ++ [.reserve count Z.node] })

/-- mirrors schema_tree.rs:78-84 -/
def levels (parentDef parentRep : Nat) (isRoot : Bool) (e : SchemaElement) : Nat × Nat :=
  if isRoot then (0, 0)
  else (parentDef + (if e.repetition ≠ some .required then 1 else 0),
    parentRep + (if e.repetition = some .repeated then 1 else 0))

mutual

/-- mirrors schema_tree.rs:68-99 -/
def buildNode (Z : Layout) (len : Nat) : Nat → Nat → Nat → Bool → Action Builder Stop SchemaNode
  | 0, _, _, _ => throw .outOfFuel
  | f + 1, parentDef, parentRep, isRoot => do
    let element ← takeElement len
    let level := levels parentDef parentRep isRoot element
    reserveChildren Z element.childCount
    let children ← buildChildren Z len f level.1 level.2 element.childCount
    pure (.mk element.name element children level.1 level.2)

/-- The loop over the children. -/
def buildChildren (Z : Layout) (len : Nat) : Nat → Nat → Nat → Nat → Action Builder Stop (List SchemaNode)
  | _, _, _, 0 => pure []
  | 0, _, _, _ + 1 => throw .outOfFuel
  | f + 1, d, r, n + 1 => do
    let child ← buildNode Z len f d r false
    let children ← buildChildren Z len f d r n
    pure (child :: children)

end

/-- mirrors schema_tree.rs:63-66 -/
def buildSchemaTree (Z : Layout) (schema : List SchemaElement) : Except Stop SchemaNode × Builder :=
  Action.exec (buildNode Z schema.length (2 * schema.length + 1) 0 0 true) ⟨schema, []⟩

/-! ## Opening -/

/-- mirrors parquet_file.rs:121-130 -/
def isFlatSchema (schema : List SchemaElement) : Bool × List Event :=
  match schema with
  | [] => (true, [])
  | root :: rest =>
    (decide (rest.length = root.childCount) &&
      rest.all fun s => s.physicalType.isSome && decide (s.repetition ≠ some .repeated),
      [.addUsize root.childCount 1])

structure ParquetFile where
  metadata : FileMetaData
  schemaTree : SchemaNode
  isFlat : Bool

/-- What `open` returns (nothing if it stopped), and what it did. -/
structure Outcome where
  result : Option (Except FooterError ParquetFile)
  log : List Event

/-- mirrors parquet_file.rs:148-158 -/
def ParquetFile.open (Z : Layout) (file : Bytes) : Outcome :=
  match parseFooter Z file with
  | (.error e, log) => ⟨some (.error e), log⟩
  | (.ok metadata, log) =>
    let flat := isFlatSchema metadata.schema
    match buildSchemaTree Z metadata.schema with
    | (.ok tree, s) => ⟨some (.ok ⟨metadata, tree, flat.1⟩), log ++ flat.2 ++ s.log⟩
    | (.error _, s) => ⟨none, log ++ flat.2 ++ s.log⟩

/-! ## The tree -/

/-- What is left of the list when `n` more subtrees, listed one after the
other in preorder, have been taken from it. -/
def spans : Nat → List SchemaElement → Option (List SchemaElement)
  | 0, l => some l
  | _ + 1, [] => none
  | n + 1, e :: l => spans (e.childCount + n) l

@[simp] theorem spans_zero (l : List SchemaElement) : spans 0 l = some l := by cases l <;> rfl

theorem spans_add (m n : Nat) (l : List SchemaElement) : spans (m + n) l = (spans m l).bind (spans n) := by
  induction l generalizing m with
  | nil =>
    cases m with
    | zero => rw [Nat.zero_add, spans_zero]; rfl
    | succ m => rw [Nat.succ_add]; rfl
  | cons e l ih =>
    cases m with
    | zero => rw [Nat.zero_add, spans_zero]; rfl
    | succ m =>
      rw [Nat.succ_add]
      simp only [spans]
      rw [← Nat.add_assoc, ih]

theorem spans_length {n : Nat} {l r : List SchemaElement} (h : spans n l = some r) : r.length + n ≤ l.length := by
  induction l generalizing n with
  | nil =>
    cases n with
    | zero => cases h; exact Nat.le_refl _
    | succ n => cases h
  | cons e l ih =>
    cases n with
    | zero => cases h; exact Nat.le_refl _
    | succ n =>
      have := ih h
      rw [List.length_cons]
      omega

/-- Nothing logged so far was out of range. -/
structure Calm (len : Nat) (s : Builder) : Prop where
  rest : s.rest.length ≤ len
  log : ∀ e ∈ s.log, (∃ count size, e = .reserve count size) ∨ ∃ i, e = .index i len ∧ i < len

/-- `x` takes `n` subtrees from the list, or finds out of range that they are
not there. -/
def Builds {α : Type} (len n : Nat) (x : Action Builder Stop α) (s : Builder) : Prop :=
  match Action.exec x s with
  | (.ok _, s') => spans n s.rest = some s'.rest ∧ Calm len s'
  | (.error h, s') => h = .indexOutOfRange ∧ spans n s.rest = none ∧ ∃ e ∈ s'.log, e.panics = true

section Builds
variable {α β : Type} {len m n : Nat} {s : Builder}

theorem Builds.pure (a : α) (h : Calm len s) : Builds len 0 (Pure.pure a) s := ⟨spans_zero _, h⟩

variable {x : Action Builder Stop α}

theorem Builds.bind {f : α → Action Builder Stop β} (hx : Builds len m x s)
    (hf : ∀ a s', Calm len s' → s'.rest.length + m ≤ s.rest.length → Builds len n (f a) s') :
    Builds len (n + m) (x >>= f) s := by
  unfold Builds at hx ⊢
  rw [Nat.add_comm, Action.exec_bind]
  rcases hr : Action.exec x s with ⟨e | a, s'⟩
  · rw [hr] at hx
    obtain ⟨rfl, hspans, hpanic⟩ := hx
    exact ⟨rfl, by rw [spans_add, hspans]; rfl, hpanic⟩
  · rw [hr] at hx
    obtain ⟨hspans, hcalm⟩ := hx
    have h := hf a s' hcalm (spans_length hspans)
    unfold Builds at h
    rw [spans_add, hspans]
    exact h

theorem Builds.map (h : Builds len n x s) (f : α → β) : Builds len n (x >>= fun a => Pure.pure (f a)) s := by
  have hb := h.bind (n := 0) fun a s' hc _ => Builds.pure (f a) hc
  rwa [Nat.zero_add] at hb

end Builds

structure BuildOk (Z : Layout) (len f : Nat) : Prop where
  node : ∀ d r isRoot s, 2 * s.rest.length + 1 ≤ f → Calm len s → Builds len 1 (buildNode Z len f d r isRoot) s
  children : ∀ d r n s, 2 * s.rest.length + 2 ≤ f → Calm len s → Builds len n (buildChildren Z len f d r n) s

variable {Z : Layout}

theorem BuildOk.succ {len f : Nat} (h : BuildOk Z len f) : BuildOk Z len (f + 1) where
  node d r isRoot s hf hc := by
    unfold buildNode
    obtain ⟨rest, log⟩ := s
    cases rest with
    | nil =>
      refine ⟨rfl, rfl, .index (len - 0) len, ?_, by simp [Event.panics]⟩
      exact List.mem_append_right _ List.mem_cons_self
    | cons e rest =>
      have hlen : rest.length + 1 ≤ len := hc.rest
      have hcalm : Calm len ⟨rest, log ++ [.index (len - (rest.length + 1)) len] ++
          [.reserve e.childCount Z.node]⟩ := by
        refine ⟨Nat.le_of_succ_le hlen, fun x hx => ?_⟩
        simp only [List.mem_append, List.mem_singleton] at hx
        obtain (hx | rfl) | rfl := hx
        · exact hc.log x hx
        · exact .inr ⟨_, rfl, by omega⟩
        · exact .inl ⟨_, _, rfl⟩
      have hchildren := (h.children (levels d r isRoot e).1 (levels d r isRoot e).2 e.childCount _
        (by simp only [List.length_cons] at hf ⊢; omega) hcalm).map fun children =>
          SchemaNode.mk e.name e children (levels d r isRoot e).1 (levels d r isRoot e).2
      exact hchildren
  children d r n s hf hc := by
    cases n with
    | zero =>
      rw [buildChildren]
      exact .pure _ hc
    | succ n =>
      rw [buildChildren]
      refine (h.node d r false s (by omega) hc).bind fun child s' hc' hl => ?_
      exact (h.children d r n s' (by omega) hc').map _

theorem build_ok (Z : Layout) (len f : Nat) : BuildOk Z len f := by
  induction f with
  | zero => exact ⟨fun _ _ _ _ hf => by omega, fun _ _ _ _ hf => by omega⟩
  | succ f ih => exact ih.succ

/-- Whether the tree can be built is whether the list has all of it. -/
theorem buildSchemaTree_spec (Z : Layout) (schema : List SchemaElement) :
    (∃ tree s, buildSchemaTree Z schema = (.ok tree, s) ∧ (spans 1 schema).isSome = true ∧ Calm schema.length s) ∨
      ∃ stop s, buildSchemaTree Z schema = (.error stop, s) ∧ spans 1 schema = none ∧
        ∃ e ∈ s.log, e.panics = true := by
  have h := (build_ok Z schema.length (2 * schema.length + 1)).node 0 0 true ⟨schema, []⟩ (Nat.le_refl _)
    ⟨Nat.le_refl _, nofun⟩
  unfold Builds at h
  unfold buildSchemaTree
  rcases hr : Action.exec (buildNode Z schema.length (2 * schema.length + 1) 0 0 true) ⟨schema, []⟩ with
    ⟨e | tree, s⟩
  · rw [hr] at h
    exact .inr ⟨e, s, rfl, h.2⟩
  · rw [hr] at h
    refine .inl ⟨tree, s, rfl, ?_, h.2⟩
    rw [h.1]
    rfl

/-- The sizes on a 64-bit host. -/
def hostLayout : Layout where
  value := 32
  pair := 64
  node := 136

end DbStorage.Parquet
