import DbStorage.Parquet.Compression
import DbStorage.Parquet.Delta
import DbStorage.Parquet.Page

/-!
# Reading a flat column (`reader.rs` and `parquet_file.rs` in `src/column/parquet`)

`RowGroupReader::read_column` goes through the pages of a column chunk. A
data page has definition levels (if the column is optional) and then values,
PLAIN or as indices into the chunk's dictionary.

`Chunk` says which bytes a writer may use for a column: any split into pages,
either encoding in each, any division of levels and indices into runs.
Result: `read_column_returns` (whatever of these was chosen, the reader
returns the column).

Left out: FLOAT and INT96 columns, which are read like INT32 and fixed-length
ones. A double is its 64 bits. Decoders run without overflow checks.
-/
namespace DbStorage.Parquet
open Bytes Record List

inductive ReadError where
  | encoding (e : EncodingError)
  | unexpectedEof
  | invalidUtf8
  | dictionaryIndexOutOfRange (i : Nat)
  /-- The reader does not return. -/
  | panicked
  deriving DecidableEq

abbrev Read := Except ReadError

/-- `as usize`, with the sign extended. -/
def asUsize (v : Int32) : Nat := v.toInt64.toUInt64.toNat

/-! ## Levels -/

/-- mirrors encoding.rs:195-197 -/
def bitWidthForMaxLevel (m : Nat) : Nat := if m = 0 then 0 else m.log2 + 1

/-- mirrors encoding.rs:208-210 -/
def nullMask (levels : List Nat) (maxDef : Nat) : List Bool := levels.map fun l => decide (l = maxDef)

/-- mirrors reader.rs:65-72 -/
def readLevelSection (buf : Bytes) (maxLevel numValues : Nat) : Read (List Nat × Bytes) :=
  if buf.length < 4 then .error .unexpectedEof
  else
    let len := leNat (buf.take 4)
    if buf.length < 4 + len then .error .unexpectedEof
    else
      match decodeHybrid (slice buf 4 len) (bitWidthForMaxLevel maxLevel) numValues with
      | .error e => .error (.encoding e)
      | .ok levels => .ok (levels, buf.drop (4 + len))

/-- mirrors reader.rs:51-61 -/
def splitDefinitionLevels (body : Bytes) (h : DataPageHeader) (maxDef : Nat) : Read (List Nat × Bytes) :=
  if maxDef = 0 then .ok ([], body) else readLevelSection body maxDef (asUsize h.numValues)

/-- Which slots of a page have a value. -/
def presents (h : DataPageHeader) (levels : List Nat) (maxDef : Nat) : List Bool :=
  if levels.isEmpty then List.replicate (asUsize h.numValues) true else nullMask levels maxDef

/-- mirrors reader.rs:332-341 -/
def presentCount (h : DataPageHeader) (levels : List Nat) (maxDef : Nat) : Nat :=
  if levels.isEmpty then asUsize h.numValues else ((nullMask levels maxDef).filter id).length

/-! ## Values -/

section Assemble
variable {σ α : Type}

/-- A vector of `n` entries is reserved first. Here `n` is an `i32` cast to
`usize`: a negative one overflows the capacity whatever an entry's size, and
memory is taken to suffice for the others.
mirrors reader.rs:152-153, 307-308 -/
def withCapacity (n : Nat) (x : Read α) : Read α := if 2 ^ 63 ≤ n then .error .panicked else x

/-- The loops of `assemble`, over which slots have a value.
mirrors reader.rs:154-168 -/
def assemble (read : σ → Read (α × σ)) : List Bool → σ → Read (List (Option α))
  | [], _ => .ok []
  | true :: ps, s =>
    match read s with
    | .error e => .error e
    | .ok (a, s) => (assemble read ps s).map (some a :: ·)
  | false :: ps, s => (assemble read ps s).map (none :: ·)

/-- `num_values` values of a dictionary page. -/
def readMany (read : σ → Read (α × σ)) : Nat → σ → Read (List α)
  | 0, _ => .ok []
  | n + 1, s =>
    match read s with
    | .error e => .error e
    | .ok (a, s) => (readMany read n s).map (a :: ·)

/-- The next of a list of decoded values. -/
def readNext : List α → Read (α × List α)
  | [] => .error .unexpectedEof
  | a :: rest => .ok (a, rest)

/-- The dictionary entry of the next index. -/
def readIndex (dictionary : List α) : List Nat → Read (α × List Nat)
  | [] => .error .unexpectedEof
  | i :: rest =>
    match dictionary[i]? with
    | none => .error (.dictionaryIndexOutOfRange i)
    | some a => .ok (a, rest)

end Assemble

/-- mirrors reader.rs:178-185 -/
def take (n : Nat) (buf : Bytes) : Read (Bytes × Bytes) :=
  if buf.length < n then .error .unexpectedEof else .ok (buf.take n, buf.drop n)

/-- mirrors reader.rs:187-189 -/
def readPlainI64 (buf : Bytes) : Read (Int64 × Bytes) :=
  (take 8 buf).map fun (b, rest) => ((UInt64.ofNat (leNat b)).toInt64, rest)

/-- mirrors reader.rs:191-193 -/
def readPlainF64 (buf : Bytes) : Read (UInt64 × Bytes) :=
  (take 8 buf).map fun (b, rest) => (UInt64.ofNat (leNat b), rest)

/-- mirrors reader.rs:201-203 -/
def readPlainI32 (buf : Bytes) : Read (Int32 × Bytes) :=
  (take 4 buf).map fun (b, rest) => ((UInt32.ofNat (leNat b)).toInt32, rest)

/-- mirrors reader.rs:195-199 -/
def readPlainString (buf : Bytes) : Read (List Char × Bytes) := do
  let (len, rest) ← take 4 buf
  let (b, rest) ← take (leNat len) rest
  match decodeUtf8 b with
  | .error _ => .error .invalidUtf8
  | .ok s => .ok (s, rest)

/-- mirrors reader.rs:209-211 -/
def readPlainFixedLenByteArray (n : Nat) (buf : Bytes) : Read (Bytes × Bytes) := take n buf

/-- A bit of the values, and the cursor behind it.
mirrors reader.rs:472-478 -/
def readBit (values : Bytes) (bitPos : Nat) : Read (Bool × Nat) :=
  if bitPos / 8 < values.length then .ok (decide (bitAt values bitPos = 1), bitPos + 1) else .error .unexpectedEof

/-! ## Columns -/

inductive ColumnType where
  | int64
  | double
  | int32
  | boolean
  | string
  | fixedLenByteArray (typeLength : Nat)
  deriving DecidableEq

abbrev ColumnType.Val : ColumnType → Type
  | .int64 => Int64
  | .double => UInt64
  | .int32 => Int32
  | .boolean => Bool
  | .string => List Char
  | .fixedLenByteArray _ => Bytes

/-- The state a reader of PLAIN values goes through. -/
abbrev ColumnType.Cursor : ColumnType → Type
  | .boolean => Nat
  | _ => Bytes

def ColumnType.start : (t : ColumnType) → Bytes → t.Cursor
  | .boolean, _ => (0 : Nat)
  | .int64, values => values
  | .double, values => values
  | .int32, values => values
  | .string, values => values
  | .fixedLenByteArray _, values => values

def ColumnType.readPlain : (t : ColumnType) → Bytes → t.Cursor → Read (t.Val × t.Cursor)
  | .int64, _ => readPlainI64
  | .double, _ => readPlainF64
  | .int32, _ => readPlainI32
  | .boolean, values => readBit values
  | .string, _ => readPlainString
  | .fixedLenByteArray n, _ => readPlainFixedLenByteArray n

/-- mirrors reader.rs:462-481, 501-511, 531-541, 592-605 -/
def readPlainColumn (t : ColumnType) (body : Bytes) (h : DataPageHeader) (maxDef : Nat) : Read (List (Option t.Val)) :=
  if h.numValues = 0 then .ok []
  else
    match splitDefinitionLevels body h maxDef with
    | .error e => .error e
    | .ok (levels, values) =>
      withCapacity (asUsize h.numValues) (assemble (t.readPlain values) (presents h levels maxDef) (t.start values))

/-- The INT64 reader also takes DELTA_BINARY_PACKED pages.
mirrors reader.rs:380-411 -/
def readInt64Page (body : Bytes) (h : DataPageHeader) (maxDef : Nat) : Read (List (Option Int64)) :=
  if h.numValues = 0 then .ok []
  else
    match splitDefinitionLevels body h maxDef with
    | .error e => .error e
    | .ok (levels, values) =>
      if h.encoding = .deltaBinaryPacked then
        match Delta.decodeDeltaBinaryPacked false values with
        | .error (.error e) => .error (.encoding e)
        | .error .panicked => .error .panicked
        | .ok decoded => withCapacity (asUsize h.numValues) (assemble readNext (presents h levels maxDef) decoded)
      else withCapacity (asUsize h.numValues) (assemble readPlainI64 (presents h levels maxDef) values)

def ColumnType.decodePlain : (t : ColumnType) → Bytes → DataPageHeader → Nat → Read (List (Option t.Val))
  | .int64 => readInt64Page
  | .double => readPlainColumn .double
  | .int32 => readPlainColumn .int32
  | .boolean => readPlainColumn .boolean
  | .string => readPlainColumn .string
  | .fixedLenByteArray n => readPlainColumn (.fixedLenByteArray n)

/-- `0..num_values` is empty for a negative number; the boolean reader casts
it first.
mirrors reader.rs:231-285 -/
def ColumnType.decodeDictionary (t : ColumnType) (body : Bytes) (numValues : Int32) : Read (List t.Val) :=
  let count := match t with
    | .boolean => asUsize numValues
    | _ => numValues.toInt.toNat
  readMany (t.readPlain body) count (t.start body)

/-- mirrors reader.rs:287-295 -/
def readDictionaryIndices (data : Bytes) (count : Nat) : Read (List Nat) :=
  match data with
  | [] => .error .unexpectedEof
  | w :: rest => (decodeHybrid rest w.toNat count).mapError .encoding

/-- One definition for the five readers of dictionary-encoded pages.
mirrors reader.rs:415-428 and 300-328 -/
def readColumnDictionary {α : Type} (body : Bytes) (h : DataPageHeader) (maxDef : Nat) (dictionary : List α) :
    Read (List (Option α)) :=
  if h.numValues = 0 then .ok []
  else
    match splitDefinitionLevels body h maxDef with
    | .error e => .error e
    | .ok (levels, data) =>
      match readDictionaryIndices data (presentCount h levels maxDef) with
      | .error e => .error e
      -- the decoder has reserved room for as many levels or indices before this does
      | .ok indices =>
        withCapacity (asUsize h.numValues) (assemble (readIndex dictionary) (presents h levels maxDef) indices)

/-! ## Row groups -/

inductive FileError where
  | page (e : PageError)
  | read (e : ReadError)
  | compression (e : Compression.CompressionError)
  | chunkOutOfBounds
  | missingDictionaryPage
  | unexpectedDictionaryPage
  | columnIndexOutOfRange (i : Nat)
  | missingColumnMetadata
  | missingTypeLength
  | outOfFuel
  deriving DecidableEq

/-- What is not modelled of the host: sizes, and the ZSTD decoder. -/
structure Host where
  layout : Layout
  zstd : Compression.StreamingDecoder

def Host.decompress (H : Host) (codec : Codec) (compressed : Bytes) (size : Nat) : Except FileError Bytes :=
  (Compression.decompress H.zstd codec compressed size).mapError .compression

/-- mirrors parquet_file.rs:358-368 -/
def readDataPage (t : ColumnType) (maxDef : Nat) (body : Bytes) (h : DataPageHeader)
    (dictionary : Option (List t.Val)) : Except FileError (List (Option t.Val)) :=
  if h.encoding = .plainDictionary ∨ h.encoding = .rleDictionary then
    match dictionary with
    | some dict => (readColumnDictionary body h maxDef dict).mapError .read
    | none => .error .missingDictionaryPage
  else (t.decodePlain body h maxDef).mapError .read

/-- The loop over the pages: `buf` is what follows `pos`.
mirrors parquet_file.rs:343-389 -/
def readPages (H : Host) (t : ColumnType) (codec : Codec) (maxDef : Nat) :
    Nat → Bytes → Option (List t.Val) → Except FileError (List (Option t.Val))
  | _, [], _ => .ok []
  | 0, _ :: _, _ => .error .outOfFuel
  | f + 1, b :: buf, dictionary => do
    let (header, rest) ← (decodePageHeader H.layout (b :: buf)).mapError .page
    let size := asUsize header.compressedPageSize
    if rest.length < size then throw .chunkOutOfBounds
    let compressed := rest.take size
    match header.pageType with
    | .data h => do
      let body ← H.decompress codec compressed (asUsize header.uncompressedPageSize)
      let values ← readDataPage t maxDef body h dictionary
      let more ← readPages H t codec maxDef f (rest.drop size) dictionary
      pure (values ++ more)
    | .dictionary h =>
      match dictionary with
      | some _ => throw .unexpectedDictionaryPage
      | none => do
        let body ← H.decompress codec compressed (asUsize header.uncompressedPageSize)
        let dict ← (t.decodeDictionary body h.numValues).mapError .read
        readPages H t codec maxDef f (rest.drop size) (some dict)

structure RowGroupReader where
  metadata : FileMetaData
  data : Bytes
  rowGroup : RowGroup

namespace RowGroupReader

/-- mirrors parquet_file.rs:292-302 -/
def columnMeta (g : RowGroupReader) (i : Nat) : Except FileError ColumnMetaData :=
  match g.rowGroup.columns[i]? with
  | none => .error (.columnIndexOutOfRange i)
  | some chunk =>
    match chunk.metaData with
    | none => .error .missingColumnMetadata
    | some m => .ok m

def asOffset (v : Int64) : Nat := v.toUInt64.toNat

/-- mirrors parquet_file.rs:311-319 -/
def columnChunkBytes (g : RowGroupReader) (i : Nat) : Except FileError Bytes :=
  match g.columnMeta i with
  | .error e => .error e
  | .ok m =>
    let start := asOffset (m.dictionaryPageOffset.getD m.dataPageOffset)
    match g.data.getRange start (start + asOffset m.totalCompressedSize) with
    | none => .error .chunkOutOfBounds
    | some bytes => .ok bytes

/-- mirrors parquet_file.rs:238-248 -/
def maxDefinitionLevel (g : RowGroupReader) (i : Nat) : Nat :=
  if (g.metadata.schema[i + 1]?).bind SchemaElement.repetition = some .optional then 1 else 0

/-- mirrors parquet_file.rs:251-258 -/
def typeLength (g : RowGroupReader) (i : Nat) : Except FileError Nat :=
  match (g.metadata.schema[i + 1]?).bind SchemaElement.typeLength with
  | none => .error .missingTypeLength
  | some n => .ok (asUsize n)

/-- mirrors parquet_file.rs:328-389 -/
def readColumn (H : Host) (t : ColumnType) (g : RowGroupReader) (i : Nat) : Except FileError (List (Option t.Val)) := do
  let m ← g.columnMeta i
  let chunk ← g.columnChunkBytes i
  readPages H t m.codec (g.maxDefinitionLevel i) (chunk.length + 1) chunk none

def readInt64Column (H : Host) (g : RowGroupReader) (i : Nat) : Except FileError (List (Option Int64)) :=
  readColumn H .int64 g i

def readDoubleColumn (H : Host) (g : RowGroupReader) (i : Nat) : Except FileError (List (Option UInt64)) :=
  readColumn H .double g i

def readInt32Column (H : Host) (g : RowGroupReader) (i : Nat) : Except FileError (List (Option Int32)) :=
  readColumn H .int32 g i

def readBooleanColumn (H : Host) (g : RowGroupReader) (i : Nat) : Except FileError (List (Option Bool)) :=
  readColumn H .boolean g i

def readStringColumn (H : Host) (g : RowGroupReader) (i : Nat) : Except FileError (List (Option (List Char))) :=
  readColumn H .string g i

/-- mirrors parquet_file.rs:622-637 -/
def readFixedLenByteArrayColumn (H : Host) (g : RowGroupReader) (i : Nat) : Except FileError (List (Option Bytes)) := do
  let n ← g.typeLength i
  readColumn H (.fixedLenByteArray n) g i

/-- The method for a type. -/
def read (H : Host) : (t : ColumnType) → RowGroupReader → Nat → Except FileError (List (Option t.Val))
  | .int64 => readInt64Column H
  | .double => readDoubleColumn H
  | .int32 => readInt32Column H
  | .boolean => readBooleanColumn H
  | .string => readStringColumn H
  | .fixedLenByteArray _ => readFixedLenByteArrayColumn H

end RowGroupReader

/-! ## What is written -/

/-- A string has less than 2^32 bytes, and a fixed-length value its length. -/
def ColumnType.Fits : (t : ColumnType) → t.Val → Prop
  | .string, s => (encodeUtf8 s).length < 2 ^ 32
  | .fixedLenByteArray n, b => b.length = n
  | .int64, _ => True
  | .double, _ => True
  | .int32, _ => True
  | .boolean, _ => True

def plainI64 (v : Int64) : Bytes := leBytes 8 v.toUInt64.toNat
def plainF64 (bits : UInt64) : Bytes := leBytes 8 bits.toNat
def plainI32 (v : Int32) : Bytes := leBytes 4 v.toUInt32.toNat
def plainString (s : List Char) : Bytes := leBytes 4 (encodeUtf8 s).length ++ encodeUtf8 s

/-- PLAIN values one after the other; booleans are packed. -/
def ColumnType.plainBytes : (t : ColumnType) → List t.Val → Bytes
  | .int64, vs => vs.flatMap plainI64
  | .double, vs => vs.flatMap plainF64
  | .int32, vs => vs.flatMap plainI32
  | .string, vs => vs.flatMap plainString
  | .fixedLenByteArray _, vs => vs.flatMap id
  | .boolean, vs => leBytes ((vs.length + 7) / 8) (packNat 1 (vs.map Bool.toNat))

section Chunk
variable {α : Type}

/-- The values that are there. -/
def present (col : List (Option α)) : List α := col.filterMap id

def levelOf (v : Option α) : Nat := if v.isSome then 1 else 0

/-- The bytes of a page before its values. -/
inductive LevelBytes : Bool → List (Option α) → Bytes → Prop
  | required (col : List (Option α)) (h : ∀ v ∈ col, v.isSome = true) : LevelBytes false col []
  | optional (col : List (Option α)) (runs : Bytes) (h : Runs 1 (col.map levelOf) runs) (hlen : runs.length < 2 ^ 32) :
      LevelBytes true col (leBytes 4 runs.length ++ runs)

end Chunk

variable {t : ColumnType}

/-- The values of a page under one of its encodings. -/
inductive ValueBytes (t : ColumnType) (dictionary : Option (List t.Val)) : Encoding → List t.Val → Bytes → Prop
  | plain (vs : List t.Val) (fits : ∀ v ∈ vs, t.Fits v) : ValueBytes t dictionary .plain vs (t.plainBytes vs)
  | indices (e : Encoding) (he : e = .plainDictionary ∨ e = .rleDictionary) (dict : List t.Val)
      (hd : dictionary = some dict) (w : UInt8) (hw : w.toNat ≤ 32) (is : List Nat) (vs : List t.Val) (runs : Bytes)
      (hi : is.map (dict[·]?) = vs.map some) (h : Runs w.toNat is runs) : ValueBytes t dictionary e vs (w :: runs)

/-- A data page: a header that states the sizes, the levels and the values. -/
structure DataPage (t : ColumnType) (optional : Bool) (dictionary : Option (List t.Val)) (col : List (Option t.Val))
    (bytes : Bytes) where
  fs : List (Int16 × Value)
  header : PageHeader
  page : DataPageHeader
  headerBytes : Bytes
  levelBytes : Bytes
  valueBytes : Bytes
  wire : Wire (.fields 0 fs) headerBytes
  header_eq : pageHeaderOf (.struct fs) = .ok header
  isData : header.pageType = .data page
  numValues : page.numValues.toInt = col.length
  size : header.compressedPageSize.toInt = (levelBytes ++ valueBytes).length
  levels : LevelBytes optional col levelBytes
  values : ValueBytes t dictionary page.encoding (present col) valueBytes
  bytes_eq : bytes = headerBytes ++ (levelBytes ++ valueBytes)

inductive DataPages (t : ColumnType) (optional : Bool) (dictionary : Option (List t.Val)) :
    List (Option t.Val) → Bytes → Prop
  | nil : DataPages t optional dictionary [] []
  | cons {col cols : List (Option t.Val)} {bytes more : Bytes} (p : DataPage t optional dictionary col bytes)
      (h : DataPages t optional dictionary cols more) : DataPages t optional dictionary (col ++ cols) (bytes ++ more)

/-- A column chunk: data pages, or a dictionary page and then data pages. -/
inductive Chunk (t : ColumnType) (optional : Bool) : List (Option t.Val) → Bytes → Prop
  | plain {col : List (Option t.Val)} {bytes : Bytes} (h : DataPages t optional none col bytes) : Chunk t optional col bytes
  | dictionary {col : List (Option t.Val)} {bytes headerBytes : Bytes} (fs : List (Int16 × Value)) (header : PageHeader)
      (page : DictionaryPageHeader) (dict : List t.Val) (wire : Wire (.fields 0 fs) headerBytes)
      (header_eq : pageHeaderOf (.struct fs) = .ok header) (isDict : header.pageType = .dictionary page)
      (numValues : page.numValues.toInt = dict.length)
      (size : header.compressedPageSize.toInt = (t.plainBytes dict).length) (fits : ∀ v ∈ dict, t.Fits v)
      (h : DataPages t optional (some dict) col bytes) :
      Chunk t optional col (headerBytes ++ (t.plainBytes dict ++ bytes))

/-! ## Values are read back -/

section Assemble
variable {σ α : Type}

/-- From `s` the reader gives these values. -/
inductive Supplies (read : σ → Read (α × σ)) : List α → σ → Prop
  | nil (s : σ) : Supplies read [] s
  | cons {a : α} {vs : List α} {s s' : σ} (h : read s = .ok (a, s')) (hs : Supplies read vs s') :
      Supplies read (a :: vs) s

theorem assemble_supplies {read : σ → Read (α × σ)} {col : List (Option α)} {s : σ}
    (h : Supplies read (present col) s) : assemble read (col.map Option.isSome) s = .ok col := by
  induction col generalizing s with
  | nil => rfl
  | cons v col ih =>
    cases v with
    | none =>
      rw [map_cons, Option.isSome_none, assemble, ih h]
      rfl
    | some a =>
      cases h with
      | cons hread hs =>
        rw [map_cons, Option.isSome_some, assemble, hread]
        simp only [ih hs]
        rfl

theorem readMany_supplies {read : σ → Read (α × σ)} {vs : List α} {s : σ} (h : Supplies read vs s) :
    readMany read vs.length s = .ok vs := by
  induction h with
  | nil s => rfl
  | cons hread hs ih =>
    rw [length_cons, readMany, hread]
    simp only [ih]
    rfl

theorem supplies_readIndex {dict : List α} {is : List Nat} {vs : List α} (h : is.map (dict[·]?) = vs.map some) :
    Supplies (readIndex dict) vs is := by
  induction is generalizing vs with
  | nil =>
    cases vs with
    | nil => exact .nil _
    | cons v vs => cases h
  | cons i is ih =>
    cases vs with
    | nil => cases h
    | cons v vs =>
      simp only [map_cons, List.cons.injEq] at h
      have hread : readIndex dict (i :: is) = .ok (v, is) := by rw [readIndex, h.1]
      exact .cons hread (ih h.2)

/-- A reader that gives back one value's bytes gives back the bytes of many. -/
theorem supplies_flatMap_append {read : Bytes → Read (α × Bytes)} {enc : α → Bytes} {vs : List α}
    (h : ∀ v ∈ vs, ∀ rest, read (enc v ++ rest) = .ok (v, rest)) (rest : Bytes) :
    Supplies read vs (vs.flatMap enc ++ rest) := by
  induction vs with
  | nil => exact .nil _
  | cons v vs ih =>
    rw [flatMap_cons, append_assoc]
    exact .cons (h v mem_cons_self _) (ih fun u hu => h u (mem_cons_of_mem _ hu))

theorem supplies_flatMap {read : Bytes → Read (α × Bytes)} {enc : α → Bytes} {vs : List α}
    (h : ∀ v ∈ vs, ∀ rest, read (enc v ++ rest) = .ok (v, rest)) : Supplies read vs (vs.flatMap enc) := by
  simpa using supplies_flatMap_append h []

end Assemble

theorem take_append (b rest : Bytes) : take b.length (b ++ rest) = .ok (b, rest) := by
  simp [take]

theorem take_leBytes (n v : Nat) (rest : Bytes) : take n (leBytes n v ++ rest) = .ok (leBytes n v, rest) := by
  have h := take_append (leBytes n v) rest
  rwa [leBytes_length] at h

theorem ofNat_leNat (bits : UInt64) : UInt64.ofNat (leNat (leBytes 8 bits.toNat)) = bits := by
  rw [leNat_leBytes, show 256 ^ 8 = 2 ^ 64 from rfl, Nat.mod_eq_of_lt bits.toNat_lt, UInt64.ofNat_toNat]

theorem readPlainI64_plain (v : Int64) (rest : Bytes) : readPlainI64 (plainI64 v ++ rest) = .ok (v, rest) := by
  rw [readPlainI64, plainI64, take_leBytes]
  simp only [Except.map, ofNat_leNat]
  rfl

theorem readPlainF64_plain (bits : UInt64) (rest : Bytes) : readPlainF64 (plainF64 bits ++ rest) = .ok (bits, rest) := by
  rw [readPlainF64, plainF64, take_leBytes]
  simp only [Except.map, ofNat_leNat]

theorem readPlainI32_plain (v : Int32) (rest : Bytes) : readPlainI32 (plainI32 v ++ rest) = .ok (v, rest) := by
  have hval : UInt32.ofNat (leNat (leBytes 4 v.toUInt32.toNat)) = v.toUInt32 := by
    rw [leNat_leBytes, show 256 ^ 4 = 2 ^ 32 from rfl, Nat.mod_eq_of_lt v.toUInt32.toNat_lt, UInt32.ofNat_toNat]
  rw [readPlainI32, plainI32, take_leBytes]
  simp only [Except.map, hval]
  rfl

theorem readPlainString_plain {s : List Char} (h : (encodeUtf8 s).length < 2 ^ 32) (rest : Bytes) :
    readPlainString (plainString s ++ rest) = .ok (s, rest) := by
  have hlen : leNat (leBytes 4 (encodeUtf8 s).length) = (encodeUtf8 s).length := by
    rw [leNat_leBytes, Nat.mod_eq_of_lt (by simpa using h)]
  simp only [readPlainString, plainString, append_assoc, take_leBytes, bind, Except.bind, hlen, take_append,
    decodeUtf8_encode]

theorem supplies_readBit (pre vs : List Bool) :
    Supplies (readBit (leBytes (((pre ++ vs).length + 7) / 8) (packNat 1 ((pre ++ vs).map Bool.toNat)))) vs
      pre.length := by
  induction vs generalizing pre with
  | nil => exact .nil _
  | cons v vs ih =>
    have hrec := ih (pre ++ [v])
    have hnext : (pre ++ [v]).length = pre.length + 1 := length_append
    rw [append_assoc, singleton_append, hnext] at hrec
    refine .cons ?_ hrec
    have hlt : pre.length < (pre ++ v :: vs).length := by simp
    have hone : ∀ u ∈ (pre ++ v :: vs).map Bool.toNat, u < 2 ^ 1 := by
      intro u hu
      obtain ⟨b, -, rfl⟩ := mem_map.1 hu
      cases b <;> decide
    have hbit := testBit_packNat hone (i := pre.length) (by decide : 0 < 1)
    rw [Nat.mul_one, Nat.add_zero] at hbit
    rw [readBit, leBytes_length, if_pos (by omega), bitAt_leBytes (by omega), hbit]
    cases v <;> simp

theorem ColumnType.supplies (t : ColumnType) {vs : List t.Val} (h : ∀ v ∈ vs, t.Fits v) :
    Supplies (t.readPlain (t.plainBytes vs)) vs (t.start (t.plainBytes vs)) := by
  cases t with
  | int64 => exact supplies_flatMap fun v _ rest => readPlainI64_plain v rest
  | double => exact supplies_flatMap fun v _ rest => readPlainF64_plain v rest
  | int32 => exact supplies_flatMap fun v _ rest => readPlainI32_plain v rest
  | boolean => exact supplies_readBit [] vs
  | string => exact supplies_flatMap fun v hv rest => readPlainString_plain (h v hv) rest
  | fixedLenByteArray n =>
    refine supplies_flatMap fun v hv rest => ?_
    have hlen : v.length = n := h v hv
    rw [← hlen]
    exact take_append v rest

/-! ## Pages are read back -/

theorem asUsize_eq {v : Int32} {n : Nat} (h : v.toInt = n) : asUsize v = n := by
  have hlt := v.toInt_lt
  have h64 : v.toInt64.toInt = n := by rw [Int32.toInt_toInt64, h]
  have hcond := BitVec.toInt_eq_toNat_cond v.toInt64.toBitVec
  have hbit : v.toInt64.toBitVec.toInt = n := h64
  have hbound := v.toInt64.toBitVec.isLt
  show v.toInt64.toBitVec.toNat = n
  rw [hbit] at hcond
  split at hcond <;> omega

theorem withCapacity_of {α : Type} {v : Int32} {n : Nat} (h : v.toInt = n) (x : Read α) : withCapacity (asUsize v) x = x := by
  have hlt := v.toInt_lt
  rw [withCapacity, if_neg (by rw [asUsize_eq h]; omega)]

theorem numValues_eq_zero {v : Int32} : v = 0 ↔ v.toInt = 0 :=
  ⟨fun h => by rw [h]; rfl, fun h => Int32.toInt_inj.1 (by rw [h]; rfl)⟩

variable {bytes : Bytes} {h : DataPageHeader} {optional : Bool} {fs : List (Int16 × Value)}

theorem Runs.lt {w : Nat} {vs : List Nat} (h : Runs w vs bytes) : ∀ v ∈ vs, v < 2 ^ w := by
  induction h with
  | nil => exact nofun
  | rle n v header hv hh h ih =>
    intro u hu
    obtain hu | hu := mem_append.1 hu
    · rwa [eq_of_mem_replicate hu]
    · exact ih u hu
  | packed groups us header hlen hus hh h ih =>
    intro u hu
    obtain hu | hu := mem_append.1 hu
    · exact hus u hu
    · exact ih u hu
  | padded groups us pad header hlen hus hh => exact fun u hu => hus u (mem_append_left _ hu)

section Levels
variable {α : Type} {col : List (Option α)}

def maxDefOf (optional : Bool) : Nat := if optional then 1 else 0

def levelsOf (optional : Bool) (col : List (Option α)) : List Nat := if optional then col.map levelOf else []

variable {lb : Bytes} {page : DataPageHeader}

theorem splitDefinitionLevels_of (h : LevelBytes optional col lb) (hn : page.numValues.toInt = col.length) (vb : Bytes) :
    splitDefinitionLevels (lb ++ vb) page (maxDefOf optional) = .ok (levelsOf optional col, vb) := by
  cases h with
  | required _ h => rfl
  | optional _ runs h hlen =>
    have hfour := leBytes_length 4 runs.length
    have hval : leNat (leBytes 4 runs.length) = runs.length := by
      rw [leNat_leBytes, Nat.mod_eq_of_lt (by simpa using hlen)]
    have hcount := page.numValues.toInt_lt
    have hdecode := decodeHybrid_runs h h.lt (by decide) (by omega) (by rw [length_map]; omega)
    rw [length_map] at hdecode
    have htake : (leBytes 4 runs.length ++ runs ++ vb).take 4 = leBytes 4 runs.length := by
      rw [append_assoc, take_left' hfour]
    have hslice : slice (leBytes 4 runs.length ++ runs ++ vb) 4 runs.length = runs := by
      rw [slice, append_assoc, drop_left' hfour, take_left]
    have hdrop : (leBytes 4 runs.length ++ runs ++ vb).drop (4 + runs.length) = vb := by
      rw [drop_left' (by rw [length_append, hfour])]
    have hlong : ¬ (leBytes 4 runs.length ++ runs ++ vb).length < 4 + runs.length := by
      simp only [length_append, hfour]
      omega
    rw [splitDefinitionLevels, if_neg (by decide), readLevelSection, if_neg (by omega), htake, hval]
    simp only [if_neg hlong, hslice, hdrop, asUsize_eq hn]
    rw [show bitWidthForMaxLevel (maxDefOf true) = 1 from by decide, hdecode]
    rfl

theorem presents_of (h : LevelBytes optional col lb) (hn : page.numValues.toInt = col.length) (hne : col ≠ []) :
    presents page (levelsOf optional col) (maxDefOf optional) = col.map Option.isSome := by
  cases h with
  | required _ h =>
    show List.replicate (asUsize page.numValues) true = _
    rw [asUsize_eq hn]
    symm
    refine eq_replicate_iff.2 ⟨length_map _, fun b hb => ?_⟩
    obtain ⟨v, hv, rfl⟩ := mem_map.1 hb
    exact h v hv
  | optional _ runs h hlen =>
    cases col with
    | nil => exact absurd rfl hne
    | cons v col =>
      show nullMask ((v :: col).map levelOf) 1 = _
      rw [nullMask, map_map]
      refine map_congr_left fun u _ => ?_
      cases u <;> rfl

theorem filter_isSome (col : List (Option α)) : ((col.map Option.isSome).filter id).length = (present col).length := by
  induction col with
  | nil => rfl
  | cons v col ih => cases v <;> simpa [present] using ih

theorem presentCount_of (h : LevelBytes optional col lb) (hn : page.numValues.toInt = col.length) (hne : col ≠ []) :
    presentCount page (levelsOf optional col) (maxDefOf optional) = (present col).length := by
  have hp := presents_of h hn hne
  rw [← filter_isSome, ← hp]
  unfold presentCount presents
  split
  · rw [filter_replicate]
    simp
  · rfl

end Levels

theorem ColumnType.decodePlain_eq (t : ColumnType) (body : Bytes) (maxDef : Nat)
    (he : h.encoding ≠ .deltaBinaryPacked) : t.decodePlain body h maxDef = readPlainColumn t body h maxDef := by
  cases t with
  | int64 =>
    show readInt64Page body h maxDef = _
    simp only [readInt64Page, readPlainColumn, if_neg he]
    rfl
  | double => rfl
  | int32 => rfl
  | boolean => rfl
  | string => rfl
  | fixedLenByteArray n => rfl

theorem readDataPage_plain (t : ColumnType) (maxDef : Nat) (body : Bytes) (dictionary : Option (List t.Val))
    (he : h.encoding = .plain) :
    readDataPage t maxDef body h dictionary = (readPlainColumn t body h maxDef).mapError .read := by
  have hnot : ¬ (h.encoding = .plainDictionary ∨ h.encoding = .rleDictionary) := by rw [he]; decide
  unfold readDataPage
  rw [if_neg hnot, t.decodePlain_eq body maxDef (by rw [he]; decide)]

theorem readDataPage_dictionary (t : ColumnType) (maxDef : Nat) (body : Bytes) (dict : List t.Val)
    (he : h.encoding = .plainDictionary ∨ h.encoding = .rleDictionary) :
    readDataPage t maxDef body h (some dict) = (readColumnDictionary body h maxDef dict).mapError .read := by
  unfold readDataPage
  rw [if_pos he]

section Page
variable {optional : Bool} {col : List (Option t.Val)} {page : DataPageHeader} {lb : Bytes}

theorem readPlainColumn_of (hn : page.numValues.toInt = col.length) (hl : LevelBytes optional col lb)
    (fits : ∀ v ∈ present col, t.Fits v) :
    readPlainColumn t (lb ++ t.plainBytes (present col)) page (maxDefOf optional) = .ok col := by
  unfold readPlainColumn
  split
  · -- an empty page is not looked at
    rename_i hzero
    rw [numValues_eq_zero, hn] at hzero
    rw [eq_nil_of_length_eq_zero (by omega : col.length = 0)]
  · rename_i hzero
    have hne : col ≠ [] := by
      rintro rfl
      exact hzero (numValues_eq_zero.2 (by rw [hn]; rfl))
    rw [splitDefinitionLevels_of hl hn]
    simp only [presents_of hl hn hne, withCapacity_of hn]
    exact assemble_supplies (t.supplies fits)

theorem readColumnDictionary_of (hn : page.numValues.toInt = col.length) (hl : LevelBytes optional col lb)
    {dict : List t.Val} {w : UInt8} (hw : w.toNat ≤ 32) {is : List Nat} {runs : Bytes}
    (hi : is.map (dict[·]?) = (present col).map some) (hr : Runs w.toNat is runs) (hsize : runs.length < 2 ^ 31) :
    readColumnDictionary (lb ++ w :: runs) page (maxDefOf optional) dict = .ok col := by
  unfold readColumnDictionary
  split
  · rename_i hzero
    rw [numValues_eq_zero, hn] at hzero
    rw [eq_nil_of_length_eq_zero (by omega : col.length = 0)]
  · rename_i hzero
    have hne : col ≠ [] := by
      rintro rfl
      exact hzero (numValues_eq_zero.2 (by rw [hn]; rfl))
    have hlen : is.length = (present col).length := by simpa using congrArg List.length hi
    have hcount := page.numValues.toInt_lt
    have hfew : (present col).length ≤ col.length := length_filterMap_le _ _
    have hindices : readDictionaryIndices (w :: runs) (present col).length = .ok is := by
      rw [← hlen, readDictionaryIndices, decodeHybrid_runs hr hr.lt hw (by omega) (by omega)]
      rfl
    rw [splitDefinitionLevels_of hl hn]
    simp only [presentCount_of hl hn hne, hindices, presents_of hl hn hne, withCapacity_of hn]
    exact assemble_supplies (supplies_readIndex hi)

end Page

theorem readDataPage_of {dictionary : Option (List t.Val)} {col : List (Option t.Val)}
    {page : DataPageHeader} {lb vb : Bytes} (hn : page.numValues.toInt = col.length) (hl : LevelBytes optional col lb)
    (hv : ValueBytes t dictionary page.encoding (present col) vb) (hsize : vb.length < 2 ^ 31) :
    readDataPage t (maxDefOf optional) (lb ++ vb) page dictionary = .ok col := by
  generalize he : page.encoding = e at hv
  generalize hp : present col = vs at hv
  cases hv with
  | plain _ fits =>
    subst hp
    rw [readDataPage_plain t _ _ _ he, readPlainColumn_of hn hl fits]
    rfl
  | indices _ he' dict hd w hw is _ runs hi hr =>
    subst hp hd
    simp only [length_cons] at hsize
    rw [readDataPage_dictionary t _ _ _ (he ▸ he'), readColumnDictionary_of hn hl hw hi hr (by omega)]
    rfl

/-! ## Chunks are read back -/

theorem Wire.fields_ne_nil {last : Int16} (h : Wire (.fields last fs) bytes) : bytes ≠ [] := by
  cases h <;> exact cons_ne_nil _ _

/-- What is done with a page, by its kind. -/
def readPage (H : Host) (t : ColumnType) (maxDef f : Nat) (header : PageHeader) (body more : Bytes)
    (dictionary : Option (List t.Val)) : Except FileError (List (Option t.Val)) :=
  match header.pageType with
  | .data h => do
    let values ← readDataPage t maxDef body h dictionary
    let rest ← readPages H t .uncompressed maxDef f more dictionary
    pure (values ++ rest)
  | .dictionary h =>
    match dictionary with
    | some _ => throw .unexpectedDictionaryPage
    | none => do
      let dict ← (t.decodeDictionary body h.numValues).mapError .read
      readPages H t .uncompressed maxDef f more (some dict)

theorem readPages_step (H : Host) (t : ColumnType) (maxDef f : Nat) {hb body : Bytes} {header : PageHeader}
    (wire : Wire (.fields 0 fs) hb) (heq : pageHeaderOf (.struct fs) = .ok header)
    (hsize : header.compressedPageSize.toInt = body.length) (more : Bytes) (dictionary : Option (List t.Val)) :
    readPages H t .uncompressed maxDef (f + 1) (hb ++ (body ++ more)) dictionary =
      readPage H t maxDef f header body more dictionary := by
  have hdecode := decodePageHeader_wire (Z := H.layout) wire heq (body ++ more)
  obtain ⟨b, hb', rfl⟩ := exists_cons_of_ne_nil wire.fields_ne_nil
  rw [cons_append] at hdecode ⊢
  have hlong : ¬ (body ++ more).length < body.length := by rw [length_append]; omega
  simp only [readPages, hdecode, bind, Except.bind, Except.mapError, asUsize_eq hsize, if_neg hlong, take_left,
    drop_left, Host.decompress, Compression.decompress, Except.mapError]
  rfl

theorem DataPages.readPages (H : Host) {dictionary : Option (List t.Val)} {col : List (Option t.Val)}
    (h : DataPages t optional dictionary col bytes) {f : Nat} (hf : bytes.length ≤ f) :
    Parquet.readPages H t .uncompressed (maxDefOf optional) f bytes dictionary = .ok col := by
  induction h generalizing f with
  | nil => cases f <;> rfl
  | @cons col cols bytes more p h ih =>
    obtain ⟨fs, header, page, hb, lb, vb, wire, heq, isData, hn, size, levels, values, rfl⟩ := p
    have hpos := length_pos_of_ne_nil wire.fields_ne_nil
    simp only [length_append] at hf
    obtain ⟨f, rfl⟩ := Nat.exists_eq_succ_of_ne_zero (by omega : f ≠ 0)
    rw [append_assoc, readPages_step H t _ f wire heq size]
    have hmore := ih (f := f) (by omega)
    have hsmall := header.compressedPageSize.toInt_lt
    rw [length_append] at size
    simp only [readPage, isData, readDataPage_of hn levels values (by omega), bind, Except.bind, hmore]
    rfl

theorem decodeDictionary_of {dict : List t.Val} {n : Int32} (hn : n.toInt = dict.length) (fits : ∀ v ∈ dict, t.Fits v) :
    t.decodeDictionary (t.plainBytes dict) n = .ok dict := by
  have hread := readMany_supplies (t.supplies fits)
  unfold ColumnType.decodeDictionary
  split
  · rw [asUsize_eq hn]
    exact hread
  · rw [hn, Int.toNat_natCast]
    exact hread

theorem Chunk.readPages (H : Host) {col : List (Option t.Val)} (h : Chunk t optional col bytes) :
    Parquet.readPages H t .uncompressed (maxDefOf optional) (bytes.length + 1) bytes none = .ok col := by
  cases h with
  | plain h => exact h.readPages H (Nat.le_succ _)
  | dictionary fs header page dict wire heq isDict hn size fits h =>
    rw [readPages_step H t _ _ wire heq size]
    simp only [readPage, isDict, decodeDictionary_of hn fits, bind, Except.bind, Except.mapError]
    refine h.readPages H ?_
    simp only [length_append]
    omega

theorem RowGroupReader.readColumn_of (H : Host) {g : RowGroupReader} {i : Nat} {m : ColumnMetaData}
    {col : List (Option t.Val)} (hmeta : g.columnMeta i = .ok m) (hcodec : m.codec = .uncompressed)
    (hbytes : g.columnChunkBytes i = .ok bytes) (hdef : g.maxDefinitionLevel i = maxDefOf optional)
    (h : Chunk t optional col bytes) : readColumn H t g i = .ok col := by
  simp only [readColumn, hmeta, hbytes, hcodec, hdef, bind, Except.bind]
  exact h.readPages H

/-- **A flat column is read back.** For every type, required or optional, and
every chunk a writer may have made of the column, the reader's method for the
type returns its values and nulls in order. -/
theorem read_column_returns (H : Host) (t : ColumnType) (g : RowGroupReader) (i : Nat) (optional : Bool)
    (m : ColumnMetaData) (e : SchemaElement) (col : List (Option t.Val)) (bytes : Bytes)
    (hmeta : g.columnMeta i = .ok m) (hcodec : m.codec = .uncompressed) (hbytes : g.columnChunkBytes i = .ok bytes)
    (helem : g.metadata.schema[i + 1]? = some e)
    (hrep : e.repetition = some (if optional then .optional else .required))
    (hlen : ∀ n, t = .fixedLenByteArray n → e.typeLength.map asUsize = some n) (h : Chunk t optional col bytes) :
    RowGroupReader.read H t g i = .ok col := by
  have hdef : g.maxDefinitionLevel i = maxDefOf optional := by
    rw [RowGroupReader.maxDefinitionLevel, helem, Option.bind_some, hrep]
    cases optional <;> rfl
  have hread := RowGroupReader.readColumn_of H hmeta hcodec hbytes hdef h
  cases t with
  | int64 => exact hread
  | double => exact hread
  | int32 => exact hread
  | boolean => exact hread
  | string => exact hread
  | fixedLenByteArray n =>
    obtain ⟨k, hk, rfl⟩ := Option.map_eq_some_iff.1 (hlen n rfl)
    have htype : g.typeLength i = .ok (asUsize k) := by
      simp only [RowGroupReader.typeLength, helem, Option.bind_some, hk]
    show RowGroupReader.readFixedLenByteArrayColumn H g i = _
    simp only [RowGroupReader.readFixedLenByteArrayColumn, htype, bind, Except.bind]
    exact hread

/-- The header of a data page of `size` bytes. -/
def dataFields (size count encoding : Int32) : List (Int16 × Value) :=
  [(1, .i32 0), (2, .i32 size), (3, .i32 size),
    (5, .struct [(1, .i32 count), (2, .i32 encoding), (3, .i32 3), (4, .i32 3)])]

def smallVarint (v : Int32) : UInt8 := UInt8.ofNat (zigzag v.toInt)

def dataHeader (size count encoding : Int32) : Bytes :=
  [0x15, 0, 0x15, smallVarint size, 0x15, smallVarint size, 0x2c, 0x15, smallVarint count, 0x15, smallVarint encoding,
    0x15, 6, 0x15, 6, 0, 0]

/-- A PLAIN page: one packed run for the levels, and one value. -/
def sampleChunk : Bytes := dataHeader 10 2 0 ++ ([2, 0, 0, 0, 3, 1] ++ [7, 0, 0, 0])

def sampleElement (repetition : Repetition) : SchemaElement where
  name := []
  physicalType := some .int32
  repetition := some repetition
  numChildren := none
  typeLength := none
  convertedType := none
  scale := none
  precision := none

def sampleMeta : ColumnMetaData where
  physicalType := .int32
  codec := .uncompressed
  pathInSchema := []
  numValues := 2
  totalUncompressedSize := 27
  totalCompressedSize := 27
  dataPageOffset := 0
  dictionaryPageOffset := none

def sampleHost : Host where
  layout := hostLayout
  zstd := ⟨fun _ => .error "", fun _ => .error ""⟩

theorem sample_varint {v : Nat} (h : v < 128) : Varint v [UInt8.ofNat v] :=
  ⟨.last v h, by simp, by omega⟩

theorem sample_field (last : Int16) (delta : UInt8) (v : Int32) (hd : 0 < delta.toNat ∧ delta.toNat < 16)
    (hid : last.toInt + delta.toNat < 2 ^ 15) (hv : zigzag v.toInt < 128)
    (h : Wire (.fields (last + Int16.ofNat delta.toNat) fs) bytes) :
    Wire (.fields last ((last + Int16.ofNat delta.toNat, .i32 v) :: fs))
      ((delta <<< 4 ||| 5) :: ([UInt8.ofNat (zigzag v.toInt)] ++ bytes)) :=
  .field last delta 5 (.i32 v) fs _ bytes hd (by decide) hid (.i32 v _ (sample_varint hv)) h

theorem dataHeader_wire {size count encoding : Int32} (hs : zigzag size.toInt < 128) (hc : zigzag count.toInt < 128)
    (he : zigzag encoding.toInt < 128) :
    Wire (.fields 0 (dataFields size count encoding)) (dataHeader size count encoding) := by
  have hinner : Wire (.fields 0 [(1, .i32 count), (2, .i32 encoding), (3, .i32 3), (4, .i32 3)])
      [0x15, smallVarint count, 0x15, smallVarint encoding, 0x15, 6, 0x15, 6, 0] :=
    sample_field 0 1 count (by decide) (by decide) hc <|
      sample_field 1 1 encoding (by decide) (by decide) he <|
        sample_field 2 1 3 (by decide) (by decide) (by decide) <|
          sample_field 3 1 3 (by decide) (by decide) (by decide) <| .stop 4
  exact sample_field 0 1 0 (by decide) (by decide) (by decide) <|
    sample_field 1 1 size (by decide) (by decide) hs <|
      sample_field 2 1 size (by decide) (by decide) hs <|
        .field 3 2 12 _ [] _ [0] (by decide) (by decide) (by decide) (.struct _ _ hinner) (.stop 5)

theorem samplePage_levels {α : Type} {a : α} : LevelBytes true [some a, none] [2, 0, 0, 0, 3, 1] :=
  .optional _ [3, 1] (.padded 1 [1, 0] [0, 0, 0, 0, 0, 0] [3] (by decide) (by decide) (sample_varint (by decide))) (by decide)

def samplePage (dictionary : Option (List Int32)) : DataPage .int32 true dictionary [some 7, none] sampleChunk where
  fs := dataFields 10 2 0
  header := ⟨10, 10, .data ⟨2, .plain, .rle, .rle⟩⟩
  page := ⟨2, .plain, .rle, .rle⟩
  headerBytes := dataHeader 10 2 0
  levelBytes := [2, 0, 0, 0, 3, 1]
  valueBytes := [7, 0, 0, 0]
  wire := dataHeader_wire (by decide) (by decide) (by decide)
  header_eq := by rfl
  isData := rfl
  numValues := by decide
  size := by decide
  levels := samplePage_levels
  values := .plain [7] fun _ _ => trivial
  bytes_eq := rfl

/-- The second entry of the dictionary, and a null. -/
def indexPage : DataPage .int32 true (some [5, 9]) [some 9, none] (dataHeader 9 2 8 ++ ([2, 0, 0, 0, 3, 1] ++ [1, 2, 1])) where
  fs := dataFields 9 2 8
  header := ⟨9, 9, .data ⟨2, .rleDictionary, .rle, .rle⟩⟩
  page := ⟨2, .rleDictionary, .rle, .rle⟩
  headerBytes := dataHeader 9 2 8
  levelBytes := [2, 0, 0, 0, 3, 1]
  valueBytes := [1, 2, 1]
  wire := dataHeader_wire (by decide) (by decide) (by decide)
  header_eq := by rfl
  isData := rfl
  numValues := by decide
  size := by decide
  levels := samplePage_levels
  values := .indices _ (.inr rfl) [5, 9] rfl 1 (by decide) [1] [9] [2, 1] (by decide)
    (.rle 1 1 [2] (by decide) (sample_varint (by decide)) .nil)
  bytes_eq := rfl

def dictionaryFields : List (Int16 × Value) :=
  [(1, .i32 2), (2, .i32 8), (3, .i32 8), (7, .struct [(1, .i32 2), (2, .i32 0)])]

def dictionaryHeader : Bytes := [0x15, 4, 0x15, 16, 0x15, 16, 0x4c, 0x15, 4, 0x15, 0, 0, 0]

theorem dictionaryHeader_wire : Wire (.fields 0 dictionaryFields) dictionaryHeader := by
  have hinner : Wire (.fields 0 [(1, .i32 2), (2, .i32 0)]) [0x15, 4, 0x15, 0, 0] :=
    sample_field 0 1 2 (by decide) (by decide) (by decide) <|
      sample_field 1 1 0 (by decide) (by decide) (by decide) <| .stop 2
  exact sample_field 0 1 2 (by decide) (by decide) (by decide) <|
    sample_field 1 1 8 (by decide) (by decide) (by decide) <|
      sample_field 2 1 8 (by decide) (by decide) (by decide) <|
        .field 3 4 12 _ [] _ [0] (by decide) (by decide) (by decide) (.struct _ _ hinner) (.stop 7)

/-- A dictionary, a page of indices and a PLAIN page. -/
def mixedChunk : Bytes :=
  dictionaryHeader ++ (ColumnType.plainBytes .int32 [5, 9] ++
    ((dataHeader 9 2 8 ++ ([2, 0, 0, 0, 3, 1] ++ [1, 2, 1])) ++ (sampleChunk ++ [])))

def mixedMeta : ColumnMetaData := { sampleMeta with totalCompressedSize := 74, dictionaryPageOffset := some 0 }

def mixedReader : RowGroupReader where
  metadata := ⟨1, [sampleElement .required, sampleElement .optional], 4, [], none⟩
  data := mixedChunk
  rowGroup := ⟨[⟨0, some mixedMeta⟩], 74, 4⟩

theorem sample_column_read :
    RowGroupReader.read sampleHost .int32 mixedReader 0 = .ok [some 9, none, some 7, none] := by
  have hchunk : Chunk .int32 true ([some 9, none] ++ ([some 7, none] ++ [])) mixedChunk :=
    .dictionary dictionaryFields ⟨8, 8, .dictionary ⟨2, .plain⟩⟩ ⟨2, .plain⟩ [5, 9] dictionaryHeader_wire rfl rfl (by decide)
      (by decide) (fun _ _ => trivial) (.cons indexPage (.cons (samplePage _) .nil))
  exact read_column_returns sampleHost .int32 mixedReader 0 true mixedMeta (sampleElement .optional) _ mixedChunk rfl
    rfl (by decide +kernel) rfl rfl nofun hchunk

end DbStorage.Parquet
