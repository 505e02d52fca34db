import DbStorage.Parquet.DictionaryIndices
import DbStorage.Parquet.NestedBounds
import DbStorage.Parquet.SchemaTree

/-!
# Flat columns through the nested reader (`parquet_file.rs` and `reader.rs` in `src/column/parquet`)

`read_nested_column` reads the columns of all leaves, with levels from the
schema tree, and takes one field of the reconstructed row group. For a flat
schema this is another way to a column than `read_*_column`: another loop
over the pages, and booleans taken off the front of the bytes.

Result: `nested_column_is_flat` (what it returns for a flat file is what the
reader of the type returns).
-/
namespace DbStorage.Parquet
open Bytes List
open PageWalk (bind_eq_ok_iff mapError_eq_ok_iff)

inductive NestedFileError where
  | file (e : FileError)
  | nested (e : NestedError)
  | unsupportedNestedDictionary
  | unsupportedNestedEncoding (e : Encoding)
  | unsupportedNestedPhysicalType (t : PhysicalType)

/-! ## The reader -/

/-- mirrors reader.rs:78-101 -/
def splitRepDefLevels (body : Bytes) (h : DataPageHeader) (maxRep maxDef : Nat) : Read (List Nat × List Nat × Bytes) := do
  let (rep, buf) ← if maxRep = 0 then .ok ([], body) else readLevelSection body maxRep (asUsize h.numValues)
  let (defs, buf) ← splitDefinitionLevels buf h maxDef
  pure (rep, defs, buf)

/-- mirrors reader.rs:118-141 -/
def readPlainScalar (t : PhysicalType) (buf : Bytes) (bitPos : Nat) : Except NestedFileError (LeafScalar × Bytes × Nat) :=
  let lift {α : Type} (make : α → LeafScalar) (r : Read (α × Bytes)) : Except NestedFileError (LeafScalar × Bytes × Nat) :=
    (r.map fun (a, rest) => (make a, rest, bitPos)).mapError (.file ∘ .read)
  match t with
  | .int32 => lift .int32 (readPlainI32 buf)
  | .int64 => lift .int64 (readPlainI64 buf)
  | .float => lift .float ((take 4 buf).map fun (b, rest) => (UInt32.ofNat (leNat b), rest))
  | .double => lift .double (readPlainF64 buf)
  | .byteArray => lift .str (readPlainString buf)
  | .boolean =>
    match buf with
    | [] => .error (.file (.read .unexpectedEof))
    | byte :: rest =>
      let bit := (byte.toNat >>> (bitPos % 8)) &&& 1
      .ok (.bool (decide (bit = 1)), if (bitPos + 1) % 8 = 0 then rest else byte :: rest, bitPos + 1)
  | other => .error (.unsupportedNestedPhysicalType other)

/-- The values of a page from `i` on.
mirrors parquet_file.rs:509-522 -/
def leafValues (t : PhysicalType) (maxDef : Nat) (levels : List Nat) :
    Nat → Nat → Bytes → Nat → Except NestedFileError (List (Option LeafScalar))
  | 0, _, _, _ => .ok []
  | n + 1, i, buf, bitPos =>
    if (levels[i]?).getD maxDef = maxDef then do
      let (s, buf, bitPos) ← readPlainScalar t buf bitPos
      let more ← leafValues t maxDef levels n (i + 1) buf bitPos
      pure (some s :: more)
    else do
      let more ← leafValues t maxDef levels n (i + 1) buf bitPos
      pure (none :: more)

/-- mirrors parquet_file.rs:500-533 -/
def leafPage (t : PhysicalType) (maxRep maxDef : Nat) (body : Bytes) (h : DataPageHeader) :
    Except NestedFileError LeafEntries := do
  let (rep, defs, values) ← (splitRepDefLevels body h maxRep maxDef).mapError (.file ∘ .read)
  let n := asUsize h.numValues
  let vs ← leafValues t maxDef defs n 0 values 0
  -- no vector holds that many values, levels or not
  if 2 ^ 63 ≤ n then throw (.file (.read .panicked))
  pure ⟨if rep.isEmpty then List.replicate n 0 else rep, if defs.isEmpty then List.replicate n maxDef else defs, vs⟩

/-- The loop over the pages: `buf` is what follows `pos`.
mirrors parquet_file.rs:479-537 -/
def readLeafPages (H : Host) (t : PhysicalType) (codec : Codec) (maxRep maxDef : Nat) :
    Nat → Bytes → Except NestedFileError LeafEntries
  | _, [] => .ok ⟨[], [], []⟩
  | 0, _ :: _ => .error (.file .outOfFuel)
  | f + 1, b :: buf => do
    let (header, rest) ← (decodePageHeader H.layout (b :: buf)).mapError (.file ∘ .page)
    let size := asUsize header.compressedPageSize
    if rest.length < size then throw (.file .chunkOutOfBounds)
    match header.pageType with
    | .dictionary _ => throw .unsupportedNestedDictionary
    | .data h =>
      if h.encoding ≠ .plain then throw (.unsupportedNestedEncoding h.encoding)
      else do
        let body ← (H.decompress codec (rest.take size) (asUsize header.uncompressedPageSize)).mapError .file
        let page ← leafPage t maxRep maxDef body h
        let more ← readLeafPages H t codec maxRep maxDef f (rest.drop size)
        pure ⟨page.repLevels ++ more.repLevels, page.defLevels ++ more.defLevels, page.values ++ more.values⟩

def SchemaNode.maxRepLevel : SchemaNode → Nat
  | .mk _ _ _ _ r => r

/-- mirrors parquet_file.rs:468-538 -/
def RowGroupReader.readLeafEntries (H : Host) (g : RowGroupReader) (i : Nat) (leaf : SchemaNode) :
    Except NestedFileError LeafEntries := do
  let m ← (g.columnMeta i).mapError .file
  let chunk ← (g.columnChunkBytes i).mapError .file
  match leaf.element.physicalType with
  | none => throw (.file .missingColumnMetadata)
  | some t => readLeafPages H t m.codec leaf.maxRepLevel leaf.maxDefLevel (chunk.length + 1) chunk

/-- The loop over the leaves; `i` is the index of the next column. -/
def readLeaves (H : Host) (g : RowGroupReader) :
    List (SchemaNode × List Char) → Nat → LeafData → Except NestedFileError LeafData
  | [], _, data => .ok data
  | (leaf, path) :: ls, i, data => do
    let entries ← g.readLeafEntries H i leaf
    readLeaves H g ls (i + 1) fun p => if p = path then some entries else data p

/-- mirrors parquet_file.rs:170-203 -/
def readNestedColumn (H : Host) (file : ParquetFile) (data : Bytes) (k : Nat) (field : List Char) :
    Except NestedFileError (List NestedValue) :=
  match file.metadata.rowGroups[k]? with
  | none => .error (.file (.columnIndexOutOfRange k))
  | some rg =>
    if !(file.schemaTree.children.any fun c => decide (c.name = field)) then .error (.file (.columnIndexOutOfRange k))
    else do
      let leaves ← readLeaves H ⟨file.metadata, data, rg⟩ (file.schemaTree.leaves.zip file.schemaTree.leafPaths) 0 fun _ => none
      let columns ← (reconstructRowGroup file.schemaTree (RowGroupReader.asOffset rg.numRows) leaves).mapError .nested
      match columns.find? fun c => decide (c.1 = field) with
      | none => .error (.file (.columnIndexOutOfRange k))
      | some column => .ok column.2

/-! ## One page -/

/-- The types with a reader on both sides. -/
inductive ScalarOf : (t : ColumnType) → PhysicalType → (t.Val → LeafScalar) → Prop
  | int32 : ScalarOf .int32 .int32 .int32
  | int64 : ScalarOf .int64 .int64 .int64
  | boolean : ScalarOf .boolean .boolean .bool
  | byteArray : ScalarOf .string .byteArray .str

/-- Where the two readers of a page's values are: at the same bytes, or for
booleans at the same bit. -/
def SamePlace (values : Bytes) : (t : ColumnType) → t.Cursor → Bytes → Nat → Prop
  | .boolean, s, buf, bitPos => (s : Nat) = bitPos ∧ buf = values.drop (bitPos / 8)
  | .int64, s, buf, _ => s = buf
  | .double, s, buf, _ => s = buf
  | .int32, s, buf, _ => s = buf
  | .string, s, buf, _ => s = buf
  | .fixedLenByteArray _, s, buf, _ => s = buf

theorem unpackRun_length {data : Bytes} {w bitPos n : Nat} {vs : List Nat} (h : unpackRun data w bitPos n = some vs) :
    vs.length = n := by
  induction n generalizing bitPos vs with
  | zero =>
    cases h
    rfl
  | succ n ih =>
    obtain ⟨value, -, h⟩ := Option.bind_eq_some_iff.1 h
    obtain ⟨values, hvalues, h⟩ := Option.bind_eq_some_iff.1 h
    cases h
    rw [length_cons, ih hvalues]

theorem decodeRuns_length {w f n : Nat} {data : Bytes} {vs : List Nat} (h : decodeRuns w f n data = .ok vs) :
    vs.length = n := by
  induction f generalizing n data vs with
  | zero =>
    cases n with
    | zero =>
      cases h
      rfl
    | succ n => cases h
  | succ f ih =>
    cases n with
    | zero =>
      cases h
      rfl
    | succ n =>
      rw [decodeRuns, bind_eq_ok_iff] at h
      obtain ⟨⟨header, rest⟩, -, h⟩ := h
      dsimp only at h
      split at h
      · split at h
        · cases h
        · split at h
          · cases h
          · rename_i values hvalues
            obtain ⟨more, hmore, h⟩ := bind_eq_ok_iff.1 h
            cases h
            rw [length_append, unpackRun_length hvalues, ih hmore]
            omega
      · split at h
        · cases h
        · obtain ⟨more, hmore, h⟩ := bind_eq_ok_iff.1 h
          cases h
          simp only [length_append, length_replicate, ih hmore]
          omega

theorem decodeHybrid_length {w n : Nat} {data : Bytes} {vs : List Nat} (h : decodeHybrid data w n = .ok vs) :
    vs.length = n := by
  unfold decodeHybrid at h
  split at h
  · cases h
  · split at h
    · cases h
      exact length_replicate
    · exact decodeRuns_length h

variable {values buf : Bytes} {h : DataPageHeader} {maxDef i : Nat} {t : ColumnType} {p : PhysicalType}
  {entries : LeafEntries} {H : Host}

theorem splitDefinitionLevels_length {body : Bytes} {levels : List Nat}
    (hs : splitDefinitionLevels body h maxDef = .ok (levels, values)) :
    levels = [] ∨ levels.length = asUsize h.numValues := by
  unfold splitDefinitionLevels at hs
  split at hs
  · cases hs
    exact .inl rfl
  · unfold readLevelSection at hs
    split at hs
    · nomatch hs
    · dsimp only at hs
      split at hs
      · nomatch hs
      · split at hs
        · nomatch hs
        · rename_i hd
          cases hs
          refine .inr ?_
          exact decodeHybrid_length hd

/-- Which slots from `i` on have a value. -/
def slots (levels : List Nat) (maxDef i n : Nat) : List Bool :=
  (List.range' i n).map fun j => decide ((levels[j]?).getD maxDef = maxDef)

theorem presents_eq_slots {levels : List Nat} (maxDef : Nat) (hl : levels = [] ∨ levels.length = asUsize h.numValues) :
    presents h levels maxDef = slots levels maxDef 0 (asUsize h.numValues) := by
  unfold presents slots
  by_cases hnil : levels = []
  · subst hnil
    simp [map_const']
  · have hlen := hl.resolve_left hnil
    rw [if_neg (by simpa using hnil)]
    refine ext_getElem (by simp [nullMask, hlen]) fun j hj _ => ?_
    have hjlt : j < levels.length := by simpa [nullMask] using hj
    simp [nullMask, List.getElem?_eq_getElem hjlt]

variable {make : t.Val → LeafScalar}

/-- One value: where the nested reader finds it, so does the other. -/
theorem ScalarOf.step (hs : ScalarOf t p make) {buf' : Bytes} {s : t.Cursor} {bitPos bitPos' : Nat} {x : LeafScalar}
    (hplace : SamePlace values t s buf bitPos) (h : readPlainScalar p buf bitPos = .ok (x, buf', bitPos')) :
    ∃ a s', t.readPlain values s = .ok (a, s') ∧ x = make a ∧ SamePlace values t s' buf' bitPos' := by
  have hlift : ∀ {α : Type} {make : α → LeafScalar} {r : Read (α × Bytes)},
      (r.map fun (a, rest) => (make a, rest, bitPos)).mapError (NestedFileError.file ∘ .read) = .ok (x, buf', bitPos') →
      ∃ a, r = .ok (a, buf') ∧ x = make a := by
    intro α make r h
    cases r with
    | error e => cases h
    | ok p =>
      cases h
      exact ⟨p.1, rfl, rfl⟩
  cases hs with
  | int32 =>
    cases hplace
    obtain ⟨a, ha, rfl⟩ := hlift h
    exact ⟨a, buf', ha, rfl, rfl⟩
  | int64 =>
    cases hplace
    obtain ⟨a, ha, rfl⟩ := hlift h
    exact ⟨a, buf', ha, rfl, rfl⟩
  | byteArray =>
    cases hplace
    obtain ⟨a, ha, rfl⟩ := hlift h
    exact ⟨a, buf', ha, rfl, rfl⟩
  | boolean =>
    obtain ⟨hsame, rfl⟩ := hplace
    obtain rfl : bitPos = s := hsame.symm
    by_cases hlt : bitPos / 8 < values.length
    · rw [drop_eq_getElem_cons hlt] at h
      cases h
      refine ⟨_, bitPos + 1, if_pos hlt, ?_, rfl, ?_⟩
      · rw [bitAt, getD_eq_getElem _ _ hlt]
      · -- the byte is dropped with its last bit
        by_cases hlast : (bitPos + 1) % 8 = 0
        · rw [if_pos hlast, show (bitPos + 1) / 8 = bitPos / 8 + 1 by omega]
        · rw [if_neg hlast, show (bitPos + 1) / 8 = bitPos / 8 by omega, drop_eq_getElem_cons hlt]
    · rw [drop_eq_nil_of_le (Nat.not_lt.1 hlt)] at h
      cases h

theorem leafValues_assemble (hs : ScalarOf t p make) {s : t.Cursor} {n bitPos : Nat} {levels : List Nat}
    {vs : List (Option LeafScalar)} (hplace : SamePlace values t s buf bitPos)
    (h : leafValues p maxDef levels n i buf bitPos = .ok vs) :
    ∃ col, assemble (t.readPlain values) (slots levels maxDef i n) s = .ok col ∧ vs = col.map (Option.map make) := by
  induction n generalizing i buf bitPos s vs with
  | zero =>
    cases h
    exact ⟨[], rfl, rfl⟩
  | succ n ih =>
    rw [leafValues] at h
    split at h
    · rename_i hdef
      obtain ⟨⟨x, buf', bitPos'⟩, hx, h⟩ := bind_eq_ok_iff.1 h
      obtain ⟨more, hmore, h⟩ := bind_eq_ok_iff.1 h
      cases h
      obtain ⟨a, s', ha, rfl, hplace'⟩ := hs.step hplace hx
      obtain ⟨col, hcol, rfl⟩ := ih hplace' hmore
      refine ⟨some a :: col, ?_, rfl⟩
      rw [slots, List.range'_succ, map_cons, decide_eq_true hdef, assemble, ha]
      exact congrArg (Except.map _) hcol
    · rename_i hdef
      obtain ⟨more, hmore, h⟩ := bind_eq_ok_iff.1 h
      cases h
      obtain ⟨col, hcol, rfl⟩ := ih hplace hmore
      refine ⟨none :: col, ?_, rfl⟩
      rw [slots, List.range'_succ, map_cons, decide_eq_false hdef, assemble]
      exact congrArg (Except.map _) hcol

theorem SamePlace.start (t : ColumnType) (values : Bytes) : SamePlace values t (t.start values) values 0 := by
  cases t <;> first | rfl | exact ⟨rfl, rfl⟩

theorem leafPage_readPlainColumn (hs : ScalarOf t p make) {body : Bytes} (hp : leafPage p 0 maxDef body h = .ok entries) :
    ∃ col, readPlainColumn t body h maxDef = .ok col ∧ entries.values = col.map (Option.map make) := by
  obtain ⟨⟨rep, levels, values⟩, hsplit, hp⟩ := bind_eq_ok_iff.1 hp
  obtain ⟨vs, hvs, hp⟩ := bind_eq_ok_iff.1 hp
  dsimp only at hp
  split at hp
  · cases hp
  rename_i hfits
  cases hp
  rw [mapError_eq_ok_iff, splitRepDefLevels, if_pos rfl] at hsplit
  obtain ⟨-, ⟨⟩, hsplit⟩ := bind_eq_ok_iff.1 hsplit
  obtain ⟨⟨levels', values'⟩, hdefs, hsplit⟩ := bind_eq_ok_iff.1 hsplit
  cases hsplit
  unfold readPlainColumn
  by_cases hn : h.numValues = 0
  · rw [if_pos hn]
    have hzero : asUsize h.numValues = 0 := by rw [hn]; rfl
    rw [hzero] at hvs
    cases hvs
    exact ⟨[], rfl, rfl⟩
  · rw [if_neg hn, hdefs]
    dsimp only
    rw [presents_eq_slots maxDef (splitDefinitionLevels_length hdefs), withCapacity, if_neg hfits]
    exact leafValues_assemble hs (.start t values) hvs

/-! ## One column -/

theorem readLeafPages_readPages (hs : ScalarOf t p make) {codec : Codec} {f : Nat}
    (h : readLeafPages H p codec 0 maxDef f buf = .ok entries) :
    ∃ col, readPages H t codec maxDef f buf none = .ok col ∧ entries.values = col.map (Option.map make) := by
  induction f generalizing buf entries with
  | zero =>
    cases buf with
    | nil =>
      cases h
      exact ⟨[], rfl, rfl⟩
    | cons b buf => nomatch h
  | succ f ih =>
    cases buf with
    | nil =>
      cases h
      exact ⟨[], rfl, rfl⟩
    | cons b buf =>
      rw [readLeafPages, bind_eq_ok_iff] at h
      obtain ⟨⟨header, rest⟩, hdec, h⟩ := h
      dsimp only at h
      split at h
      · nomatch h
      · rename_i hsize
        split at h
        · nomatch h
        · rename_i d ht
          split at h
          · nomatch h
          · rename_i henc
            obtain ⟨body, hbody, h⟩ := bind_eq_ok_iff.1 h
            obtain ⟨page, hpage, h⟩ := bind_eq_ok_iff.1 h
            obtain ⟨more, hmore, h⟩ := bind_eq_ok_iff.1 h
            cases h
            have hat : PageAt H codec (b :: buf) header body (rest.drop (asUsize header.compressedPageSize)) :=
              ⟨rest, mapError_eq_ok_iff.1 hdec, hsize, mapError_eq_ok_iff.1 hbody, rfl⟩
            obtain ⟨col, hcol, hvals⟩ := leafPage_readPlainColumn hs hpage
            obtain ⟨cols, hcols, hmorevals⟩ := ih hmore
            refine ⟨col ++ cols, ?_, by rw [hvals, hmorevals, map_append]⟩
            rw [hat.readPages_data ht, readDataPage_plain t maxDef body none (Decidable.not_not.1 henc), hcol, hcols]
            rfl

/-- The node of a leaf below the root. -/
def leafNode (e : SchemaElement) : SchemaNode := .mk e.name e [] (levels 0 0 false e).1 (levels 0 0 false e).2

theorem readLeafEntries_read {g : RowGroupReader} {e : SchemaElement} (hs : ScalarOf t p make)
    (hp : e.physicalType = some p) (he : g.metadata.schema[i + 1]? = some e)
    (hrep : e.repetition = some .required ∨ e.repetition = some .optional)
    (h : g.readLeafEntries H i (leafNode e) = .ok entries) :
    ∃ col, RowGroupReader.read H t g i = .ok col ∧ entries.values = col.map (Option.map make) := by
  obtain ⟨m, hm, h⟩ := bind_eq_ok_iff.1 h
  obtain ⟨chunk, hchunk, h⟩ := bind_eq_ok_iff.1 h
  have hlevels : levels 0 0 false e = (g.maxDefinitionLevel i, 0) := by
    rw [levels, RowGroupReader.maxDefinitionLevel, he, Option.bind_some]
    obtain hr | hr := hrep
    · simp [hr]
    · simp [hr]
  simp only [leafNode, SchemaNode.element, hp, SchemaNode.maxRepLevel, SchemaNode.maxDefLevel, hlevels] at h
  obtain ⟨col, hcol, hvals⟩ := readLeafPages_readPages hs h
  refine ⟨col, ?_, hvals⟩
  have hread : RowGroupReader.read H t g i = g.readColumn H t i := by cases hs <;> rfl
  rw [hread, RowGroupReader.readColumn, mapError_eq_ok_iff.1 hm, mapError_eq_ok_iff.1 hchunk]
  exact hcol

/-! ## All columns -/

theorem readLeaves_ok {g : RowGroupReader} {ls : List (SchemaNode × List Char)} {data data' : LeafData}
    (hnd : (ls.map Prod.snd).Nodup) (h : readLeaves H g ls i data = .ok data') :
    (∀ path, path ∉ ls.map Prod.snd → data' path = data path) ∧
      ∀ j leaf path, ls[j]? = some (leaf, path) → ∃ entries, g.readLeafEntries H (i + j) leaf = .ok entries ∧
        data' path = some entries := by
  induction ls generalizing i data with
  | nil =>
    cases h
    exact ⟨fun _ _ => rfl, fun j leaf path hj => by simp at hj⟩
  | cons l ls ih =>
    obtain ⟨leaf, path⟩ := l
    rw [map_cons, nodup_cons] at hnd
    obtain ⟨entries, hentries, h⟩ := bind_eq_ok_iff.1 h
    obtain ⟨hold, hnew⟩ := ih hnd.2 h
    refine ⟨fun q hq => ?_, fun j leaf' path' hj => ?_⟩
    · rw [map_cons, mem_cons, not_or] at hq
      rw [hold q hq.2, if_neg hq.1]
    · cases j with
      | zero =>
        cases hj
        exact ⟨entries, hentries, by rw [hold _ hnd.1, if_pos rfl]⟩
      | succ j =>
        rw [show i + (j + 1) = i + 1 + j by omega]
        exact hnew j leaf' path' hj

theorem leavesOf_leafNodes (es : List SchemaElement) : SchemaNode.leavesOf (es.map leafNode) = es.map leafNode := by
  induction es with
  | nil => rfl
  | cons e es ih => rw [map_cons, SchemaNode.leavesOf, ih]; rfl

theorem collectPathsOf_leafNodes (es : List SchemaElement) :
    SchemaNode.collectPathsOf id (es.map leafNode) = es.map SchemaElement.name := by
  induction es with
  | nil => rfl
  | cons e es ih => rw [map_cons, SchemaNode.collectPathsOf, ih]; rfl

theorem reconstruct_leafNodes {leaves : LeafData} {n : Nat} {es : List SchemaElement}
    {columns : List (List Char × List NestedValue)}
    (h : ((es.map leafNode).mapM fun field => do
      let vals ← buildField leaves n field field.name
      pure (field.name, vals)) = .ok columns) :
    ∀ c ∈ columns, ∃ entries, leaves c.1 = some entries ∧ c.2 = entries.values.map ofScalar := by
  induction es generalizing columns with
  | nil =>
    cases h
    nofun
  | cons e es ih =>
    rw [map_cons, mapM_cons] at h
    obtain ⟨f, hf, h⟩ := bind_eq_ok_iff.1 h
    obtain ⟨more, hmore, h⟩ := bind_eq_ok_iff.1 h
    obtain ⟨vals, hvals, hf⟩ := bind_eq_ok_iff.1 hf
    cases hf
    cases h
    rw [forall_mem_cons]
    refine ⟨?_, ih hmore⟩
    obtain ⟨entries, hentries, hvals⟩ := bind_eq_ok_iff.1 hvals
    cases hvals
    unfold lookup at hentries
    split at hentries
    · nomatch hentries
    · cases hentries
      exact ⟨_, ‹_›, rfl⟩

/-! ## Flat files -/

/-- No element of a flat list has children, as there are none left. -/
theorem leaves_of_spans {es rest : List SchemaElement} (h : spans es.length es = some rest) :
    ∀ e ∈ es, e.childCount = 0 := by
  induction es with
  | nil => simp
  | cons e es ih =>
    rw [length_cons, spans] at h
    have hlen := spans_length h
    have hzero : e.childCount = 0 := by omega
    rw [hzero, Nat.zero_add] at h
    exact forall_mem_cons.2 ⟨hzero, ih h⟩

def flatTree (root : SchemaElement) (es : List SchemaElement) : SchemaNode := .mk root.name root (es.map leafNode) 0 0

/-- A flat list is the listing of leaves. -/
theorem flat_listing {es : List SchemaElement} (h : ∀ e ∈ es, e.childCount = 0) :
    let cs := es.map (SchemaTree.node · [])
    SchemaTree.listingOf cs = es ∧ SchemaTree.AllCounted cs ∧ SchemaTree.leveledNodes [] cs = es.map leafNode := by
  induction es with
  | nil => exact ⟨rfl, trivial, rfl⟩
  | cons e es ih =>
    obtain ⟨he, hes⟩ := forall_mem_cons.1 h
    obtain ⟨hlist, hcounted, hnodes⟩ := ih hes
    refine ⟨congrArg (e :: ·) hlist, ⟨⟨he, trivial⟩, hcounted⟩, ?_⟩
    have hlevels : (SchemaTree.defLevel [e], SchemaTree.repLevel [e]) = levels 0 0 false e := SchemaTree.levels_path [] e
    rw [map_cons, SchemaTree.leveledNodes, hnodes, map_cons, leafNode, ← hlevels]
    rfl

theorem buildSchemaTree_flat (Z : Layout) {root : SchemaElement} {es : List SchemaElement} {tree : SchemaNode}
    (hcount : es.length = root.childCount) (h : (buildSchemaTree Z (root :: es)).1 = .ok tree) : tree = flatTree root es := by
  have hspans : ∃ rest, spans es.length es = some rest := by
    obtain ⟨_, _, -, hsome, -⟩ | ⟨_, _, hbuild, -⟩ := buildSchemaTree_spec Z (root :: es)
    · rw [spans, ← hcount, Nat.add_zero] at hsome
      exact Option.isSome_iff_exists.1 hsome
    · rw [hbuild] at h
      cases h
  obtain ⟨rest, hrest⟩ := hspans
  have hleaf := leaves_of_spans hrest
  obtain ⟨hlist, hcounted, hnodes⟩ := flat_listing (leaves_of_spans hrest)
  obtain ⟨_, hbuild, -⟩ := SchemaTree.buildSchemaTree_listing Z ⟨by rw [length_map, hcount], hcounted⟩
  rw [SchemaTree.listing, hlist] at hbuild
  rw [hbuild] at h
  cases h
  rw [SchemaTree.tree, hnodes, flatTree]

theorem open_flat {Z : Layout} {bytes : Bytes} {file : ParquetFile}
    (h : (ParquetFile.open Z bytes).result = some (.ok file)) (hflat : file.isFlat = true) :
    file.metadata.schema = [] ∨
      ∃ root es, file.metadata.schema = root :: es ∧ file.schemaTree = flatTree root es := by
  unfold ParquetFile.open at h
  split at h
  · cases h
  · rename_i m _ _
    dsimp only at h
    split at h
    · rename_i tree _ htree
      cases h
      cases hs : m.schema with
      | nil => exact .inl rfl
      | cons root es =>
        rw [hs] at htree
        rw [hs, isFlatSchema, Bool.and_eq_true, decide_eq_true_eq] at hflat
        exact .inr ⟨root, es, rfl, buildSchemaTree_flat Z hflat.1 (by rw [htree])⟩
    · cases h

/-- **The nested reader of a flat column.** For every file that opens with a
flat schema of required and optional leaves with distinct names, and every
field of these types: what `read_nested_column` returns is what the reader of
the type returns, with nulls for the missing values. -/
theorem nested_column_is_flat (H : Host) (bytes : Bytes) (file : ParquetFile)
    (hopen : (ParquetFile.open H.layout bytes).result = some (.ok file)) (hflat : file.isFlat = true)
    (hrep : ∀ e ∈ file.metadata.schema.tail, e.repetition = some .required ∨ e.repetition = some .optional)
    (hnames : (file.metadata.schema.tail.map SchemaElement.name).Nodup) (k i : Nat) (rg : RowGroup)
    (hrg : file.metadata.rowGroups[k]? = some rg) (e : SchemaElement) (he : file.metadata.schema[i + 1]? = some e)
    (t : ColumnType) (p : PhysicalType) (make : t.Val → LeafScalar) (hs : ScalarOf t p make)
    (hp : e.physicalType = some p) (vals : List NestedValue) (h : readNestedColumn H file bytes k e.name = .ok vals) :
    ∃ col, RowGroupReader.read H t ⟨file.metadata, bytes, rg⟩ i = .ok col ∧
      vals = col.map fun v => ofScalar (v.map make) := by
  obtain hnil | ⟨root, es, hschema, htree⟩ := open_flat hopen hflat
  · rw [hnil] at he
    nomatch he
  rw [hschema, tail_cons] at hrep hnames
  have hes : es[i]? = some e := by rwa [hschema, List.getElem?_cons_succ] at he
  have hne : es ≠ [] := by
    rintro rfl
    nomatch hes
  have hleaves : (flatTree root es).leaves = es.map leafNode := by
    rw [flatTree, SchemaNode.leaves, if_neg (by simpa using hne), leavesOf_leafNodes]
  have hpaths : (flatTree root es).leafPaths = es.map SchemaElement.name := collectPathsOf_leafNodes es
  have hsnd : ((es.map leafNode).zip (es.map SchemaElement.name)).map Prod.snd = es.map SchemaElement.name :=
    map_snd_zip (by simp)
  simp only [readNestedColumn, hrg, htree, hleaves, hpaths] at h
  split at h
  · nomatch h
  · obtain ⟨leaves, hread, h⟩ := bind_eq_ok_iff.1 h
    obtain ⟨columns, hcolumns, h⟩ := bind_eq_ok_iff.1 h
    split at h
    · nomatch h
    · rename_i column hfind
      cases h
      obtain ⟨-, hentry⟩ := readLeaves_ok (by rwa [hsnd]) hread
      obtain ⟨entries, hentries, hfound⟩ := hentry i (leafNode e) e.name (by simp [List.getElem?_zip_eq_some, hes])
      rw [Nat.zero_add] at hentries
      have hname : column.1 = e.name := by simpa using List.find?_some hfind
      obtain ⟨entries', hfound', hvals⟩ :=
        reconstruct_leafNodes (mapError_eq_ok_iff.1 hcolumns) column (mem_of_find?_eq_some hfind)
      rw [hname, hfound] at hfound'
      cases hfound'
      obtain ⟨col, hcol, hentry⟩ := readLeafEntries_read hs hp he (hrep e (mem_of_getElem? hes)) hentries
      refine ⟨col, hcol, ?_⟩
      rw [hvals, hentry, map_map]
      rfl

/-- A file with one optional INT32 column, 7 and a null. -/
def flatFile : Bytes :=
  sampleChunk ++ ([0x29, 0x2c, 0x55, 2, 0, 0x15, 2, 0x25, 2, 0x18, 1, 0x61, 0, 0x29, 0x1c, 0x19, 0x1c, 0x3c, 0x15, 2,
    0x66, 0x36, 0x26, 0, 0, 0, 0x26, 4, 0, 0] ++ ([30, 0, 0, 0] ++ magic))

def flatRoot : SchemaElement :=
  { sampleElement .required with physicalType := none, repetition := none, numChildren := some 1 }

def flatGroup : RowGroup := ⟨[⟨0, some { sampleMeta with numValues := 0, totalUncompressedSize := 0 }⟩], 0, 2⟩

def flatMeta : FileMetaData := ⟨0, [flatRoot, { sampleElement .optional with name := ['a'] }], 0, [flatGroup], none⟩

def flatOpened : ParquetFile := ⟨flatMeta, flatTree flatRoot [{ sampleElement .optional with name := ['a'] }], true⟩

def isFlatFile : Option (Except FooterError ParquetFile) → Bool
  | some (.ok file) => file.isFlat && decide (file.metadata = flatMeta)
  | _ => false

theorem flat_file_opens : (ParquetFile.open hostLayout flatFile).result = some (.ok flatOpened) := by
  have hopen : isFlatFile (ParquetFile.open hostLayout flatFile).result = true := by decide +kernel
  unfold isFlatFile at hopen
  split at hopen
  · rename_i file hfile
    rw [Bool.and_eq_true, decide_eq_true_eq] at hopen
    obtain hnil | ⟨root, es, hschema, htree⟩ := open_flat hfile hopen.1
    · rw [hopen.2] at hnil
      exact absurd hnil (cons_ne_nil _ _)
    · obtain ⟨m, tree, flat⟩ := file
      obtain ⟨rfl, rfl⟩ := hopen
      cases hschema
      cases htree
      rw [hfile]
      rfl
  · exact absurd hopen Bool.false_ne_true

theorem flat_file_agrees :
    readNestedColumn sampleHost flatOpened flatFile 0 ['a'] = .ok [.scalar (.int32 7), .null] := by
  have hok : (readNestedColumn sampleHost flatOpened flatFile 0 ['a']).isOk = true := by decide +kernel
  have hread : RowGroupReader.read sampleHost .int32 ⟨flatMeta, flatFile, flatGroup⟩ 0 = .ok [some 7, none] := by
    decide +kernel
  cases hn : readNestedColumn sampleHost flatOpened flatFile 0 ['a'] with
  | error e =>
    rw [hn] at hok
    exact absurd hok Bool.false_ne_true
  | ok vals =>
    obtain ⟨col, hcol, rfl⟩ := nested_column_is_flat sampleHost flatFile flatOpened flat_file_opens rfl (by decide)
      (by decide) 0 0 flatGroup rfl _ rfl .int32 .int32 _ .int32 rfl vals hn
    have hcol' : (.ok col : Except FileError _) = .ok [some 7, none] := hcol.symm.trans hread
    cases hcol'
    rfl

end DbStorage.Parquet
