import DbStorage.Schema.DdlReader

/-!
# The integrity check (`integrity.rs`)

`run_integrity_check` walks every table and index and the freelist. A problem
is kept as what it reports on; the source puts it into words.

The check of an index compares the number of its entries with the number of
the table's rows, and looks the rowid of each entry up among them. Result:
`ok_represents_iff`, that on a database that passes, an index represents
every row if and only if no two of its entries have the same rowid.
-/
namespace DbStorage.Integrity
open Bytes Record Btree Btree.Index Pager PageWalk Schema List

/-- The fields that the check reads. -/
structure Header extends DatabaseHeader where
  textEncoding : TextEncoding
  largestRootBtreePage : UInt32
  freelistTrunkPage : UInt32
  freelistPageCount : UInt32
  pageCount : UInt32

inductive Problem where
  | autoVacuum
  | master (e : DdlError)
  | table (name : List Char) (e : BtreeError)
  | rowidOutOfOrder (name : List Char) (rowid prev : Int64)
  | duplicateRowid (name : List Char) (rowid : Int64)
  | index (name : List Char) (e : BtreeError)
  | malformedEntry (name : List Char) (e : RecordError)
  | noTrailingRowid (name : List Char)
  | rowidNotInTable (name : List Char) (rowid : Int64) (table : List Char)
  | keysOutOfOrder (name : List Char)
  | wrongNumberOfEntries (name : List Char) (expected found : Nat)
  | countWithoutTrunk (count : UInt32)
  | trunkChainTooLong
  | trunkOutOfRange (trunk : UInt32)
  | trunkUnread (trunk : UInt32) (e : PagerError)
  | trunkUnparsed (trunk : UInt32) (e : FreelistError)
  | leafOutOfRange (leaf : UInt32)
  | wrongFreelistCount (count : UInt32) (total : Nat)
  deriving DecidableEq

inductive Report where
  | ok
  | problems (ps : List Problem)
  deriving DecidableEq

section
variable (source : PageSource) (header : Header)

/-! ## Tables -/

/-- The problems of the rows behind the one with rowid `prev`, where `rowids`
have been seen.
mirrors integrity.rs:102-128 -/
def rowProblems (name : List Char) : List Int64 → Option Int64 → List Int64 → List Problem
  | [], _, _ => []
  | rowid :: rest, prev, rowids =>
    (match prev with
      | some p => if rowid ≤ p then [.rowidOutOfOrder name rowid p] else []
      | none => []) ++
    ((if rowid ∈ rowids then [.duplicateRowid name rowid] else []) ++
      rowProblems name rest (some rowid) (rowid :: rowids))

/-- The table's rowids without repetition, and its problems.
mirrors integrity.rs:83-130 -/
def checkTable (table : TableSchema) : List Int64 × List Problem :=
  let scan := collect (TableCursor.next source) (fun rowid _ => rowid) (.traversalTooLong maxPagesVisited) maxRows
    ((TableCursor.new header.toDatabaseHeader table.rootPage).first source)
  (scan.1.dedup, rowProblems table.name scan.1 none [] ++ scan.2.toList.map (.table table.name))

/-! ## Indexes -/

/-- Unlike `compare_values` of the index, values of different kinds are equal
here unless one is `NULL`.
mirrors integrity.rs:238-256 -/
def compareValues (a b : Value) : Ordering :=
  match a, b with
  | .null, .null => .eq
  | .null, _ => .lt
  | _, .null => .gt
  | .integer x, .integer y => compare x.toInt y.toInt
  | .real x, .real y => partialCmp (realUnits x) (realUnits y)
  | .integer x, .real y => partialCmp (some (integerUnits x)) (realUnits y)
  | .real x, .integer y => partialCmp (realUnits x) (some (integerUnits y))
  | .text x, .text y => compare (encodeUtf8 x) (encodeUtf8 y)
  | .blob x, .blob y => compare x y
  | _, _ => .eq

/-- mirrors integrity.rs:228-236 -/
def compareIndexKeys : List Value → List Value → Ordering
  | x :: xs, y :: ys =>
    match compareValues x y with
    | .eq => compareIndexKeys xs ys
    | c => c
  | xs, ys => compare xs.length ys.length

/-- The problems of the entries behind the one with key `prevKey`, and the
number of entries seen.
mirrors integrity.rs:157-197 -/
def entryProblems (index : IndexSchema) (table : TableSchema) (rowids : List Int64) :
    List Bytes → Option (List Value) → Nat → List Problem × Nat
  | [], _, seen => ([], seen)
  | entry :: rest, prevKey, seen =>
    match decodeRecord entry header.textEncoding with
    | .error e =>
      let r := entryProblems index table rowids rest prevKey seen
      (.malformedEntry index.name e :: r.1, r.2)
    | .ok decoded =>
      match decoded.getLast? with
      | some (.integer rowid) =>
        let key := decoded.dropLast
        let dangling := if rowid ∈ rowids then [] else [Problem.rowidNotInTable index.name rowid table.name]
        let order := match prevKey with
          | some p => if compareIndexKeys p key = .gt then [Problem.keysOutOfOrder index.name] else []
          | none => []
        let r := entryProblems index table rowids rest (some key) (seen + 1)
        (dangling ++ (order ++ r.1), r.2)
      | _ =>
        let r := entryProblems index table rowids rest prevKey seen
        (.noTrailingRowid index.name :: r.1, r.2)

/-- The entries of an index, and the error that ended the reading. -/
def scanIndex (index : IndexSchema) : List Bytes × Option BtreeError :=
  collect (IndexCursor.next source) (fun row _ => row) (.traversalTooLong maxPagesVisited) maxRows
    ((IndexCursor.new header.usablePageSize index.rootPage).first source)

/-- An error at the first entry ends the check at once; a later one is
reported and the number of entries is compared all the same.
mirrors integrity.rs:136-205 -/
def checkIndex (table : TableSchema) (rowids : List Int64) (index : IndexSchema) : List Problem :=
  let scan := scanIndex source header index
  match scan with
  | ([], some e) => [.index index.name e]
  | (entries, err) =>
    let r := entryProblems header index table rowids entries none 0
    r.1 ++ (err.toList.map (.index index.name) ++
      if r.2 ≠ rowids.length then [.wrongNumberOfEntries index.name rowids.length r.2] else [])

/-! ## The freelist -/

/-- `u32::saturating_add` -/
def saturatingAdd32 (a b : Nat) : Nat := min (a + b) (2 ^ 32 - 1)

/-- The trunk pages from one on: the problems, the trunks seen and the number
of leaves.
mirrors integrity.rs:277-312 -/
def trunksFrom : Nat → UInt32 → (hops : Nat) → List UInt32 → Nat → List Problem × List UInt32 × Nat
  | 0, _, _, seen, leaves => ([], seen, leaves)
  | fuel + 1, trunk, hops, seen, leaves =>
    if trunk = 0 then ([], seen, leaves)
    else
      let hops := saturatingAdd32 hops 1
      if saturatingAdd32 header.pageCount.toNat 1 < hops then ([.trunkChainTooLong], seen, leaves)
      else if header.pageCount < trunk ∨ trunk ∈ seen then ([.trunkOutOfRange trunk], seen, leaves)
      else
        let seen := trunk :: seen
        match source trunk with
        | .error e => ([.trunkUnread trunk e], seen, leaves)
        | .ok buf =>
          match TrunkPage.parse buf with
          | .error e => ([.trunkUnparsed trunk e], seen, leaves)
          | .ok page =>
            let bad := (page.leaves.filter fun leaf => leaf = 0 ∨ header.pageCount < leaf).map Problem.leafOutOfRange
            let r := trunksFrom fuel page.nextTrunk hops seen (saturatingAdd32 leaves page.leaves.length)
            (bad ++ r.1, r.2)

/-- No trunk page is visited twice, so there are at most as many turns as
page numbers.
mirrors integrity.rs:262-320 -/
def checkFreelist : List Problem :=
  if header.freelistTrunkPage = 0 then
    if header.freelistPageCount ≠ 0 then [.countWithoutTrunk header.freelistPageCount] else []
  else
    let (problems, seen, leaves) := trunksFrom source header (2 ^ 32 + 1) header.freelistTrunkPage 0 [] 0
    let total := saturatingAdd32 leaves seen.length
    problems ++ if total ≠ header.freelistPageCount.toNat then [.wrongFreelistCount header.freelistPageCount total] else []

/-! ## The whole check -/

/-- mirrors integrity.rs:59-69 -/
def checkSchema (quick : Bool) (table : TableSchema) : List Problem :=
  if table.isVirtual then []
  else
    let (rowids, problems) := checkTable source header table
    problems ++ if quick then [] else table.indexes.flatMap (checkIndex source header table rowids)

/-- mirrors integrity.rs:37-78 -/
def runIntegrityCheck (quick : Bool) : Report :=
  let auto := if header.largestRootBtreePage ≠ 0 then [Problem.autoVacuum] else []
  match readSchema source (TableCursor.new header.toDatabaseHeader 1) header.textEncoding with
  | .error e => .problems (auto ++ [.master e])
  | .ok schemas =>
    let problems := auto ++ (schemas.flatMap (checkSchema source header quick) ++ checkFreelist source header)
    if problems = [] then .ok else .problems problems

end

/-! ## Rows and entries -/

theorem rowProblems_nil {name : List Char} {rows : List Int64} {prev : Option Int64} {seen : List Int64}
    (h : rowProblems name rows prev seen = []) : rows.Nodup ∧ ∀ r ∈ rows, r ∉ seen := by
  induction rows generalizing prev seen with
  | nil => exact ⟨nodup_nil, by simp⟩
  | cons rowid rest ih =>
    simp only [rowProblems] at h
    have h₂ := (append_eq_nil_iff.1 h).2
    obtain ⟨hdup, hrest⟩ := append_eq_nil_iff.1 h₂
    obtain ⟨hnodup, hnew⟩ := ih hrest
    have hfresh : rowid ∉ seen := fun hmem => by simp [hmem] at hdup
    refine ⟨nodup_cons.2 ⟨fun hmem => hnew rowid hmem mem_cons_self, hnodup⟩, fun r hr => ?_⟩
    rcases mem_cons.1 hr with rfl | hr
    · exact hfresh
    · exact fun hmem => hnew r hr (mem_cons_of_mem _ hmem)

/-- The rowid at the end of an entry. -/
def trailingRowid (encoding : TextEncoding) (entry : Bytes) : Option Int64 :=
  match decodeRecord entry encoding with
  | .ok decoded =>
    match decoded.getLast? with
    | some (.integer rowid) => some rowid
    | _ => none
  | .error _ => none

variable {index : IndexSchema} {table : TableSchema} {rowids : List Int64}

/-- Entries without a problem end in rowids of the table, and all are counted. -/
theorem entryProblems_nil {header : Header} {entries : List Bytes} {prevKey : Option (List Value)} {seen : Nat}
    (h : (entryProblems header index table rowids entries prevKey seen).1 = []) :
    (∀ e ∈ entries, ∃ r ∈ rowids, trailingRowid header.textEncoding e = some r) ∧
      (entryProblems header index table rowids entries prevKey seen).2 = seen + entries.length := by
  induction entries generalizing prevKey seen with
  | nil => exact ⟨by simp, rfl⟩
  | cons entry rest ih =>
    unfold entryProblems at h ⊢
    cases hd : decodeRecord entry header.textEncoding with
    | error e => simp [hd] at h
    | ok decoded =>
      simp only [hd] at h ⊢
      split at h
      · rename_i rowid hlast
        obtain ⟨hin, hrest⟩ := append_eq_nil_iff.1 h
        obtain ⟨hall, hcount⟩ := ih (append_eq_nil_iff.1 hrest).2
        have hmem : rowid ∈ rowids := by
          by_contra hnot
          simp [hnot] at hin
        refine ⟨fun e he => ?_, by rw [hcount, length_cons]; omega⟩
        rcases mem_cons.1 he with rfl | he
        · exact ⟨rowid, hmem, by simp [trailingRowid, hd, hlast]⟩
        · exact hall e he
      · simp at h

/-! ## What passing says -/

section
variable {source : PageSource} {header : Header}

theorem checkTable_nil (h : (checkTable source header table).2 = []) :
    (checkTable source header table).1.Nodup ∧
      Yields (TableCursor.next source) (fun rowid _ => rowid)
        ((TableCursor.new header.toDatabaseHeader table.rootPage).first source) (checkTable source header table).1 := by
  obtain ⟨hrows, herr⟩ := append_eq_nil_iff.1 h
  have hnodup := (rowProblems_nil hrows).1
  refine ⟨nodup_dedup _, ?_⟩
  rw [checkTable, List.Nodup.dedup hnodup]
  exact collect_yields (Prod.ext rfl (by simpa using herr))

theorem checkIndex_nil (h : checkIndex source header table rowids index = []) :
    ∃ entries, Yields (IndexCursor.next source) (fun row _ => row)
        ((IndexCursor.new header.usablePageSize index.rootPage).first source) entries ∧
      entries.length = rowids.length ∧ ∀ e ∈ entries, ∃ r ∈ rowids, trailingRowid header.textEncoding e = some r := by
  unfold checkIndex at h
  generalize hscan : scanIndex source header index = scan at h
  obtain ⟨entries, err⟩ := scan
  have hrest : (entryProblems header index table rowids entries none 0).1 = [] ∧ err = none ∧
      (entryProblems header index table rowids entries none 0).2 = rowids.length := by
    dsimp only at h
    split at h
    · cases h
    · rename_i _ heq
      cases heq
      obtain ⟨h₁, h₂⟩ := append_eq_nil_iff.1 h
      obtain ⟨h₂, h₃⟩ := append_eq_nil_iff.1 h₂
      exact ⟨h₁, by simpa using h₂, by simpa using h₃⟩
  obtain ⟨hprob, rfl, hcount⟩ := hrest
  obtain ⟨hall, hlen⟩ := entryProblems_nil hprob
  refine ⟨entries, ?_, by omega, hall⟩
  exact collect_yields hscan

/-- Each table and index of a database that passes has passed. -/
theorem runIntegrityCheck_ok {schemas : List TableSchema} (h : runIntegrityCheck source header false = .ok)
    (hs : readSchema source (TableCursor.new header.toDatabaseHeader 1) header.textEncoding = .ok schemas)
    (ht : table ∈ schemas) (hv : table.isVirtual = false) :
    (checkTable source header table).2 = [] ∧
      ∀ index ∈ table.indexes, checkIndex source header table (checkTable source header table).1 index = [] := by
  simp only [runIntegrityCheck, hs] at h
  generalize (if header.largestRootBtreePage ≠ 0 then [Problem.autoVacuum] else []) = auto at h
  split at h
  · rename_i hnil
    have hall := (append_eq_nil_iff.1 (append_eq_nil_iff.1 hnil).2).1
    have htable : checkSchema source header false table = [] := flatMap_eq_nil_iff.1 hall table ht
    simp only [checkSchema, hv, Bool.false_eq_true, if_false] at htable
    obtain ⟨h₁, h₂⟩ := append_eq_nil_iff.1 htable
    exact ⟨h₁, fun index hi => flatMap_eq_nil_iff.1 h₂ index hi⟩
  · cases h

end

/-- As many values as a list without repetition has, all from it: they are
all of it if and only if none is repeated. -/
theorem covers_iff_nodup {α : Type} [DecidableEq α] {rows values : List α} (hrows : rows.Nodup)
    (hlen : values.length = rows.length) (hsub : ∀ v ∈ values, v ∈ rows) : (∀ r ∈ rows, r ∈ values) ↔ values.Nodup := by
  constructor
  · intro hcover
    have hperm : rows.Perm values := (subperm_of_subset hrows hcover).perm_of_length_le hlen.le
    exact hperm.nodup_iff.1 hrows
  · intro hnodup
    have hperm : values.Perm rows := (subperm_of_subset hnodup hsub).perm_of_length_le hlen.ge
    exact fun r hr => hperm.mem_iff.2 hr

/-- On a database that passes the check, an index represents every row of its
table if and only if no two of its entries have the same rowid. -/
theorem ok_represents_iff (source : PageSource) (header : Header)
    (h : runIntegrityCheck source header false = .ok) :
    ∃ schemas, readSchema source (TableCursor.new header.toDatabaseHeader 1) header.textEncoding = .ok schemas ∧
      ∀ table ∈ schemas, table.isVirtual = false → ∀ index ∈ table.indexes, ∃ rowids entries,
        Yields (TableCursor.next source) (fun rowid _ => rowid)
          ((TableCursor.new header.toDatabaseHeader table.rootPage).first source) rowids ∧
        Yields (IndexCursor.next source) (fun row _ => row)
          ((IndexCursor.new header.usablePageSize index.rootPage).first source) entries ∧
        ((∀ r ∈ rowids, ∃ e ∈ entries, trailingRowid header.textEncoding e = some r) ↔
          (entries.map (trailingRowid header.textEncoding)).Nodup) := by
  obtain ⟨schemas, hs⟩ : ∃ schemas, readSchema source (TableCursor.new header.toDatabaseHeader 1) header.textEncoding =
      .ok schemas := by
    cases hs : readSchema source (TableCursor.new header.toDatabaseHeader 1) header.textEncoding with
    | error e => simp [runIntegrityCheck, hs] at h
    | ok schemas => exact ⟨schemas, rfl⟩
  refine ⟨schemas, hs, fun table ht hv index hi => ?_⟩
  obtain ⟨htable, hindex⟩ := runIntegrityCheck_ok h hs ht hv
  obtain ⟨hnodup, hrows⟩ := checkTable_nil htable
  obtain ⟨entries, hentries, hlen, htrail⟩ := checkIndex_nil (hindex index hi)
  refine ⟨_, entries, hrows, hentries, ?_⟩
  have hsub : ∀ v ∈ entries.map (trailingRowid header.textEncoding), v ∈ (checkTable source header table).1.map some := by
    intro v hv
    obtain ⟨e, he, rfl⟩ := mem_map.1 hv
    obtain ⟨r, hr, heq⟩ := htrail e he
    exact heq ▸ mem_map_of_mem hr
  rw [← covers_iff_nodup (hnodup.map (Option.some_injective Int64)) (by simpa using hlen) hsub]
  simp [mem_map]

/-! ## A database of one table and one index -/

def masterRow (values : List Value) (rowid : UInt8) : Bytes :=
  let payload := encodeRecord values .utf8
  UInt8.ofNat payload.length :: rowid :: payload

def tableRow : Bytes :=
  masterRow [.text "table".toList, .text "t".toList, .text "t".toList, .integer 2, .text "CREATE TABLE t(a)".toList] 1

def indexRow : Bytes :=
  masterRow [.text "index".toList, .text "i".toList, .text "t".toList, .integer 3, .text "CREATE INDEX i ON t(a)".toList]
    2

/-- An index entry of five bytes. -/
def indexEntry (key : Int64) (rowid : Int64) : Bytes := encodeRecord [.integer key, .integer rowid] .utf8

/-- The schema on page 1, a table with the rows 1 and 2 on page 2, and an
index with two entries on page 3. -/
def smallDatabase (e₁ e₂ : Bytes) : PageSource
  | 1 => .ok (List.replicate 100 0 ++ ([0x0d, 0, 0, 0, 2, 0, 0, 0] ++ (be16 112 ++ (be16 (112 + tableRow.length) ++
      (tableRow ++ indexRow)))))
  | 2 => .ok [0x0d, 0, 0, 0, 2, 0, 0, 0, 0, 12, 0, 14, 0, 1, 0, 2]
  | 3 => .ok ([0x0a, 0, 0, 0, 2, 0, 0, 0, 0, 12] ++ (be16 (13 + e₁.length) ++ (UInt8.ofNat e₁.length :: e₁ ++
      UInt8.ofNat e₂.length :: e₂)))
  | _ => .error .pendingTransaction

def smallHeader : Header where
  pageSize := 512
  reservedSpace := 0
  textEncoding := .utf8
  largestRootBtreePage := 0
  freelistTrunkPage := 0
  freelistPageCount := 0
  pageCount := 3

def smallSchema : List TableSchema := [⟨"t".toList, 2, false, [⟨"i".toList, 3⟩]⟩]

/-- One entry for each row. -/
def evenDatabase : PageSource := smallDatabase (indexEntry 5 1) (indexEntry 6 2)

theorem small_represents : runIntegrityCheck evenDatabase smallHeader false = .ok ∧ ∃ rowids entries,
    Yields (TableCursor.next evenDatabase) (fun rowid _ => rowid)
      ((TableCursor.new smallHeader.toDatabaseHeader 2).first evenDatabase) rowids ∧
    Yields (IndexCursor.next evenDatabase) (fun row _ => row) ((IndexCursor.new 512 3).first evenDatabase) entries ∧
    ((∀ r ∈ rowids, ∃ e ∈ entries, trailingRowid .utf8 e = some r) ↔ (entries.map (trailingRowid .utf8)).Nodup) := by
  have hok : runIntegrityCheck evenDatabase smallHeader false = .ok := by decide +kernel
  have hschema : readSchema evenDatabase (TableCursor.new smallHeader.toDatabaseHeader 1) smallHeader.textEncoding =
      .ok smallSchema := by decide +kernel
  obtain ⟨schemas, hs, hall⟩ := ok_represents_iff _ _ hok
  obtain rfl : smallSchema = schemas := Except.ok.inj (hschema.symm.trans hs)
  exact ⟨hok, hall _ mem_cons_self rfl _ mem_cons_self⟩

/-- Both entries of the index belong to row 1. -/
def unevenDatabase : PageSource := smallDatabase (indexEntry 5 1) (indexEntry 6 1)

theorem unevenDatabase_rows :
    collect (TableCursor.next unevenDatabase) (fun rowid _ => rowid) (.traversalTooLong maxPagesVisited) 3
      ((TableCursor.new smallHeader.toDatabaseHeader 2).first unevenDatabase) = ([1, 2], none) := by decide +kernel

theorem unevenDatabase_entries :
    collect (IndexCursor.next unevenDatabase) (fun row _ => row) (.traversalTooLong maxPagesVisited) 3
      ((IndexCursor.new 512 3).first unevenDatabase) = ([indexEntry 5 1, indexEntry 6 1], none) := by decide +kernel

/-- The check passes although the index has no entry for row 2. -/
theorem unrepresented_row_passes :
    runIntegrityCheck unevenDatabase smallHeader false = .ok ∧
    readSchema unevenDatabase (TableCursor.new smallHeader.toDatabaseHeader 1) .utf8 = .ok smallSchema ∧
    Yields (TableCursor.next unevenDatabase) (fun rowid _ => rowid)
      ((TableCursor.new smallHeader.toDatabaseHeader 2).first unevenDatabase) [1, 2] ∧
    Yields (IndexCursor.next unevenDatabase) (fun row _ => row) ((IndexCursor.new 512 3).first unevenDatabase)
      [indexEntry 5 1, indexEntry 6 1] ∧
    ∀ e ∈ [indexEntry 5 1, indexEntry 6 1], trailingRowid .utf8 e ≠ some 2 :=
  ⟨by decide +kernel, by decide +kernel, collect_yields unevenDatabase_rows, collect_yields unevenDatabase_entries,
    by decide +kernel⟩

end DbStorage.Integrity
