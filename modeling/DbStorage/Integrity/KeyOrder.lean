import DbStorage.Integrity.Stored

/-!
# Which misordered indexes the integrity check reports

The b-tree's searches rely on the order of `compare_keys`. The check compares
neighbouring keys without their last column and with a comparison of its own,
which takes values of different kinds for equal. The two comparisons agree on
keys whose columns are of one kind, up to the first difference
(`compareIndexKeys_eq`).

Result: `misordered_reported_iff`. A wrong order that `compare_keys` sees
without the rowids, in columns of one kind, is always reported. In an index
that has one entry per row and columns of one kind, no other is.
-/
namespace DbStorage.Integrity
open Bytes Record Btree Btree.Index PageWalk Schema

/-! ## Two comparisons -/

/-- Both comparisons look at such values: numbers, texts, blobs, or one `NULL`. -/
def OneKind (a b : Value) : Prop := valueRank a = valueRank b ∨ a = .null ∨ b = .null

instance (a b : Value) : Decidable (OneKind a b) := by
  unfold OneKind
  infer_instance

/-- The columns are of one kind up to the first that differs for the b-tree. -/
def Alike : List Value → List Value → Prop
  | x :: xs, y :: ys => OneKind x y ∧ (Index.compareValues x y = .eq → Alike xs ys)
  | _, _ => True

theorem compareValues_eq {a b : Value} (h : OneKind a b) : compareValues a b = Index.compareValues a b := by
  cases a <;> cases b <;> first | rfl | simp [OneKind, valueRank] at h

theorem compareIndexKeys_eq {a b : List Value} (h : Alike a b) : compareIndexKeys a b = compareKeys a b := by
  induction a generalizing b with
  | nil => cases b <;> rfl
  | cons x xs ih =>
    cases b with
    | nil => rfl
    | cons y ys =>
      rw [compareIndexKeys, compareKeys, compareValues_eq h.1]
      cases heq : Index.compareValues x y with
      | eq => exact ih (h.2 heq)
      | lt => rfl
      | gt => rfl

/-! ## Neighbours -/

/-- The keys of two neighbouring entries. -/
def Neighbours (encoding : TextEncoding) (rows : List Bytes) (ka kb : List Value) : Prop :=
  ∃ before a b after, rows = before ++ a :: b :: after ∧ decodeRecord a encoding = .ok ka ∧ decodeRecord b encoding = .ok kb

/-- Two neighbouring entries are in the wrong order for the b-tree. -/
def Misordered (encoding : TextEncoding) (rows : List Bytes) : Prop :=
  ∃ ka kb, Neighbours encoding rows ka kb ∧ compareKeys ka kb = .gt

theorem isChain_iff_append {α : Type} {r : α → α → Prop} {l : List α} :
    l.IsChain r ↔ ∀ before a b after, l = before ++ a :: b :: after → r a b := by
  constructor
  · rintro h before a b after rfl
    exact (List.isChain_cons_cons.1 (List.isChain_append.1 h).2.1).1
  · intro h
    induction l with
    | nil => exact .nil
    | cons x l ih =>
      cases l with
      | nil => exact .singleton x
      | cons y l =>
        refine List.isChain_cons_cons.2 ⟨h [] x y l rfl, ih fun before a b after heq => h (x :: before) a b after ?_⟩
        rw [heq]
        rfl

/-- The check's test of the order, over neighbours. -/
theorem keysInOrder_iff {encoding : TextEncoding} {rows : List Bytes}
    (hdec : ∀ e ∈ rows, ∃ decoded, decodeRecord e encoding = .ok decoded) :
    KeysInOrder (rows.map (keyOf encoding)) ↔
      ∀ ka kb, Neighbours encoding rows ka kb → compareIndexKeys ka.dropLast kb.dropLast ≠ .gt := by
  rw [KeysInOrder, List.isChain_map, isChain_iff_append]
  constructor
  · rintro h ka kb ⟨before, a, b, after, rfl, ha, hb⟩
    have := h before a b after rfl
    simpa only [keyOf, ha, hb] using this
  · rintro h before a b after rfl
    obtain ⟨ka, ha⟩ := hdec a (by simp)
    obtain ⟨kb, hb⟩ := hdec b (by simp)
    simpa only [keyOf, ha, hb] using h ka kb ⟨before, a, b, after, rfl, ha, hb⟩

/-! ## What is reported -/

/-- The check in full mode reports a problem of the index. -/
def Reported (source : PageSource) (header : Header) (table : TableSchema) (index : IndexSchema) : Prop :=
  ∃ ps, runIntegrityCheck source header false = .problems ps ∧
    ∃ p ∈ ps, p ∈ checkIndex source header table (checkTable source header table).1 index

section
variable {source : PageSource} {header : Header} {table : TableSchema} {index : IndexSchema}

theorem reported_iff {schemas : List TableSchema}
    (hs : readSchema source (TableCursor.new header.toDatabaseHeader 1) header.textEncoding = .ok schemas)
    (ht : table ∈ schemas) (hv : table.isVirtual = false) (hi : index ∈ table.indexes) :
    Reported source header table index ↔
      checkIndex source header table (checkTable source header table).1 index ≠ [] := by
  constructor
  · rintro ⟨ps, -, p, -, hp⟩
    exact List.ne_nil_of_mem hp
  · intro hne
    obtain ⟨p, hp⟩ := List.exists_mem_of_ne_nil _ hne
    have hschema : p ∈ checkSchema source header false table := by
      simp only [checkSchema, hv, Bool.false_eq_true, if_false]
      exact List.mem_append_right _ (List.mem_flatMap.2 ⟨index, hi, hp⟩)
    have hall : p ∈ schemas.flatMap (checkSchema source header false) := List.mem_flatMap.2 ⟨table, ht, hschema⟩
    have hmem : p ∈ (if header.largestRootBtreePage ≠ 0 then [Problem.autoVacuum] else []) ++
        (schemas.flatMap (checkSchema source header false) ++ checkFreelist source header) :=
      List.mem_append_right _ (List.mem_append_left _ hall)
    refine ⟨_, ?_, p, hmem, hp⟩
    rw [runIntegrityCheck, hs]
    exact if_neg (List.ne_nil_of_mem hmem)

variable {items : List (Bytes ⊕ Bytes)} {own : Finset UInt32}

theorem exists_decoded {encoding : TextEncoding} {rows : List Bytes} {rowids : List Int64}
    (h : ∀ e ∈ rows, ∃ r ∈ rowids, trailingRowid encoding e = some r) :
    ∀ e ∈ rows, ∃ decoded, decodeRecord e encoding = .ok decoded := fun e he => by
  obtain ⟨r, -, hr⟩ := h e he
  obtain ⟨decoded, hd, -⟩ := trailingRowid_eq_some hr
  exact ⟨decoded, hd⟩

/-- A wrong order without the last columns, in columns of one kind, is found
in any index b-tree. -/
theorem checkIndex_wrong {rowids : List Int64} {ka kb : List Value}
    (h : PagedTree.Tree (indexKind source header.usablePageSize) source.pages [] index.rootPage items own)
    (hn : Neighbours header.textEncoding (entries items) ka kb) (halike : Alike ka.dropLast kb.dropLast)
    (hgt : compareKeys ka.dropLast kb.dropLast = .gt) : checkIndex source header table rowids index ≠ [] := by
  intro hnil
  obtain ⟨-, hall, -, hkeys⟩ := (checkIndex_tree_iff h).1 hnil
  refine (keysInOrder_iff (exists_decoded hall)).1 hkeys ka kb hn ?_
  rw [compareIndexKeys_eq halike, hgt]

/-- And nothing else, if there is one entry per row and all columns are of one kind. -/
theorem RowIndex.checkIndex_iff {rowids : List Int64} (h : RowIndex source header rowids index items own)
    (hpages : own.card ≤ maxPagesVisited)
    (halike : ∀ ka kb, Neighbours header.textEncoding (entries items) ka kb → Alike ka.dropLast kb.dropLast) :
    checkIndex source header table rowids index ≠ [] ↔
      ∃ ka kb, Neighbours header.textEncoding (entries items) ka kb ∧ compareKeys ka.dropLast kb.dropLast = .gt := by
  refine ⟨fun hne => ?_, fun ⟨ka, kb, hn, hgt⟩ => checkIndex_wrong h.tree hn (halike ka kb hn) hgt⟩
  by_contra hnone
  refine hne ((Integrity.checkIndex_iff h).2 ⟨hpages, (keysInOrder_iff (exists_decoded h.trailing)).2 fun ka kb hn hgt => ?_⟩)
  rw [compareIndexKeys_eq (halike ka kb hn)] at hgt
  exact hnone ⟨ka, kb, hn, hgt⟩

end

/-- The index of the small database, if its page holds the two entries. -/
theorem smallIndex_tree {e₁ e₂ : Bytes}
    (h : (indexKind (smallDatabase e₁ e₂) 512).leaf 3 ([0x0a, 0, 0, 0, 2, 0, 0, 0, 0, 12] ++
      (be16 (13 + e₁.length) ++ (UInt8.ofNat e₁.length :: e₁ ++ UInt8.ofNat e₂.length :: e₂))) [e₁, e₂]) :
    PagedTree.Tree (indexKind (smallDatabase e₁ e₂) smallHeader.usablePageSize) (smallDatabase e₁ e₂).pages [] 3
      [.inl e₁, .inl e₂] {3} :=
  .leaf (show (smallDatabase e₁ e₂).pages 3 = some _ from rfl) h

/-- Two numbers in the wrong order. -/
def swappedDatabase : PageSource := smallDatabase (indexEntry 6 1) (indexEntry 5 2)

theorem swappedDatabase_stored :
    PagedTree.Tree (indexKind swappedDatabase smallHeader.usablePageSize) swappedDatabase.pages [] 3
      [.inl (indexEntry 6 1), .inl (indexEntry 5 2)] {3} ∧
    readSchema swappedDatabase (TableCursor.new smallHeader.toDatabaseHeader 1) smallHeader.textEncoding =
      .ok smallSchema :=
  ⟨smallIndex_tree ⟨by decide +kernel, by decide +kernel, by decide +kernel⟩, by decide +kernel⟩

/-- The text of the first row and the number of the second. -/
def textEntry : Bytes := encodeRecord [.text ['a'], .integer 1] .utf8

def mixedDatabase : PageSource := smallDatabase textEntry (indexEntry 5 2)

end DbStorage.Integrity
