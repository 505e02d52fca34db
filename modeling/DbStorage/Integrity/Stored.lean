import DbStorage.Integrity.Freelist

/-!
# What the integrity check finds in tables, indexes and the freelist

Without damage a rowid table is a table b-tree with ascending rowids
(`RowidTable`), its index an index b-tree with one entry per row
(`RowIndex`), and the freelist a chain of as many pages as the header counts
(`FreePages`).

Results: `checkTable_rowidTable`, `checkIndex_tree_iff` (what is reported of
any index b-tree) and `checkFreelist_free`; `FreePages.of_heap` gives the
freelist of the pager.
-/
namespace DbStorage.Integrity
open Bytes Record Btree Btree.Index Pager PageWalk Schema

/-! ## What is stored -/

section
variable (source : PageSource) (header : Header)

/-- A table b-tree with ascending rowids. -/
structure RowidTable (table : TableSchema) (items : List ((Int64 × CurrentCell) ⊕ Int64)) (own : Finset UInt32) :
    Prop where
  tree : PagedTree.Tree cursorKind source.pages [] table.rootPage items own
  ascending : ((rowsOf items).map Prod.fst).Pairwise (· < ·)

/-- An index b-tree with one entry per row, the row's rowid at its end. -/
structure RowIndex (rowids : List Int64) (index : IndexSchema) (items : List (Bytes ⊕ Bytes)) (own : Finset UInt32) :
    Prop where
  tree : PagedTree.Tree (indexKind source header.usablePageSize) source.pages [] index.rootPage items own
  onePerRow : ((entries items).map (trailingRowid header.textEncoding)).Perm (rowids.map some)

/-- The freelist: a chain of different pages of the file. -/
structure FreePages (free : List UInt32) : Prop where
  chain : FreeChain source.pages header.freelistTrunkPage free
  size : ∀ p ∈ free, ∀ b, source.pages p = some b → b.length < 2 ^ 32
  nodup : free.Nodup
  inFile : ∀ p ∈ free, p ≠ 0 ∧ p ≤ header.pageCount
  count : header.freelistPageCount.toNat = free.length

end

/-- The columns of an entry in front of its rowid. -/
def keyOf (encoding : TextEncoding) (entry : Bytes) : List Value :=
  match decodeRecord entry encoding with
  | .ok decoded => decoded.dropLast
  | .error _ => []

/-- No key is greater than the next one, as the check compares them. -/
def KeysInOrder (keys : List (List Value)) : Prop := keys.IsChain fun a b => compareIndexKeys a b ≠ .gt

instance (keys : List (List Value)) : Decidable (KeysInOrder keys) := by
  unfold KeysInOrder
  infer_instance

/-! ## Tables -/

theorem rowProblems_ascending {name : List Char} {rows : List Int64} {prev : Option Int64} {seen : List Int64}
    (h : rows.Pairwise (· < ·)) (hprev : ∀ p ∈ prev, ∀ r ∈ rows, p < r) (hseen : ∀ r ∈ rows, r ∉ seen) :
    rowProblems name rows prev seen = [] := by
  induction rows generalizing prev seen with
  | nil => rfl
  | cons rowid rest ih =>
    obtain ⟨hfirst, hrest⟩ := List.pairwise_cons.1 h
    have hnext : rowProblems name rest (some rowid) (rowid :: seen) = [] := by
      refine ih hrest (fun p hp r hr => ?_) fun r hr hmem => ?_
      · cases hp
        exact hfirst r hr
      · rcases List.mem_cons.1 hmem with rfl | hmem
        · exact Int64.lt_irrefl (hfirst r hr)
        · exact hseen r (List.mem_cons_of_mem _ hr) hmem
    have hnew := hseen rowid List.mem_cons_self
    cases prev with
    | none => simp [rowProblems, hnew, hnext]
    | some p =>
      have hlt := Int64.not_le.2 (hprev p rfl rowid List.mem_cons_self)
      simp [rowProblems, hnew, hnext, hlt]

variable {own : Finset UInt32} {rowids : List Int64} {index : IndexSchema} {items : List (Bytes ⊕ Bytes)}
  {free : List UInt32}

section
variable {source : PageSource} {header : Header} {table : TableSchema}

theorem checkTable_rowidTable {items : List ((Int64 × CurrentCell) ⊕ Int64)} (h : RowidTable source table items own)
    (hpages : own.card ≤ maxPagesVisited) : checkTable source header table = ((rowsOf items).map Prod.fst, []) := by
  have hyields := (Btree.first_yields (TableCursor.new header.toDatabaseHeader table.rootPage)
    (Btree.tree_walk h.tree) hpages).map Prod.fst
  rw [List.map_map] at hyields
  have hscan : collect (TableCursor.next source) (fun rowid _ => rowid) (.traversalTooLong maxPagesVisited) maxRows
      ((TableCursor.new header.toDatabaseHeader table.rootPage).first source) = ((rowsOf items).map Prod.fst, none) :=
    collect_table hyields
  have hnodup : ((rowsOf items).map Prod.fst).Nodup := h.ascending.imp fun hlt => Int64.ne_of_lt hlt
  have hrows : rowProblems table.name ((rowsOf items).map Prod.fst) none [] = [] :=
    rowProblems_ascending h.ascending (by simp) (by simp)
  simp only [checkTable, hscan, hnodup.dedup, hrows]
  rfl

/-! ## Indexes -/

theorem trailingRowid_eq_some {encoding : TextEncoding} {entry : Bytes} {rowid : Int64}
    (h : trailingRowid encoding entry = some rowid) :
    ∃ decoded, decodeRecord entry encoding = .ok decoded ∧ decoded.getLast? = some (.integer rowid) := by
  unfold trailingRowid at h
  split at h
  · rename_i decoded hd
    split at h
    · cases h
      exact ⟨decoded, hd, by assumption⟩
    · cases h
  · cases h

theorem entryProblems_iff (index : IndexSchema) {rows : List Bytes} (prevKey : Option (List Value)) (seen : Nat)
    (h : ∀ e ∈ rows, ∃ r ∈ rowids, trailingRowid header.textEncoding e = some r) :
    (entryProblems header index table rowids rows prevKey seen).1 = [] ↔
      KeysInOrder (prevKey.toList ++ rows.map (keyOf header.textEncoding)) := by
  induction rows generalizing prevKey seen with
  | nil => cases prevKey <;> simp [entryProblems, KeysInOrder]
  | cons entry rest ih =>
    obtain ⟨rowid, hmem, htrail⟩ := h entry List.mem_cons_self
    obtain ⟨decoded, hd, hlast⟩ := trailingRowid_eq_some htrail
    have hkey : keyOf header.textEncoding entry = decoded.dropLast := by simp only [keyOf, hd]
    have hrest := ih (some decoded.dropLast) (seen + 1) fun e he => h e (List.mem_cons_of_mem _ he)
    simp only [entryProblems, hd, hlast, hmem, if_true, List.nil_append, List.map_cons, hkey]
    cases prevKey with
    | none => exact hrest
    | some p =>
      have hchain : KeysInOrder (p :: decoded.dropLast :: rest.map (keyOf header.textEncoding)) ↔
          compareIndexKeys p decoded.dropLast ≠ .gt ∧
            KeysInOrder (decoded.dropLast :: rest.map (keyOf header.textEncoding)) := List.isChain_cons_cons
      rw [Option.toList_some, List.singleton_append, hchain, List.append_eq_nil_iff, hrest]
      simp

theorem scanIndex_tree
    (h : PagedTree.Tree (indexKind source header.usablePageSize) source.pages [] index.rootPage items own)
    (hpages : own.card ≤ maxPagesVisited) : scanIndex source header index = (entries items, none) :=
  collect_index (Index.first_yields (IndexCursor.new header.usablePageSize index.rootPage) (Index.tree_walk h) hpages)

theorem checkIndex_tree_iff
    (h : PagedTree.Tree (indexKind source header.usablePageSize) source.pages [] index.rootPage items own) :
    checkIndex source header table rowids index = [] ↔
      own.card ≤ maxPagesVisited ∧ (∀ e ∈ entries items, ∃ r ∈ rowids, trailingRowid header.textEncoding e = some r) ∧
        (entries items).length = rowids.length ∧ KeysInOrder ((entries items).map (keyOf header.textEncoding)) := by
  rcases Nat.lt_or_ge maxPagesVisited own.card with hover | hpages
  · have hnot : checkIndex source header table rowids index ≠ [] := fun hnil => by
      obtain ⟨rows, hrows, -⟩ := checkIndex_nil hnil
      exact Index.first_overruns (IndexCursor.new header.usablePageSize index.rootPage) (Index.tree_walk h) hover hrows
    exact iff_of_false hnot fun hle => Nat.not_le.2 hover hle.1
  have hcheck : checkIndex source header table rowids index =
      (entryProblems header index table rowids (entries items) none 0).1 ++
        if (entryProblems header index table rowids (entries items) none 0).2 ≠ rowids.length then
          [.wrongNumberOfEntries index.name rowids.length
            (entryProblems header index table rowids (entries items) none 0).2]
        else [] := by
    rw [checkIndex, scanIndex_tree h hpages]
    cases entries items <;> rfl
  have horder (hall : ∀ e ∈ entries items, ∃ r ∈ rowids, trailingRowid header.textEncoding e = some r) :
      (entryProblems header index table rowids (entries items) none 0).1 = [] ↔
        KeysInOrder ((entries items).map (keyOf header.textEncoding)) := entryProblems_iff index none 0 hall
  rw [and_iff_right hpages, hcheck, List.append_eq_nil_iff]
  constructor
  · rintro ⟨hprob, hnum⟩
    obtain ⟨hall, hcount⟩ := entryProblems_nil hprob
    refine ⟨hall, ?_, (horder hall).1 hprob⟩
    rw [hcount, Nat.zero_add] at hnum
    by_contra hne
    simp [hne] at hnum
  · rintro ⟨hall, hlen, hkeys⟩
    have hprob := (horder hall).2 hkeys
    refine ⟨hprob, ?_⟩
    simp [(entryProblems_nil hprob).2, hlen]

theorem RowIndex.trailing (h : RowIndex source header rowids index items own) :
    ∀ e ∈ entries items, ∃ r ∈ rowids, trailingRowid header.textEncoding e = some r := fun e he => by
  obtain ⟨r, hr, heq⟩ := List.mem_map.1 (h.onePerRow.mem_iff.1 (List.mem_map_of_mem he))
  exact ⟨r, hr, heq.symm⟩

theorem checkIndex_iff (h : RowIndex source header rowids index items own) :
    checkIndex source header table rowids index = [] ↔
      own.card ≤ maxPagesVisited ∧ KeysInOrder ((entries items).map (keyOf header.textEncoding)) := by
  have hlen : (entries items).length = rowids.length := by simpa using h.onePerRow.length_eq
  rw [checkIndex_tree_iff h.tree]
  exact ⟨fun hok => ⟨hok.1, hok.2.2.2⟩, fun hok => ⟨hok.1, h.trailing, hlen, hok.2⟩⟩

end

/-! ## The freelist -/

variable {source : PageSource} {header : Header}

theorem trunkChain_of_free {trunk : UInt32} (h : FreeChain source.pages trunk free)
    (hsize : ∀ p ∈ free, ∀ b, source.pages p = some b → b.length < 2 ^ 32) :
    ∃ c, TrunkChain source trunk c ∧ (trunksOf c ++ leavesOf c).Perm free := by
  induction h with
  | nil => exact ⟨[], .nil, .refl _⟩
  | @cons t page tail rest ht hpage hchain ih =>
    obtain ⟨c, hc, hperm⟩ := ih fun p hp => hsize p (List.mem_cons_of_mem _ (List.mem_append_right _ hp))
    have hparse : TrunkPage.parse (page.bytes ++ tail) = .ok page :=
      parse_trunk page tail (hsize t List.mem_cons_self _ hpage)
    have hread : source t = .ok (page.bytes ++ tail) := by
      rw [PageSource.pages] at hpage
      cases hs : source t <;> simp_all [Except.toOption]
    refine ⟨(t, page) :: c, .cons ht hread hparse hc, ?_⟩
    have hswap : (trunksOf c ++ (page.leaves ++ leavesOf c)).Perm (page.leaves ++ (trunksOf c ++ leavesOf c)) := by
      rw [← List.append_assoc, ← List.append_assoc]
      exact List.perm_append_comm.append_right _
    exact (hswap.trans (hperm.append_left _)).cons t

theorem checkFreelist_free (h : FreePages source header free) : checkFreelist source header = [] := by
  obtain ⟨c, hc, hperm⟩ := trunkChain_of_free h.chain h.size
  have hcons : Consistent source header c :=
    ⟨hc, fun p hp => h.inFile p (hperm.mem_iff.1 hp), hperm.nodup_iff.2 h.nodup, hperm.length_eq.trans h.count.symm⟩
  exact checkFreelist_nil_iff.2 ⟨c, hcons.accepted⟩

/-- The freelist that the pager keeps, with the header read from page 1. -/
theorem FreePages.of_heap {ps : UInt32} {used : List UInt32} {b : Bytes}
    (h : Heap ps source.pages header.pageCount used free) (hb : source.pages 1 = some b)
    (hf : HeaderFields b header.pageCount header.freelistTrunkPage header.freelistPageCount) :
    FreePages source header free := by
  obtain ⟨b', trunk, hb', hf', hchain⟩ := h.header
  obtain rfl : b = b' := Option.some.inj (hb.symm.trans hb')
  have htrunk : header.freelistTrunkPage = trunk :=
    Except.ok.inj ((readBeU32_of_holds hf.trunk).symm.trans (readBeU32_of_holds hf'.trunk))
  have hcount : header.freelistPageCount = UInt32.ofNat free.length :=
    Except.ok.inj ((readBeU32_of_holds hf.freeCount).symm.trans (readBeU32_of_holds hf'.freeCount))
  refine ⟨htrunk ▸ hchain, fun p hp c hc => ?_, (List.nodup_append.1 h.nodup).2.1, fun p hp => ?_, ?_⟩
  · obtain ⟨c', hc', hlen⟩ := h.mem_page (List.mem_append_right _ hp)
    obtain rfl : c = c' := Option.some.inj (hc.symm.trans hc')
    have := h.pageSize_ge
    omega
  · have hin := (h.cover p).1 (List.mem_append_right _ hp)
    refine ⟨?_, UInt32.le_iff_toNat_le.2 hin.2⟩
    rintro rfl
    exact absurd hin.1 (by decide)
  · rw [hcount, UInt32.toNat_ofNat', Nat.mod_eq_of_lt h.free_length_lt]

end DbStorage.Integrity
