import DbStorage.Btree.Layout
import DbStorage.Btree.Table
import DbStorage.Pager.Heap

/-!
# What a refused row leaves behind

`insert_row` refuses a rowid that is already there and `delete_row` a rowid
that is not, both at the leaf the rowid belongs to. No other function fails
with one of the two errors (`Clean`), so such a call has only done what
comes before the leaf is read.

Result: `refused_row_frame`. A refused deletion changes no page. A refused
insertion changes no page exactly when the payload is stored locally: the
overflow chain of a larger one is allocated before the leaf is read, and
stays allocated.
-/
namespace DbStorage.Btree
open Bytes Pager Record Table

/-- The two errors of a refused row. -/
def aboutRowid : BtreeError → Prop
  | .duplicateRowid _ => True
  | .rowidNotFound _ => True
  | _ => False

/-- The computation does not refuse a row. -/
def Clean {α : Type} (x : Except BtreeError α) : Prop := ∀ e, x = .error e → ¬ aboutRowid e

/-- The action does not refuse a row. -/
abbrev Plain {σ α : Type} (x : Action σ BtreeError α) : Prop := Action.Never aboutRowid x

variable {e : BtreeError}

section
variable {α β : Type}

theorem Clean.ok (a : α) : Clean (.ok a) := fun _ h => nomatch h

theorem Clean.error (he : ¬ aboutRowid e) : Clean (.error e : Except BtreeError α) := by
  intro e' h
  cases h
  exact he

theorem Clean.bind {x : Except BtreeError α} {f : α → Except BtreeError β} (hx : Clean x)
    (hf : ∀ a, Clean (f a)) : Clean (x >>= f) := by
  cases x with
  | ok a => exact hf a
  | error e => exact .error (hx e rfl)

theorem Clean.map {x : Except BtreeError α} (f : α → β) (hx : Clean x) : Clean (f <$> x) := by
  cases x with
  | ok a => exact .ok (f a)
  | error e => exact .error (hx e rfl)

theorem Clean.ite {c : Prop} [Decidable c] {x y : Except BtreeError α} (hx : Clean x) (hy : Clean y) :
    Clean (if c then x else y) := by
  split
  · exact hx
  · exact hy

end

/-! ## Readers -/

section
variable (buf : Bytes) (p : UInt32)

theorem readU16Or_clean (he : ¬ aboutRowid e) (o : Nat) : Clean (readU16Or buf e o) := by
  unfold readU16Or
  split
  · exact .ok _
  · exact .error he

theorem readU16_clean (o : Nat) : Clean (readU16 buf o p) := readU16Or_clean buf id o

theorem readNumCells_clean (hs : Nat) : Clean (readNumCells buf hs p) := readU16Or_clean buf id _

theorem readCellPointer_clean (o i : Nat) : Clean (readCellPointer buf o p i) := readU16Or_clean buf id o

theorem readPageType_clean (hs : Nat) : Clean (readPageType buf hs p) := by
  unfold readPageType
  split
  · exact .ok _
  · exact .error id

theorem readU32_clean (o : Nat) : Clean (readU32 buf o p) := by
  unfold readU32
  split
  · exact .ok _
  · exact .error id

theorem readContentStart_clean (hs : Nat) : Clean (readContentStart buf hs p) :=
  .bind (readU16_clean buf p _) fun _ => .ok _

theorem decodeCellVarint_clean (cell : Bytes) : Clean (decodeCellVarint p cell) := by
  unfold decodeCellVarint
  cases decodeVarint cell with
  | ok a => exact .ok a
  | error e => exact .error id

theorem tailFrom_clean (he : ¬ aboutRowid e) (o : Nat) : Clean (tailFrom buf e o) :=
  .ite (.ok _) (.error he)

theorem decodeCellHead_clean (o : Nat) : Clean (decodeCellHead buf o p) :=
  .bind (tailFrom_clean buf id o) fun _ => .bind (decodeCellVarint_clean p _) fun _ =>
    .bind (tailFrom_clean _ id _) fun _ => .bind (decodeCellVarint_clean p _) fun _ => .ok _

theorem decodePayloadLen_clean (o : Nat) : Clean (decodePayloadLen buf o p) :=
  .bind (tailFrom_clean buf id o) fun _ => .bind (decodeCellVarint_clean p _) fun _ => .ok _

theorem collectLeafCellsFrom_clean (base us n i : Nat) : Clean (collectLeafCellsFrom buf base p us n i) := by
  induction n generalizing i with
  | zero => exact .ok _
  | succ n ih =>
    refine .bind (readCellPointer_clean buf p _ _) fun start => .bind (decodeCellHead_clean buf p _) fun head => ?_
    dsimp only
    split
    · exact .error id
    · exact .bind (ih _) fun _ => .ok _

theorem collectLeafCells_clean (hs us : Nat) : Clean (collectLeafCells buf hs p us) :=
  .bind (readNumCells_clean buf p hs) fun _ => collectLeafCellsFrom_clean buf p _ _ _ _

theorem collectInteriorEntriesFrom_clean (base n i : Nat) :
    Clean (collectInteriorEntriesFrom buf base p n i) := by
  induction n generalizing i with
  | zero => exact .ok _
  | succ n ih =>
    exact .bind (readCellPointer_clean buf p _ _) fun _ => .bind (readU32_clean buf p _) fun _ =>
      .bind (tailFrom_clean buf id _) fun _ => .bind (decodeCellVarint_clean p _) fun _ =>
      .bind (ih _) fun _ => .ok _

theorem collectInteriorEntries_clean (hs : Nat) : Clean (collectInteriorEntries buf hs p) :=
  .bind (readNumCells_clean buf p hs) fun _ => .bind (collectInteriorEntriesFrom_clean buf p _ _ _) fun _ =>
    .bind (readU32_clean buf p _) fun _ => .ok _

theorem walkFreeblocksFrom_clean (n off : Nat) : Clean (walkFreeblocksFrom buf p n off) := by
  induction n generalizing off with
  | zero =>
    unfold walkFreeblocksFrom
    exact .ite (.ok _) (.error id)
  | succ n ih =>
    unfold walkFreeblocksFrom
    exact .ite (.ok _) (.bind (readU16_clean buf p _) fun _ => .bind (readU16_clean buf p _) fun _ =>
      .bind (ih _) fun _ => .ok _)

theorem walkFreeblocks_clean (hs : Nat) : Clean (walkFreeblocks buf hs p) :=
  .bind (readU16_clean buf p _) fun _ => walkFreeblocksFrom_clean buf p _ _

end

/-! ## Writers -/

section
variable (p : UInt32)

theorem Edit.read_plain {α : Type} {f : Bytes → Except BtreeError α} (h : ∀ buf, Clean (f buf)) :
    Plain (Edit.read f) := fun buf e he => h buf e he

theorem put_plain (o : Nat) (d : Bytes) : Plain (put o d p) := by
  intro buf e he
  simp only [put, Action.exec_ofFn] at he
  split at he
  · cases he
  · cases he
    exact id

theorem layCells_plain (stop : Nat) (cells : List Bytes) : Plain (layCells p stop cells) := by
  induction cells with
  | nil => exact .pure _
  | cons c cells ih => exact .bind ih fun _ => .bind (put_plain p _ _) fun _ => .pure _

theorem writePointers_plain (base i : Nat) (offs : List Nat) : Plain (writePointers p base i offs) := by
  induction offs generalizing i with
  | nil => exact .pure _
  | cons o offs ih => exact .bind (put_plain p _ _) fun _ => ih _

theorem clearFrom_plain (hs : Nat) : Plain (clearFrom hs p) := by
  intro buf e he
  simp only [clearFrom, Action.exec_ofFn] at he
  split at he
  · cases he
  · cases he
    exact id

theorem writePageCommon_plain (hs : Nat) (ty : UInt8) (hl : Nat) (cells : List Bytes) :
    Plain (writePageCommon hs p ty hl cells) := by
  refine .bind (fun _ _ h => nomatch h) fun buf => .ite (.throw id) ?_
  exact .bind (clearFrom_plain p hs) fun _ => .bind (put_plain p _ _) fun _ =>
    .bind (layCells_plain p _ _) fun _ => .bind (writePointers_plain p _ _ _) fun _ =>
    .bind (put_plain p _ _) fun _ => .bind (put_plain p _ _) fun _ => put_plain p _ _

theorem writeInteriorPage_plain (hs : Nat) (cells : List Bytes) (r : UInt32) :
    Plain (writeInteriorPage hs p cells r) :=
  .bind (writePageCommon_plain p _ _ _ _) fun _ => put_plain p _ _

theorem writeFreeblocks_plain (blocks : List (Nat × Nat)) : Plain (writeFreeblocks p blocks) := by
  induction blocks with
  | nil => exact .pure _
  | cons b blocks ih => exact .bind (put_plain p _ _) fun _ => .bind (put_plain p _ _) fun _ => ih

theorem writeFreeblockChain_plain (hs : Nat) (blocks : List (Nat × Nat)) :
    Plain (writeFreeblockChain hs p blocks) :=
  .bind (writeFreeblocks_plain p blocks) fun _ => put_plain p _ _

theorem shiftUp_plain (base index n : Nat) : Plain (shiftUp base p index n) := by
  induction n with
  | zero => exact .pure _
  | succ n ih =>
    exact .bind (Edit.read_plain fun buf => readCellPointer_clean buf p _ _) fun _ =>
      .bind (put_plain p _ _) fun _ => ih

theorem spliceInsertCell_plain (hs index : Nat) (cell : Bytes) : Plain (spliceInsertCell hs p index cell) := by
  refine .bind (Edit.read_plain fun buf => readNumCells_clean buf p hs) fun _ =>
    .bind (Edit.read_plain fun buf => readContentStart_clean buf p hs) fun _ => .ite (.pure _) ?_
  exact .bind (put_plain p _ _) fun _ => .bind (shiftUp_plain p _ _ _) fun _ =>
    .bind (put_plain p _ _) fun _ => .bind (put_plain p _ _) fun _ => .bind (put_plain p _ _) fun _ => .pure _

theorem shiftDown_plain (base n i : Nat) : Plain (shiftDown base p n i) := by
  induction n generalizing i with
  | zero => exact .pure _
  | succ n ih =>
    exact .bind (Edit.read_plain fun buf => readCellPointer_clean buf p _ _) fun _ =>
      .bind (put_plain p _ _) fun _ => ih _

theorem freeRange_plain (hs start stop : Nat) : Plain (freeRange hs p start stop) := by
  refine .bind (Edit.read_plain fun buf => readContentStart_clean buf p hs) fun _ => .ite ?_ (.ite ?_ ?_)
  · exact .bind (Edit.read_plain fun buf => walkFreeblocks_clean buf p hs) fun _ =>
      .bind (put_plain p _ _) fun _ => writeFreeblockChain_plain p _ _
  · exact .bind (Edit.read_plain fun buf => readPageType_clean buf p _) fun _ => put_plain p _ _
  · exact .bind (Edit.read_plain fun buf => walkFreeblocks_clean buf p hs) fun _ =>
      writeFreeblockChain_plain p _ _

theorem spliceDeleteCell_plain (hs us index : Nat) (hasRowid : Bool) :
    Plain (spliceDeleteCell hs p us index hasRowid) := by
  refine .bind (Edit.read_plain fun buf => readNumCells_clean buf p hs) fun _ => .ite (.throw id) ?_
  refine .bind (Edit.read_plain fun buf => readCellPointer_clean buf p _ _) fun _ => .bind ?_ fun _ => ?_
  · exact Edit.read_plain fun buf => .ite (.map _ (decodeCellHead_clean buf p _)) (decodePayloadLen_clean buf p _)
  · exact .bind (shiftDown_plain p _ _ _) fun _ => .bind (put_plain p _ _) fun _ =>
      .bind (fun _ _ h => nomatch h) fun _ => freeRange_plain p _ _ _

end

/-! ## Calls on the store -/

section
variable {σ α : Type} (O : PageOps σ) (p : UInt32)

theorem pagerCall_plain (x : Action σ PagerError α) : Plain (pagerCall x) := .mapError x fun _ => id

theorem readSource_plain : Plain (readSource O p) := .mapError _ fun _ => id

theorem onPage_plain {f : Edit α} (hf : Plain f) : Plain (onPage O p f) :=
  .bind (pagerCall_plain _) fun buf => .bind (pagerCall_plain _) fun _ => .ofExcept fun e he => hf buf e he

theorem reader_plain {x : Except BtreeError α} (hx : Clean x) : Plain (Action.ofExcept id x : Action σ _ α) :=
  .ofExcept hx

theorem findLeafPageFrom_plain (rowid : Int64) (n : Nat) (ancestors : List UInt32) :
    Plain (findLeafPageFrom O rowid n p ancestors) := by
  induction n generalizing p ancestors with
  | zero => exact .throw id
  | succ n ih =>
    refine .bind (readSource_plain O p) fun page => .bind (reader_plain (readPageType_clean _ _ _)) fun _ =>
      .ite (.pure _) (.ite ?_ (.throw id))
    exact .bind (reader_plain (collectInteriorEntries_clean _ _ _)) fun _ => ih _ _

theorem writeOverflowPages_plain (ps : List UInt32) (chunks : List Bytes) :
    Plain (writeOverflowPages O ps chunks) := by
  induction chunks generalizing ps with
  | nil =>
    unfold writeOverflowPages
    exact .pure _
  | cons c chunks ih =>
    cases ps with
    | nil => exact .throw id
    | cons p ps =>
      exact .bind (onPage_plain O p (.bind (put_plain p _ _) fun _ => put_plain p _ _)) fun _ => ih ps

theorem allocatePages_plain (n : Nat) : Plain (allocatePages O n) := by
  induction n with
  | zero => exact .pure _
  | succ n ih => exact .bind (pagerCall_plain _) fun _ => .bind ih fun _ => .pure _

theorem encodeLeafCell_plain (us : Nat) (rowid : Int64) (payload : Bytes) :
    Plain (encodeLeafCell O us rowid payload) := by
  refine .ite (.pure _) (.bind ?_ fun _ => .pure _)
  exact .bind (allocatePages_plain O _) fun _ => .bind (writeOverflowPages_plain O _ _) fun _ => .pure _

theorem copyCells_plain (us : Nat) (source : UInt32) (content : Bytes) (ty : UInt8) (target : UInt32) (hs : Nat) :
    Plain (copyCells O us source content ty target hs) := by
  refine .ite ?_ (.ite ?_ (.throw id))
  · exact .bind (reader_plain (collectLeafCells_clean _ _ _ _)) fun _ =>
      onPage_plain O _ (writePageCommon_plain _ _ _ _ _)
  · exact .bind (reader_plain (collectInteriorEntries_clean _ _ _)) fun _ =>
      onPage_plain O _ (writeInteriorPage_plain _ _ _ _)

theorem rootSplit_plain (us : Nat) (root right : UInt32) (divider : Int64) :
    Plain (rootSplit O us root right divider) :=
  .bind (pagerCall_plain _) fun _ => .bind (reader_plain (readPageType_clean _ _ _)) fun _ =>
    .bind (pagerCall_plain _) fun _ => .bind (copyCells_plain O _ _ _ _ _ _) fun _ =>
      onPage_plain O root (writeInteriorPage_plain root _ _ _)

theorem insertIntoParent_plain (us len : Nat) (root : UInt32) (ancestors : List UInt32) (old new : UInt32)
    (divider : Int64) : Plain (insertIntoParent O us len root ancestors old new divider) := by
  induction ancestors generalizing old new divider with
  | nil => exact rootSplit_plain O us root new divider
  | cons q rest ih =>
    refine .bind (pagerCall_plain _) fun _ => .bind (reader_plain (collectInteriorEntries_clean _ _ _)) fun _ => ?_
    dsimp only
    split
    · exact .throw id
    · refine .ite (onPage_plain O q (writeInteriorPage_plain q _ _ _)) ?_
      split
      · exact .throw id
      · exact .bind (pagerCall_plain _) fun _ => .bind (onPage_plain O q (writeInteriorPage_plain q _ _ _)) fun _ =>
          .bind (onPage_plain O _ (writeInteriorPage_plain _ _ _ _)) fun _ => ih _ _ _

theorem writeGroup_plain {target : Action σ BtreeError (UInt32 × Nat)} (ht : Plain target)
    (group : List (Int64 × Bytes)) : Plain (writeGroup O target group) := by
  unfold writeGroup
  split
  · exact .throw id
  · exact .bind ht fun _ => .bind (onPage_plain O _ (writePageCommon_plain _ _ _ _ _)) fun _ => .pure _

theorem writeNewGroups_plain (groups : List (List (Int64 × Bytes))) : Plain (writeNewGroups O groups) := by
  induction groups with
  | nil => exact .pure _
  | cons g groups ih =>
    exact .bind (writeGroup_plain O (.bind (pagerCall_plain _) fun _ => .pure _) g) fun _ =>
      .bind ih fun _ => .pure _

theorem routeGroups_plain (us len : Nat) (leaf root : UInt32) (pages : List (UInt32 × Int64))
    (route : List UInt32) : Plain (routeGroups O us len leaf root route pages) := by
  induction pages generalizing route with
  | nil => exact .pure _
  | cons a pages ih =>
    cases pages with
    | nil => exact .pure _
    | cons b pages =>
      refine .bind (.ite (.bind (findLeafPageFrom_plain O _ _ _ _) fun _ => .ite (.throw id) (.pure _)) (.pure _))
        fun _ => .bind (insertIntoParent_plain O _ _ _ _ _ _ _) fun _ => ih _

theorem splitLeaf_plain (us len : Nat) (leaf root : UInt32) (ancestors : List UInt32)
    (cells : List (Int64 × Bytes)) : Plain (splitLeaf O us len leaf root ancestors cells) := by
  unfold splitLeaf
  dsimp only
  split
  · exact .pure _
  · exact .bind (writeGroup_plain O (.pure _) _) fun _ => .bind (writeNewGroups_plain O _) fun _ =>
      routeGroups_plain O _ _ _ _ _ _

theorem insertFitting_plain (hs : Nat) (leaf : UInt32) (us pos : Nat) (rowid : Int64) (cell : Bytes) :
    Plain (insertFitting hs leaf us pos rowid cell) :=
  .bind (spliceInsertCell_plain leaf _ _ _) fun _ => .ite (.pure _)
    (.bind (Edit.read_plain fun buf => collectLeafCells_clean buf leaf _ _) fun _ =>
      writePageCommon_plain leaf _ _ _ _)

theorem freeOverflowChainFrom_plain (first : UInt32) (n : Nat) (visited : List UInt32) :
    Plain (freeOverflowChainFrom O first n p visited) := by
  induction n generalizing p visited with
  | zero => exact .throw id
  | succ n ih =>
    exact .ite (.pure _) (.ite (.throw id) (.bind (pagerCall_plain _) fun _ =>
      .bind (reader_plain (readU32_clean _ _ _)) fun _ => .bind (pagerCall_plain _) fun _ => ih _ _))

theorem collapseRoot_plain (us : Nat) (root child : UInt32) : Plain (collapseRoot O us root child) :=
  .bind (pagerCall_plain _) fun _ => .bind (reader_plain (readPageType_clean _ _ _)) fun _ =>
    .bind (copyCells_plain O _ _ _ _ _ _) fun _ => pagerCall_plain _

theorem spliceChild_plain (ancestors : List UInt32) (old new : UInt32) :
    Plain (spliceChild O ancestors old new) := by
  cases ancestors with
  | nil => exact .throw id
  | cons q rest =>
    refine .bind (pagerCall_plain _) fun _ => .bind (reader_plain (collectInteriorEntries_clean _ _ _)) fun _ => ?_
    dsimp only
    split
    · exact .throw id
    · exact onPage_plain O q (writeInteriorPage_plain q _ _ _)

theorem removeChild_clean (parent emptied right : UInt32) (entries : List (UInt32 × Int64)) :
    Clean (removeChild parent emptied right entries) := by
  refine .ite (.ok _) (.ite ?_ (.error id))
  split
  · exact .ok _
  · exact .error id

theorem collapseIntoAncestors_plain (us : Nat) (root : UInt32) (ancestors : List UInt32) (emptied : UInt32) :
    Plain (collapseIntoAncestors O us root ancestors emptied) := by
  cases ancestors with
  | nil => exact .throw id
  | cons q rest =>
    refine .bind (pagerCall_plain _) fun _ => .bind (reader_plain (collectInteriorEntries_clean _ _ _)) fun _ =>
      .bind (reader_plain (removeChild_clean _ _ _ _)) fun _ => .ite ?_ (.ite (collapseRoot_plain O _ _ _) ?_)
    · exact onPage_plain O q (writeInteriorPage_plain q _ _ _)
    · exact .bind (pagerCall_plain _) fun _ => spliceChild_plain O _ _ _

end

/-! ## Before the leaf is read -/

section
variable {σ : Type} {O : PageOps σ} {A : σ → View → Prop} (L : O.Lawful A) (v : View)
include L

theorem readSource_keeps (p : UInt32) : Action.Keeps (A · v) (readSource O p) :=
  (L.readPage_keeps v p).mapError _

theorem getPage_keeps (p : UInt32) : Action.Keeps (A · v) (getPage O p) := (L.getPageMut_keeps v p).mapError _

theorem findLeafPage_keeps (p : UInt32) (rowid : Int64) : Action.Keeps (A · v) (findLeafPage O p rowid) := by
  have hfrom : ∀ n q anc, Action.Keeps (A · v) (findLeafPageFrom O rowid n q anc) := by
    intro n
    induction n with
    | zero => exact fun q anc => .throw _
    | succ n ih =>
      intro q anc
      refine .bind (readSource_keeps L v q) fun _ => .bind (.ofExcept _ _) fun _ => .ite (.pure _) (.ite ?_ (.throw _))
      exact .bind (.ofExcept _ _) fun _ => ih _ _
  exact hfrom _ _ _

/-- A leaf that holds the rowid is only read. -/
theorem insertIntoLeaf_keepsOn (us len : Nat) (leaf root : UInt32) (ancestors : List UInt32) (rowid : Int64)
    (cell : Bytes) :
    Action.KeepsOn aboutRowid (A · v) (insertIntoLeaf O us len leaf root ancestors rowid cell) := by
  refine .bind (getPage_keeps L v leaf) fun buf => .bind (.ofExcept _ _) fun scan => Action.Never.keepsOn ?_
  exact .ite (onPage_plain O leaf (insertFitting_plain _ _ _ _ _ _))
    (.bind (reader_plain (collectLeafCells_clean _ _ _ _)) fun _ => splitLeaf_plain O _ _ _ _ _ _)

/-- A refused insertion has encoded its cell, and changed no page after that. -/
theorem insertRow_refused {header : DatabaseHeader} {root : UInt32} {rowid : Int64} {payload : Bytes} {s s' : σ}
    (h : Action.exec (insertRow O header root rowid payload) s = (.error e, s')) (he : aboutRowid e) :
    ∃ cell s₁, Action.exec (encodeLeafCell O header.usablePageSize rowid payload) s = (.ok cell, s₁) ∧
      ∀ v, A s₁ v → A s' v := by
  have hplain := encodeLeafCell_plain O header.usablePageSize rowid payload s
  rw [insertRow, Action.exec_bind] at h
  revert h hplain
  cases Action.exec (encodeLeafCell O header.usablePageSize rowid payload) s with
  | mk r s₁ =>
    cases r with
    | error e' =>
      intro h hplain
      cases h
      exact absurd he (hplain _ rfl)
    | ok cell =>
      intro h _
      refine ⟨cell, s₁, rfl, fun w hw => ?_⟩
      have hk : Action.KeepsOn aboutRowid (A · w) (findLeafPage O root rowid >>= fun found =>
          getPage O found.2 >>= fun page =>
            insertIntoLeaf O header.usablePageSize page.length found.2 root found.1 rowid cell) :=
        .bind (findLeafPage_keeps L w root rowid) fun _ => .bind (getPage_keeps L w _) fun _ =>
          insertIntoLeaf_keepsOn L w _ _ _ _ _ _ _
      have := hk s₁ e hw (congrArg Prod.fst h) he
      rwa [congrArg Prod.snd h] at this

theorem deleteRow_keepsOn (header : DatabaseHeader) (root : UInt32) (rowid : Int64) :
    Action.KeepsOn aboutRowid (A · v) (deleteRow O header root rowid) := by
  refine .bind (findLeafPage_keeps L v root rowid) fun _ => .bind (getPage_keeps L v _) fun _ =>
    .bind (.ofExcept _ _) fun found => ?_
  cases found with
  | none => exact (Action.Keeps.throw _).keepsOn
  | some f =>
    refine Action.Never.keepsOn (.ite ?_ ?_)
    · exact .bind (onPage_plain O _ (spliceDeleteCell_plain _ _ _ _ _)) fun _ =>
        freeOverflowChainFrom_plain O _ _ _ _
    · exact .bind (onPage_plain O _ (writePageCommon_plain _ _ _ _ _)) fun _ => .bind (pagerCall_plain _) fun _ =>
        .bind (freeOverflowChainFrom_plain O _ _ _ _) fun _ => collapseIntoAncestors_plain O _ _ _ _

end

/-! ## The overflow chain of a refused row -/

/-- A payload above the limit, and no other, has overflow bytes. -/
theorem overflowBytes_isEmpty (us : Nat) (payload : Bytes) :
    (payload.drop (min (localPayloadSize us payload.length false) payload.length)).isEmpty = true ↔
      payload.length ≤ maxLocal us false := by
  rw [List.isEmpty_iff, List.drop_eq_nil_iff]
  constructor
  · intro h
    by_contra hlt
    have := localPayloadSize_le us payload.length false (by omega)
    omega
  · intro h
    rw [localPayloadSize, if_pos h, Nat.min_self]

section
variable {σ : Type} {O : PageOps σ} {A : σ → View → Prop} {ps n₀ : UInt32} {v : View}

/-- The header counts at least `d` more pages in use than a header with `n₀`
pages of which `k₀` are free, or has reached the last page number. -/
def Grown (ps n₀ : UInt32) (k₀ d : Nat) (v : View) : Prop :=
  (∃ n used free, Heap ps v n used free ∧ n ≠ 0xffffffff ∧ n₀.toNat + free.length + d ≤ n.toNat + k₀) ∨
    ∃ h count, v 1 = some h ∧ 40 ≤ h.length ∧ HeaderFields h 0xffffffff 0 count

/-- At the last page number, the last page is handed out again. -/
theorem allocatePage_last (L : O.Lawful A) {h : Bytes} {count : UInt32} (hv : v 1 = some h)
    (hl : 40 ≤ h.length) (hf : HeaderFields h 0xffffffff 0 count) :
    ∃ v' h', Action.Runs A O.allocatePage v (.ok 0xffffffff) v' ∧ v' 1 = some h' ∧ 40 ≤ h'.length ∧
      HeaderFields h' 0xffffffff 0 count := by
  have hs : SameButFields h (writeAt h (be32 0xffffffff) pageCountOffset) :=
    sameButFields_write _ hl (by decide)
  have hv' : (v.set 0xffffffff (List.replicate O.pageSize.toNat 0)) 1 = some h :=
    (View.set_of_ne _ _ (by decide)).trans hv
  have hwrite := writeBeU32_ok 0xffffffff (show pageCountOffset + 4 ≤ h.length by rw [pageCountOffset]; omega)
  refine ⟨(v.set 0xffffffff (List.replicate O.pageSize.toNat 0)).set 1
      (writeAt h (be32 0xffffffff) pageCountOffset), _, Heap.runs_fields L hv hf ?_, View.set_self _ _ _,
    hs.length ▸ hl, hf.setPageCount _⟩
  rw [if_pos rfl, show saturatingSucc 0xffffffff = 0xffffffff from rfl]
  exact (L.insertPage _ _ _).bind ((L.edit hv' hwrite).bind (.pure _))

theorem Grown.allocatePage (L : O.Lawful A) (hO : O.pageSize = ps) {k₀ d : Nat} (h : Grown ps n₀ k₀ d v) :
    ∃ p v', Action.Runs A O.allocatePage v (.ok p) v' ∧ p ≠ 1 ∧ Grown ps n₀ k₀ (d + 1) v' := by
  rcases h with ⟨n, used, free, hh, hn, hd⟩ | ⟨h, count, hv, hl, hf⟩
  · obtain ⟨p, v', n', free', hr, ha⟩ := hh.allocatePage L hO fun _ => hn
    have hp : p ≠ 1 := ha.heap.ne_one (List.mem_append_left _ List.mem_cons_self)
    refine ⟨p, v', hr, hp, ?_⟩
    rcases ha.source with ⟨rfl, hperm⟩ | ⟨rfl, rfl, rfl⟩
    · have hlen := hperm.length_eq
      rw [List.length_cons] at hlen
      exact .inl ⟨n', _, free', ha.heap, hn, by omega⟩
    · by_cases hlast : n + 1 = 0xffffffff
      · obtain ⟨b, trunk, hb, hf, hc⟩ := ha.heap.header
        have hbl := ha.heap.header_length hb
        have hps := ha.heap.pageSize_ge
        rw [hlast] at hf
        cases hc with
        | nil => exact .inr ⟨b, _, hb, by omega, hf⟩
      · refine .inl ⟨n + 1, _, [], ha.heap, hlast, ?_⟩
        have hne : n.toNat ≠ 4294967295 := fun he => hn (UInt32.toNat_inj.1 he)
        have := n.toNat_lt
        rw [UInt32.toNat_add, UInt32.toNat_one]
        simp only [List.length_nil] at hd ⊢
        omega
  · obtain ⟨v', h', hr, hv', hl', hf'⟩ := allocatePage_last L hv hl hf
    exact ⟨_, v', hr, by decide, .inr ⟨h', count, hv', hl', hf'⟩⟩

theorem Grown.allocatePages (L : O.Lawful A) (hO : O.pageSize = ps) {k₀ : Nat} (k d : Nat)
    (h : Grown ps n₀ k₀ d v) :
    ∃ pages v', Action.Runs A (Btree.allocatePages O k) v (.ok pages) v' ∧ (∀ p ∈ pages, p ≠ 1) ∧
      Grown ps n₀ k₀ (d + k) v' := by
  induction k generalizing v d with
  | zero => exact ⟨[], v, .pure _, by simp, h⟩
  | succ k ih =>
    obtain ⟨p, v₁, hr, hp, hg⟩ := h.allocatePage L hO
    obtain ⟨pages, v₂, hrs, hps, hg₂⟩ := ih (d + 1) hg
    refine ⟨p :: pages, v₂, (hr.mapError _).bind (hrs.bind (.pure _)), ?_, ?_⟩
    · intro q hq
      rcases List.mem_cons.1 hq with hq | hq
      · exact hq ▸ hp
      · exact hps q hq
    · rwa [Nat.add_right_comm, Nat.add_assoc] at hg₂

theorem onPage_keeps_one {α : Type} (L : O.Lawful A) (b : Option Bytes) {p : UInt32} (hp : p ≠ 1) (f : Edit α) :
    Action.Keeps (fun s => ∃ v, A s v ∧ v 1 = b) (onPage O p f) := by
  have hput : ∀ c, Action.Keeps (fun s => ∃ v, A s v ∧ v 1 = b) (pagerCall (O.putPage p c)) := by
    rintro c s ⟨v, hs, hv⟩
    obtain ⟨s', hx, hs'⟩ := L.putPage v p c s hs
    refine ⟨v.set p c, ?_, (View.set_of_ne v c hp.symm).trans hv⟩
    rw [pagerCall, Action.exec_mapError, hx]
    exact hs'
  refine .bind ?_ fun buf => .bind (hput _) fun _ => .ofExcept _ _
  rintro s ⟨v, hs, hv⟩
  exact ⟨v, getPage_keeps L v p s hs, hv⟩

theorem writeOverflowPages_keeps (L : O.Lawful A) (b : Option Bytes) (pages : List UInt32) (chunks : List Bytes)
    (hp : ∀ p ∈ pages, p ≠ 1) :
    Action.Keeps (fun s => ∃ v, A s v ∧ v 1 = b) (writeOverflowPages O pages chunks) := by
  induction chunks generalizing pages with
  | nil =>
    unfold writeOverflowPages
    exact .pure _
  | cons c chunks ih =>
    cases pages with
    | nil => exact .throw _
    | cons p pages =>
      exact .bind (onPage_keeps_one L b (hp p List.mem_cons_self) _) fun _ =>
        ih pages fun q hq => hp q (List.mem_cons_of_mem _ hq)

theorem chunksOf_ne_nil (available : Nat) {data : Bytes} (h : data.isEmpty = false) :
    1 ≤ (chunksOf available data.length data).length := by
  cases data with
  | nil => cases h
  | cons b data => rw [List.length_cons, chunksOf, h]; simp

/-- An overflow chain leaves another header behind. -/
theorem writeOverflowChain_header (L : O.Lawful A) (hO : O.pageSize = ps) {n : UInt32} {used free : List UInt32}
    (hh : Heap ps v n used free) (hn : n ≠ 0xffffffff) {us : Nat} {data : Bytes} (hdata : data.isEmpty = false)
    {s s' : σ} {first : UInt32} (hs : A s v)
    (hx : Action.exec (writeOverflowChain O us data) s = (.ok first, s')) :
    ∃ v', A s' v' ∧ v' 1 ≠ v 1 := by
  have hg : Grown ps n free.length 0 v := .inl ⟨n, used, free, hh, hn, by omega⟩
  obtain ⟨pages, v₁, hr, hp, hg₁⟩ := hg.allocatePages L hO (chunksOf (max (us - 4) 1) data.length data).length 0
  obtain ⟨s₁, hx₁, hs₁⟩ := hr s hs
  have hw := writeOverflowPages_keeps L (v₁ 1) pages (chunksOf (max (us - 4) 1) data.length data) hp s₁
    ⟨v₁, hs₁, rfl⟩
  rw [writeOverflowChain, Action.exec_bind_ok hx₁, Action.exec_bind] at hx
  revert hx hw
  cases Action.exec (writeOverflowPages O pages (chunksOf (max (us - 4) 1) data.length data)) s₁ with
  | mk r s₂ =>
    cases r with
    | error e => exact fun h _ => nomatch h
    | ok u =>
      rintro hx ⟨v', hs', hv'⟩
      cases hx
      refine ⟨v', hs', fun he => ?_⟩
      obtain ⟨b, trunk, hb, hf, -⟩ := hh.header
      have hv₁ : v₁ 1 = some b := hv'.symm.trans (he.trans hb)
      have hlen := chunksOf_ne_nil (max (us - 4) 1) hdata
      -- The header of the grown database counts differently in one of the two fields.
      have hcount : ∀ {n' t' c' : UInt32}, HeaderFields b n' t' c' → n' = n ∧ c' = UInt32.ofNat free.length := by
        intro n' t' c' hf'
        have e₁ := (readBeU32_of_holds hf'.pageCount).symm.trans (readBeU32_of_holds hf.pageCount)
        have e₂ := (readBeU32_of_holds hf'.freeCount).symm.trans (readBeU32_of_holds hf.freeCount)
        cases e₁
        cases e₂
        exact ⟨rfl, rfl⟩
      rcases hg₁ with ⟨n', used', free', hh', -, hd⟩ | ⟨b', c', hb', -, hf'⟩
      · obtain ⟨b', t', hb', hf', -⟩ := hh'.header
        rw [hv₁] at hb'
        cases hb'
        obtain ⟨rfl, hc⟩ := hcount hf'
        have := congrArg UInt32.toNat hc
        rw [UInt32.toNat_ofNat', UInt32.toNat_ofNat', Nat.mod_eq_of_lt hh'.free_length_lt,
          Nat.mod_eq_of_lt hh.free_length_lt] at this
        omega
      · rw [hv₁] at hb'
        cases hb'
        exact hn (hcount hf').1.symm

end

/-! ## Refused rows -/

/-- **What a refused row leaves behind**, in a database of at most `2^32 - 2`
pages (the limit of the file format) whose pages are accounted for. A
deletion that does not find its rowid changes no page. An insertion whose
rowid is already there changes no page if and only if its payload needs no
overflow page. -/
theorem refused_row_frame (s : Conn) (hc : CacheOk s) (n : UInt32) (used free : List UInt32)
    (hh : Heap s.pager.pageSize s.pages n used free) (hn : n ≠ 0xffffffff) (header : DatabaseHeader)
    (root : UInt32) (rowid : Int64) :
    (∀ payload s', Action.exec (insertRow (connOps s.pager.pageSize) header root rowid payload) s =
        (.error (.duplicateRowid rowid), s') →
      (s'.pages = s.pages ↔ payload.length ≤ maxLocal header.usablePageSize false)) ∧
    ∀ s', Action.exec (deleteRow (connOps s.pager.pageSize) header root rowid) s =
        (.error (.rowidNotFound rowid), s') → s'.pages = s.pages := by
  have hs : Shows s.pager.pageSize s s.pages := ⟨hc, rfl, rfl⟩
  have L := conn_lawful s.pager.pageSize
  refine ⟨fun payload s' hx => ?_, fun s' hx => ?_⟩
  · obtain ⟨cell, s₁, henc, hkeep⟩ := insertRow_refused L hx trivial
    rw [← overflowBytes_isEmpty]
    unfold encodeLeafCell at henc
    dsimp only at henc
    cases hemp : (payload.drop (min (localPayloadSize header.usablePageSize payload.length false)
        payload.length)).isEmpty with
    | true =>
      rw [hemp, if_pos rfl] at henc
      cases henc
      exact iff_of_true (hkeep _ hs).2.2 rfl
    | false =>
      rw [hemp, if_neg Bool.false_ne_true, Action.exec_bind] at henc
      refine iff_of_false ?_ Bool.false_ne_true
      revert henc
      cases hchain : Action.exec (writeOverflowChain (connOps s.pager.pageSize) header.usablePageSize
          (payload.drop (min (localPayloadSize header.usablePageSize payload.length false) payload.length))) s with
      | mk r s₂ =>
        cases r with
        | error e => exact fun h => nomatch h
        | ok first =>
          intro henc
          cases henc
          obtain ⟨v', hs', hne⟩ := writeOverflowChain_header L rfl hh hn hemp hs hchain
          rw [(hkeep _ hs').2.2]
          exact fun he => hne (congrFun he 1)
  · have hk := deleteRow_keepsOn L s.pages header root rowid s _ hs (congrArg Prod.fst hx) trivial
    rw [hx] at hk
    exact hk.2.2

/-- A header that counts two pages, without free ones. -/
def twoPagesHeader : Bytes := List.replicate 28 0 ++ (be32 2 ++ List.replicate 480 0)

/-- A leaf with one row: rowid 1, the payload is one byte. -/
def oneRowLeaf : Bytes := [0x0d, 0, 0, 0, 1, 1, 253, 0, 1, 253] ++ List.replicate 499 0 ++ [1, 1, 7]

/-- A fresh connection to a table at page 2 with one row. -/
def oneRowDb : Conn := Conn.ofFile 512 (twoPagesHeader ++ oneRowLeaf)

/-- Rowid 1 is refused for a payload of 1000 bytes, and the two pages of its
overflow chain stay allocated. -/
theorem refused_insert_allocates :
    (Action.exec (insertRow (connOps 512) ⟨512, 0⟩ 2 1 (List.replicate 1000 7)) oneRowDb).1 =
        .error (.duplicateRowid 1) ∧
      oneRowDb.pageCount = some 2 ∧
      (Action.exec (insertRow (connOps 512) ⟨512, 0⟩ 2 1 (List.replicate 1000 7)) oneRowDb).2.pageCount = some 4 := by
  decide +kernel

theorem oneRowDb_heap : Heap 512 oneRowDb.pages 2 [2] [] :=
  heap_ofFile (h := twoPagesHeader) (by decide) (by decide +kernel) (by decide) (by decide +kernel)
    ⟨by decide +kernel, by decide +kernel, by decide +kernel⟩

/-- A refused row of one byte leaves the pages of the table alone, and so
does the deletion of a row that is not there. -/
theorem oneRow_refused :
    (Action.exec (insertRow (connOps 512) ⟨512, 0⟩ 2 1 [9]) oneRowDb).2.pages = oneRowDb.pages ∧
      (Action.exec (deleteRow (connOps 512) ⟨512, 0⟩ 2 5) oneRowDb).2.pages = oneRowDb.pages := by
  have hins : (Action.exec (insertRow (connOps 512) ⟨512, 0⟩ 2 1 [9]) oneRowDb).1 =
      .error (.duplicateRowid 1) := by decide +kernel
  have hdel : (Action.exec (deleteRow (connOps 512) ⟨512, 0⟩ 2 5) oneRowDb).1 =
      .error (.rowidNotFound 5) := by decide +kernel
  have h₁ := refused_row_frame oneRowDb (cacheOk_ofFile _ _) 2 [2] [] oneRowDb_heap (by decide) ⟨512, 0⟩ 2 1
  have h₅ := refused_row_frame oneRowDb (cacheOk_ofFile _ _) 2 [2] [] oneRowDb_heap (by decide) ⟨512, 0⟩ 2 5
  exact ⟨(h₁.1 [9] _ (Action.exec_eq hins)).2 (by decide), h₅.2 _ (Action.exec_eq hdel)⟩

end DbStorage.Btree
