import DbStorage.Btree.Overflow

/-!
# Runs of calls on one leaf page (`btree/mod.rs`)

`write_leaf_page` lays a page out anew; `splice_insert_cell` and
`splice_delete_cell` edit it in place. A run is any sequence of these calls
from a `write_leaf_page` on, with well-formed cells; next to the page goes a
list of cells with `insertIdx` and `eraseIdx`.

Results: `call_keeps` (what one call preserves) and `calls_keep_layout` (every
page that a run reaches): the page has the cells of the list, everything on it
has bytes of its own, the freeblocks are in order and do not touch, and what
stands before the header is as it was.

On a page with more than 10,000 freeblocks `splice_delete_cell` ends with
`TraversalTooLong`; the cell has been removed by then, its bytes are not given
back, and all of this still holds.
-/
namespace DbStorage.Btree
open Bytes Pager Record List

theorem insertIdx_append_length {α : Type} (pre post : List α) (x : α) :
    (pre ++ post).insertIdx pre.length x = pre ++ x :: post := by
  induction pre with
  | nil => rfl
  | cons y pre ih => exact congrArg (y :: ·) ih

/-! ## Calls -/

/-- The calls on a leaf page, without the arguments that stay the same. -/
inductive PageCall where
  | writeLeafPage (cells : List Bytes)
  | spliceInsertCell (index : Nat) (cell : Bytes)
  | spliceDeleteCell (index : Nat)

section
variable (hs : Nat) (p : UInt32) (us : Nat) (hasRowid : Bool)

/-- The call as an edit of the page; only an insertion has a result. -/
def PageCall.edit : PageCall → Edit Bool
  | .writeLeafPage cells => do
    Btree.writeLeafPage hs p cells
    return true
  | .spliceInsertCell index cell => Btree.spliceInsertCell hs p index cell
  | .spliceDeleteCell index => do
    Btree.spliceDeleteCell hs p us index hasRowid
    return true

/-- The result of a call and the page after it. -/
def PageCall.exec (call : PageCall) (b : Bytes) : Except BtreeError Bool × Bytes :=
  Action.exec (call.edit hs p us hasRowid) b

/-- What the call does to the list of cells: `write_leaf_page` refuses cells
that do not fit, and an insertion may find no room. -/
def PageCall.reference : PageCall → Except BtreeError Bool → List Bytes → List Bytes
  | .writeLeafPage new, .ok _, _ => new
  | .spliceInsertCell index cell, .ok true, cells => cells.insertIdx index cell
  | .spliceDeleteCell index, _, cells => cells.eraseIdx index
  | _, _, cells => cells

/-- The head of the cell says how long it is: a table's cell if the calls are
for a table, an index's value else. -/
def WellFormed (c : Bytes) : Prop :=
  if hasRowid then ∃ rowid len tail, TableCell us rowid c len tail else ∃ len tail, IndexCell us c len tail

/-- The cells of the call are well-formed, and it inserts at a position there is. -/
def PageCall.Valid (cells : List Bytes) : PageCall → Prop
  | .writeLeafPage new => ∀ c ∈ new, WellFormed us hasRowid c
  | .spliceInsertCell index cell => index ≤ cells.length ∧ WellFormed us hasRowid cell
  | .spliceDeleteCell _ => True

/-- The pages that runs of calls reach from `b₀`, with the reference list. -/
inductive Reached (b₀ : Bytes) : Bytes → List Bytes → Prop where
  | start {cells : List Bytes} {b : Bytes} : (∀ c ∈ cells, WellFormed us hasRowid c) →
      (PageCall.writeLeafPage cells).exec hs p us hasRowid b₀ = (.ok true, b) → Reached b₀ b cells
  | call {b b' : Bytes} {cells : List Bytes} {r : Except BtreeError Bool} (call : PageCall) : Reached b₀ b cells →
      call.Valid us hasRowid cells → call.exec hs p us hasRowid b = (r, b') → Reached b₀ b' (call.reference r cells)

end

/-! ## The layout -/

/-- The pointer array, the cells and the freeblocks, as ranges. -/
def regions (hs : Nat) (placed : List (Nat × Bytes)) (blocks : List (Nat × Nat)) : List (Nat × Nat) :=
  (hs + 8, 2 * placed.length) :: (placed.map extent ++ blocks)

/-- A leaf page with these cells, all of them well-formed, and with freeblocks
that do not touch. -/
structure Laid (hs us : Nat) (hasRowid : Bool) (cells : List Bytes) (b : Bytes) (placed : List (Nat × Bytes))
    (blocks : List (Nat × Nat)) (cs : Nat) : Prop where
  cells_eq : placed.map Prod.snd = cells
  held : Cells hs 8 leafTable placed b
  space : Space hs placed blocks cs b
  tidy : Tidy blocks
  formed : ∀ c ∈ cells, WellFormed us hasRowid c

section
variable {hs us cs : Nat} {p : UInt32} {hasRowid : Bool} {cells : List Bytes} {b b' : Bytes}
  {placed : List (Nat × Bytes)} {blocks : List (Nat × Nat)}

theorem WellFormed.ne_nil {c : Bytes} (h : WellFormed us hasRowid c) : c ≠ [] := by
  rintro rfl
  cases hasRowid with
  | true =>
    obtain ⟨rowid, len, tail, hc⟩ := h
    exact nomatch hc.head
  | false =>
    obtain ⟨len, tail, hc⟩ := h
    exact nomatch hc.head

/-- The head of a well-formed cell is read on a page as it is alone. -/
theorem WellFormed.decode {c : Bytes} (h : WellFormed us hasRowid c) {o : Nat} (hb : Holds b o c) :
    ∃ len tail, (if hasRowid then Prod.snd <$> decodeCellHead b o p else decodePayloadLen b o p) = .ok (len, o + tail) ∧
      cellEnd us tail len (!hasRowid) = c.length := by
  have hne := h.ne_nil
  cases hasRowid with
  | true =>
    obtain ⟨rowid, len, tail, hc⟩ := h
    refine ⟨len, tail, ?_, hc.length.symm⟩
    rw [if_pos rfl, (decodeCellHead_at hb hne hc.head).1]
    rfl
  | false =>
    obtain ⟨len, tail, hc⟩ := h
    exact ⟨len, tail, (decodePayloadLen_at hb hne hc.head).1, hc.length.symm⟩

theorem Laid.regions_apart (h : Laid hs us hasRowid cells b placed blocks cs) :
    (regions hs placed blocks).Pairwise Apart ∧ ∀ x ∈ regions hs placed blocks, x.1 + x.2 ≤ b.length := by
  have hroom := h.space.room
  have hstart := h.space.start_le
  have hcells : ∀ x ∈ placed.map extent, cs ≤ x.1 ∧ x.1 + x.2 ≤ b.length := by
    intro x hx
    obtain ⟨c, hc, rfl⟩ := mem_map.1 hx
    have := h.space.cells_inside c hc
    exact ⟨this.1, this.2.1⟩
  have hblocks : ∀ x ∈ blocks, cs ≤ x.1 ∧ x.1 + x.2 ≤ b.length := fun x hx =>
    ⟨(h.space.free.inside x hx).1, (h.space.free.inside x hx).2.1⟩
  have hall : ∀ x ∈ placed.map extent ++ blocks, cs ≤ x.1 ∧ x.1 + x.2 ≤ b.length := fun x hx =>
    (mem_append.1 hx).elim (hcells x) (hblocks x)
  refine ⟨pairwise_cons.2 ⟨fun x hx => .inl ?_, pairwise_append.2 ⟨?_, ?_, ?_⟩⟩,
    forall_mem_cons.2 ⟨by dsimp only; omega, fun x hx => (hall x hx).2⟩⟩
  · exact Nat.le_trans hroom (hall x hx).1
  · exact pairwise_map.2 h.space.cells_apart
  · exact h.tidy.imp fun hlt => .inl (Nat.le_of_lt hlt)
  · intro x hx y hy
    obtain ⟨c, hc, rfl⟩ := mem_map.1 hx
    exact h.space.cross c hc y hy

end

/-! ## One call -/

section
variable {hs us cs : Nat} {p : UInt32} {hasRowid : Bool} {cells : List Bytes} {b b' : Bytes}
  {placed : List (Nat × Bytes)} {blocks : List (Nat × Nat)}

theorem Edit.Does.exec {α : Type} {f : Edit α} {Q : α → Bytes → Prop} (h : Edit.Does True f b Q) :
    ∃ a b', Action.exec f b = (.ok a, b') ∧ Q a b' := by
  have hm := h b rfl
  revert hm
  cases Action.exec f b with
  | mk r b' =>
    cases r with
    | ok a =>
      rintro ⟨v, rfl, hq⟩
      exact ⟨a, _, rfl, hq⟩
    | error e => exact fun ht => absurd trivial ht

theorem exec_then_true {f : Edit Unit} {r : Except BtreeError Unit} (h : Action.exec f b = (r, b')) :
    Action.exec (do f; return true) b = (r.map fun _ => true, b') := by
  cases r with
  | ok a =>
    rw [Action.exec_bind_ok h]
    rfl
  | error e => exact Action.exec_bind_error h

/-- The page after a call, with the list that belongs to it. -/
def PageAfter (hs us : Nat) (hasRowid : Bool) (b : Bytes) (cells : List Bytes) (b' : Bytes) : Prop :=
  SameOutside hs b.length b b' ∧ ∃ placed blocks cs, Laid hs us hasRowid cells b' placed blocks cs

theorem writeLeafPage_exec (hlen : b.length ≤ 65536) {new : List Bytes} (hnew : ∀ c ∈ new, WellFormed us hasRowid c) :
    (PageCall.writeLeafPage new).exec hs p us hasRowid b = (.error (.internal "cells do not fit in page"), b) ∨
      ∃ b', (PageCall.writeLeafPage new).exec hs p us hasRowid b = (.ok true, b') ∧
        PageAfter hs us hasRowid b new b' := by
  by_cases hfit : b.length < neededBytes (hs + 8) new
  · left
    have hrefused : Action.exec (writeLeafPage hs p new) b = (.error (.internal "cells do not fit in page"), b) := by
      rw [writeLeafPage, writePageCommon, Action.exec_bind_ok (show Action.exec get b = (.ok b, b) from rfl), if_pos hfit]
      rfl
    exact exec_then_true hrefused
  · right
    have hdoes : Edit.Does True (writePageCommon hs p leafTable 8 new) b _ :=
      writePageCommon_does (Nat.le_refl 8) (fun c hc => (hnew c hc).ne_nil) hlen fun _ => Nat.not_lt.1 hfit
    obtain ⟨_, b', hexec, -, hsame, placed, cs, hcells, -, hc, hsp⟩ := hdoes.exec
    exact ⟨b', exec_then_true hexec, hsame, placed, [], cs, hcells, hc, hsp, .nil, hnew⟩

theorem spliceInsertCell_exec (h : Laid hs us hasRowid cells b placed blocks cs) {index : Nat} {cell : Bytes}
    (hi : index ≤ cells.length) (hcell : WellFormed us hasRowid cell) :
    (PageCall.spliceInsertCell index cell).exec hs p us hasRowid b = (.ok false, b) ∨
      ∃ b', (PageCall.spliceInsertCell index cell).exec hs p us hasRowid b = (.ok true, b') ∧
        PageAfter hs us hasRowid b (cells.insertIdx index cell) b' := by
  obtain ⟨rfl, hc, hsp, htidy, hformed⟩ := h
  rw [length_map] at hi
  obtain ⟨pre, post, rfl, rfl⟩ : ∃ pre post, placed = pre ++ post ∧ pre.length = index :=
    ⟨placed.take index, placed.drop index, (take_append_drop index placed).symm,
      length_take_of_le hi⟩
  obtain ⟨r, b', hexec, hr⟩ := (spliceInsert_placed (p := p) hc hsp hcell.ne_nil).exec
  cases r with
  | false =>
    rw [if_neg Bool.false_ne_true] at hr
    exact .inl (hr ▸ hexec)
  | true =>
    rw [if_pos rfl] at hr
    obtain ⟨hsame, hc', hsp'⟩ := hr
    have hlist : ((pre ++ post).map Prod.snd).insertIdx pre.length cell =
        (pre ++ (cs - cell.length, cell) :: post).map Prod.snd := by
      rw [map_append, ← length_map Prod.snd, insertIdx_append_length, map_append, map_cons]
    refine .inr ⟨b', hexec, hsame, _, blocks, _, hlist.symm, hc', hsp', htidy, fun c hm => ?_⟩
    rw [hlist, map_append, map_cons, mem_append_cons_iff] at hm
    obtain rfl | hm := hm
    · exact hcell
    · exact hformed c (by rwa [map_append])

/-- A walk over too many freeblocks ends the call; it has not edited anything. -/
theorem freeRange_tooLong {o n : Nat} (hsp : Space hs placed blocks cs b)
    (h : ¬ (blocks.length ≤ maxFreeblocks ∨ o ≠ cs ∧ n < minFreeblockSize)) :
    Action.exec (freeRange hs p o (o + n)) b = (.error (.traversalTooLong maxFreeblocks), b) := by
  obtain ⟨hmany, hbig⟩ := not_or.1 h
  have hstart : Action.exec (Edit.read fun buf => readContentStart buf hs p) b = (.ok cs, b) := by
    rw [Edit.read, Action.exec_ofFn, hsp.readContentStart]
  have hwalk : Action.exec (Edit.read fun buf => walkFreeblocks buf hs p) b =
      (.error (.traversalTooLong maxFreeblocks), b) := by
    rw [Edit.read, Action.exec_ofFn, hsp.walkFreeblocks, if_neg hmany]
  rw [freeRange, Action.exec_bind_ok hstart, Nat.add_sub_cancel_left]
  split
  · exact Action.exec_bind_error hwalk
  · rename_i ho
    rw [if_neg fun hn => hbig ⟨ho, hn⟩]
    exact Action.exec_bind_error hwalk

/-- The cell is removed whether or not its bytes could be given back. -/
theorem spliceDeleteCell_exec (h : Laid hs us hasRowid cells b placed blocks cs) (index : Nat) :
    ∃ r b', (PageCall.spliceDeleteCell index).exec hs p us hasRowid b = (r, b') ∧
      PageAfter hs us hasRowid b (cells.eraseIdx index) b' := by
  obtain ⟨rfl, hc, hsp, htidy, hformed⟩ := h
  by_cases hi : index < placed.length
  · obtain ⟨pre, c, post, rfl, rfl⟩ : ∃ pre c post, placed = pre ++ c :: post ∧ pre.length = index :=
      ⟨placed.take index, placed[index], placed.drop (index + 1), by simp, length_take_of_le (by omega)⟩
    have hlist : ((pre ++ c :: post).map Prod.snd).eraseIdx pre.length = (pre ++ post).map Prod.snd := by
      rw [map_append, ← length_map Prod.snd, eraseIdx_append_of_length_le (Nat.le_refl _)]
      simp
    have hrest : ∀ d ∈ (pre ++ post).map Prod.snd, WellFormed us hasRowid d := by
      intro d hd
      refine hformed d (map_subset _ ?_ hd)
      exact ((List.Sublist.refl pre).append (sublist_cons_self c post)).subset
    obtain ⟨len, tail, hdec, hend⟩ := (hformed c.2 (by simp)).decode (p := p) (hc.cell c (by simp))
    have hend' : cellEnd us (c.1 + tail) len (!hasRowid) = c.1 + c.2.length := by rw [cellEnd_add, hend]
    by_cases hcap : blocks.length ≤ maxFreeblocks ∨ c.1 ≠ cs ∧ c.2.length < minFreeblockSize
    · obtain ⟨_, b', hexec, hsame, hc', blocks', cs', hsp', htidy'⟩ :=
        (spliceDelete_placed (p := p) hc hsp hdec hend' fun _ => hcap).exec
      exact ⟨_, b', exec_then_true hexec, hsame, _, blocks', cs', hlist.symm, hc', hsp', htidy' htidy, hlist ▸ hrest⟩
    · obtain ⟨range, b', hexec, rfl, hsame, hc', hsp', -⟩ := (takeOutCell_does (p := p) hc hsp hdec hend').exec
      have hdelete : Action.exec (spliceDeleteCell hs p us pre.length hasRowid) b =
          (.error (.traversalTooLong maxFreeblocks), b') := by
        rw [spliceDeleteCell_eq, Action.exec_bind_ok hexec]
        exact freeRange_tooLong hsp' hcap
      exact ⟨_, b', exec_then_true hdelete, hsame, _, blocks, cs, hlist.symm, hc', hsp', htidy, hlist ▸ hrest⟩
  · have hcount : Action.exec (Edit.read fun buf => readNumCells buf hs p) b = (.ok placed.length, b) := by
      rw [Edit.read, Action.exec_ofFn, hc.readNumCells]
    have hdelete : Action.exec (spliceDeleteCell hs p us index hasRowid) b =
        (.error (.internal "splice_delete_cell: index out of bounds"), b) := by
      rw [spliceDeleteCell, Action.exec_bind_ok hcount, if_pos (Nat.not_lt.1 hi)]
      rfl
    refine ⟨_, b, exec_then_true hdelete, .refl .., placed, blocks, cs, ?_, hc, hsp, htidy, ?_⟩
    · rw [eraseIdx_of_length_le (by rw [length_map]; exact Nat.not_lt.1 hi)]
    · rwa [eraseIdx_of_length_le (by rw [length_map]; exact Nat.not_lt.1 hi)]

theorem call_keeps (h : Laid hs us hasRowid cells b placed blocks cs) {call : PageCall} {r : Except BtreeError Bool}
    (hvalid : call.Valid us hasRowid cells) (hexec : call.exec hs p us hasRowid b = (r, b')) :
    PageAfter hs us hasRowid b (call.reference r cells) b' := by
  have hsame : PageAfter hs us hasRowid b cells b := ⟨.refl .., placed, blocks, cs, h⟩
  cases call with
  | writeLeafPage new =>
    obtain hw | ⟨b₁, hw, hafter⟩ := writeLeafPage_exec (p := p) h.space.length_le hvalid
    · cases hw.symm.trans hexec
      exact hsame
    · cases hw.symm.trans hexec
      exact hafter
  | spliceInsertCell index cell =>
    obtain hw | ⟨b₁, hw, hafter⟩ := spliceInsertCell_exec (p := p) h hvalid.1 hvalid.2
    · cases hw.symm.trans hexec
      exact hsame
    · cases hw.symm.trans hexec
      exact hafter
  | spliceDeleteCell index =>
    obtain ⟨r₁, b₁, hw, hafter⟩ := spliceDeleteCell_exec (p := p) h index
    cases hw.symm.trans hexec
    exact hafter

end

/-! ## Runs -/

theorem Reached.laid {hs us : Nat} {p : UInt32} {hasRowid : Bool} {b₀ b : Bytes} {cells : List Bytes}
    (hlen : b₀.length ≤ 65536) (h : Reached hs p us hasRowid b₀ b cells) : PageAfter hs us hasRowid b₀ cells b := by
  induction h with
  | start hformed hexec =>
    obtain hw | ⟨b₁, hw, hafter⟩ := writeLeafPage_exec (p := p) hlen hformed
    · cases hw.symm.trans hexec
    · cases hw.symm.trans hexec
      exact hafter
  | call call _ hvalid hexec ih =>
    obtain ⟨hsame, placed, blocks, cs, hlaid⟩ := ih
    obtain ⟨hsame', hlaid'⟩ := call_keeps hlaid hvalid hexec
    rw [hsame.length] at hsame'
    exact ⟨hsame.trans hsame', hlaid'⟩

/-- **Every page that calls reach.** Its cells are those of the reference list;
the pointer array, the cells and the freeblocks have bytes of their own inside
the page; the chain of freeblocks is ascending, no two of them touch and none
starts before the content; the bytes before the header are those of the
start; and an insertion that finds no room leaves every byte. -/
theorem calls_keep_layout {hs us : Nat} {p : UInt32} {hasRowid : Bool} {b₀ b : Bytes} {cells : List Bytes}
    (hlen : b₀.length ≤ 65536) (h : Reached hs p us hasRowid b₀ b cells) :
    b.take hs = b₀.take hs ∧
    (∀ index cell b', index ≤ cells.length → WellFormed us hasRowid cell →
      (PageCall.spliceInsertCell index cell).exec hs p us hasRowid b = (.ok false, b') → b' = b) ∧
    ∃ placed blocks cs, placed.map Prod.snd = cells ∧ Cells hs 8 leafTable placed b ∧
      Holds b (hs + 1) (be16 (firstOffset blocks)) ∧ Chained b blocks ∧ Holds b (hs + 5) (be16 (storedOffset cs)) ∧
      (regions hs placed blocks).Pairwise Apart ∧ (∀ x ∈ regions hs placed blocks, x.1 + x.2 ≤ b.length) ∧
      (blocks.Pairwise fun x y => x.1 + x.2 < y.1) ∧ ∀ x ∈ blocks, cs ≤ x.1 := by
  obtain ⟨hsame, placed, blocks, cs, hlaid⟩ := h.laid hlen
  obtain ⟨hapart, hinside⟩ := hlaid.regions_apart
  refine ⟨hsame.take, fun index cell b' hi hcell hexec => ?_, placed, blocks, cs, hlaid.cells_eq, hlaid.held,
    hlaid.space.first, hlaid.space.chain, hlaid.space.start, hapart, hinside, hlaid.tidy,
    fun x hx => (hlaid.space.free.inside x hx).1⟩
  obtain hw | ⟨b₁, hw, -⟩ := spliceInsertCell_exec (p := p) hlaid hi hcell
  · cases hw.symm.trans hexec
    rfl
  · cases hw.symm.trans hexec

/-- A row of rowid 5 is written, one of rowid 3 put before it, and the first
removed again. -/
theorem small_page_laid :
    ∃ b, Reached 4 2 512 true (List.replicate 40 7) b [[2, 3, 8, 8]] ∧ b.take 4 = [7, 7, 7, 7] ∧
      ∃ blocks cs, Chained b blocks ∧ ∀ x ∈ blocks, cs ≤ x.1 := by
  have hfive : WellFormed 512 true [1, 5, 9] := ⟨5, 1, 2, by decide, by decide⟩
  have hthree : WellFormed 512 true [2, 3, 8, 8] := ⟨3, 2, 2, by decide, by decide⟩
  have h₁ : (PageCall.writeLeafPage [[1, 5, 9]]).exec 4 2 512 true (List.replicate 40 7) = (.ok true,
      List.replicate 4 7 ++ [13, 0, 0, 0, 1, 0, 37, 0, 0, 37] ++ List.replicate 23 0 ++ [1, 5, 9]) := by decide +kernel
  have h₂ : (PageCall.spliceInsertCell 0 [2, 3, 8, 8]).exec 4 2 512 true
      (List.replicate 4 7 ++ [13, 0, 0, 0, 1, 0, 37, 0, 0, 37] ++ List.replicate 23 0 ++ [1, 5, 9]) = (.ok true,
      List.replicate 4 7 ++ [13, 0, 0, 0, 2, 0, 33, 0, 0, 33, 0, 37] ++ List.replicate 17 0 ++
        [2, 3, 8, 8, 1, 5, 9]) := by decide +kernel
  have h₃ : (PageCall.spliceDeleteCell 1).exec 4 2 512 true
      (List.replicate 4 7 ++ [13, 0, 0, 0, 2, 0, 33, 0, 0, 33, 0, 37] ++ List.replicate 17 0 ++
        [2, 3, 8, 8, 1, 5, 9]) = (.ok true,
      List.replicate 4 7 ++ [13, 0, 0, 0, 1, 0, 33, 3, 0, 33, 0, 37] ++ List.replicate 17 0 ++
        [2, 3, 8, 8, 0, 0, 0]) := by decide +kernel
  have hinsert := Reached.call (.spliceInsertCell 0 [2, 3, 8, 8]) (.start (by simpa using hfive) h₁)
    ⟨Nat.zero_le _, hthree⟩ h₂
  have hdelete := Reached.call (.spliceDeleteCell 1) hinsert trivial h₃
  obtain ⟨htake, -, -, blocks, cs, -, -, -, hchain, -, -, -, -, hcs⟩ := calls_keep_layout (by decide) hdelete
  exact ⟨_, hdelete, htake, blocks, cs, hchain, hcs⟩

end DbStorage.Btree
