import DbStorage.Btree.Table
import DbStorage.Core.PageWalk

/-!
# The table cursor (`btree/mod.rs`)

`TableCursor` reads the rows of a table in either direction and looks single
rows up; `count_table_rows` counts them.
-/
namespace DbStorage.Btree
open Bytes Pager Record PageWalk List

/-! ## Cursors -/

/-- mirrors btree/mod.rs:105-114 -/
structure Frame where
  pageNum : UInt32
  isInterior : Bool
  numCells : Nat
  cellPtrBase : Nat
  nextCell : Nat
  rightmost : UInt32
  rightmostDone : Bool
  page : Bytes

/-- mirrors btree/mod.rs:123-128 -/
structure CurrentCell where
  page : Bytes
  pageNum : UInt32
  tailStart : Nat
  payloadLen : Nat
  deriving DecidableEq

/-- The source's `stack` and `pages_visited` are `walk`.
mirrors btree/mod.rs:132-140 -/
structure TableCursor where
  usableSize : Nat
  rootPage : UInt32
  walk : Traversal Frame
  positionedReverse : Bool
  current : Option CurrentCell

/-- mirrors btree/mod.rs:145-155 -/
def TableCursor.new (header : DatabaseHeader) (rootPage : UInt32) : TableCursor :=
  ⟨header.usablePageSize, rootPage, ⟨[], 0⟩, false, none⟩

section
variable (source : PageSource)

/-- The frame of a page. The part of `push_page` behind the count of pages,
which is `Reader.push`.
mirrors btree/mod.rs:426-463 -/
def loadFrame (reverse : Bool) (pageNum : UInt32) : Except BtreeError Frame := do
  let page ← source.readPage pageNum
  let headerStart := page1HeaderStart pageNum
  let pageType ← readPageType page headerStart pageNum
  if pageType = leafTable then do
    let numCells ← readNumCells page headerStart pageNum
    .ok ⟨pageNum, false, numCells, headerStart + 8, if reverse then numCells else 0, 0, true, page⟩
  else if pageType = interiorTable then
    if page.length < headerStart + 12 then .error (.pageTooShort pageNum page.length)
    else do
      let numCells ← readNumCells page headerStart pageNum
      let rightmost ← readU32 page (headerStart + 8) pageNum
      .ok ⟨pageNum, true, numCells, headerStart + 12, if reverse then numCells else 0, rightmost, false, page⟩
  else .error (.unexpectedPageType pageNum pageType)

/-- mirrors btree/mod.rs:569-578 -/
def Frame.readInteriorChild (frame : Frame) (cellIndex : Nat) : Except BtreeError UInt32 := do
  let cellStart ← readCellPointer frame.page (cellPtrOffset frame.cellPtrBase cellIndex) frame.pageNum cellIndex
  readU32 frame.page cellStart frame.pageNum

/-- A leaf cell's rowid, and the cell as `current` keeps it. -/
def leafCell (page : Bytes) (ptrBase : Nat) (pageNum : UInt32) (i : Nat) : Except BtreeError (Int64 × CurrentCell) := do
  let cellStart ← readCellPointer page (cellPtrOffset ptrBase i) pageNum i
  let (rowid, payloadLen, tailStart) ← decodeCellHead page cellStart pageNum
  .ok (rowid, ⟨page, pageNum, tailStart, payloadLen⟩)

/-- mirrors btree/mod.rs:584-606 -/
def Frame.decodeLeafCell (frame : Frame) (cellIndex : Nat) : Except BtreeError (Int64 × CurrentCell) :=
  leafCell frame.page frame.cellPtrBase frame.pageNum cellIndex

/-- One turn of the loop in `advance`.
mirrors btree/mod.rs:489-507 -/
def Frame.turn (f : Frame) : Turn UInt32 (Int64 × CurrentCell) Frame BtreeError :=
  if !f.isInterior then
    if f.numCells ≤ f.nextCell then .pop
    else .yield { f with nextCell := f.nextCell + 1 } (f.decodeLeafCell f.nextCell)
  else if f.nextCell < f.numCells then .descend { f with nextCell := f.nextCell + 1 } (f.readInteriorChild f.nextCell)
  else if !f.rightmostDone then .descend { f with rightmostDone := true } (.ok f.rightmost)
  else .pop

/-- One turn of the loop in `advance_rev`.
mirrors btree/mod.rs:541-561 -/
def Frame.turnRev (f : Frame) : Turn UInt32 (Int64 × CurrentCell) Frame BtreeError :=
  if !f.isInterior then
    if f.nextCell = 0 then .pop
    else .yield { f with nextCell := f.nextCell - 1 } (f.decodeLeafCell (f.nextCell - 1))
  else if !f.rightmostDone then .descend { f with rightmostDone := true } (.ok f.rightmost)
  else if 0 < f.nextCell then .descend { f with nextCell := f.nextCell - 1 } (f.readInteriorChild (f.nextCell - 1))
  else .pop

/-- How a cursor walks, forward or in reverse. -/
def tableReader (reverse : Bool) : Reader UInt32 (Int64 × CurrentCell) Frame BtreeError where
  turn := if reverse then Frame.turnRev else Frame.turn
  load := loadFrame source reverse
  max := maxPagesVisited
  tooLong := .traversalTooLong maxPagesVisited

/-- The cursor after a walk: `current` is the cell of the row, nothing at the
end of the table, and as before after an error. -/
def TableCursor.moved (c : TableCursor) :
    Except BtreeError (Option (Int64 × CurrentCell)) × Traversal Frame → Except BtreeError (Option Int64) × TableCursor
  | (.error e, walk) => (.error e, { c with walk })
  | (.ok none, walk) => (.ok none, { c with walk, current := none })
  | (.ok (some (rowid, cell)), walk) => (.ok (some rowid), { c with walk, current := some cell })

/-- mirrors btree/mod.rs:163-169 -/
def TableCursor.first (c : TableCursor) : Except BtreeError (Option Int64) × TableCursor :=
  TableCursor.moved { c with positionedReverse := false } ((tableReader source false).start c.rootPage)

/-- mirrors btree/mod.rs:189-191 -/
def TableCursor.next (c : TableCursor) : Except BtreeError (Option Int64) × TableCursor :=
  c.moved ((tableReader source false).next c.walk)

/-- mirrors btree/mod.rs:208-214 -/
def TableCursor.last (c : TableCursor) : Except BtreeError (Option Int64) × TableCursor :=
  TableCursor.moved { c with positionedReverse := true } ((tableReader source true).start c.rootPage)

/-- mirrors btree/mod.rs:239-247 -/
def TableCursor.prev (c : TableCursor) : Except BtreeError (Option Int64) × TableCursor :=
  if !c.positionedReverse then
    (.error (.cursorNotPositioned "TableCursor::prev()" "TableCursor::last()"), c)
  else c.moved ((tableReader source true).next c.walk)

/-- mirrors btree/mod.rs:267-284 -/
def TableCursor.currentPayload (c : TableCursor) : Except BtreeError Bytes :=
  match c.current with
  | none => .error (.cursorNotPositioned "TableCursor::current_payload()"
      "first()/next()/last()/prev()/seek() returning Some(rowid)")
  | some cur => reassemblePayload source c.usableSize cur.pageNum cur.page cur.tailStart cur.payloadLen false

/-! ## Lookups -/

/-- A probe of the search in a leaf.
mirrors btree/mod.rs:324-347 -/
def probeLeaf (page : Bytes) (pageNum : UInt32) (target : Int64) (mid : Nat) :
    Except BtreeError (Probe (Int64 × CurrentCell) Unit) := do
  let (rowid, cell) ← leafCell page (page1HeaderStart pageNum + 8) pageNum mid
  .ok (if rowid = target then .found (rowid, cell) else if rowid < target then .right else .left ())

/-- A probe of the search in an interior page.
mirrors btree/mod.rs:362-384 -/
def probeInterior (page : Bytes) (pageNum : UInt32) (target : Int64) (mid : Nat) :
    Except BtreeError (Probe Empty UInt32) := do
  let cellStart ← readCellPointer page (cellPtrOffset (page1HeaderStart pageNum + 12) mid) pageNum mid
  let keyBytes ← tailFrom page (.invalidCellPointer pageNum mid) (cellStart + 4)
  let (key, _) ← decodeCellVarint pageNum keyBytes
  if target ≤ asI64 key then do
    let child ← readU32 page cellStart pageNum
    .ok (.left child)
  else .ok .right

/-- The row that the search in a leaf ends with. -/
def foundRow : (Int64 × CurrentCell) ⊕ Nat × Unit → Option (Int64 × CurrentCell)
  | .inl row => some row
  | .inr _ => none

/-- The child that the search in an interior page ends with. -/
def nextPage : Empty ⊕ Nat × UInt32 → UInt32
  | .inr (_, child) => child

/-- The pages from one on, with the number of pages that may still be read.
mirrors btree/mod.rs:298-395 -/
def seekFrom (target : Int64) : Nat → UInt32 → Except BtreeError (Option (Int64 × CurrentCell))
  | 0, _ => .error (.traversalTooLong maxPagesVisited)
  | budget + 1, pageNum => do
    let page ← source.readPage pageNum
    let headerStart := page1HeaderStart pageNum
    let pageType ← readPageType page headerStart pageNum
    let numCells ← readNumCells page headerStart pageNum
    if pageType = leafTable then do
      let r ← bisect (probeLeaf page pageNum target) numCells 0 numCells ()
      .ok (foundRow r)
    else if pageType = interiorTable then
      if page.length < headerStart + 12 then .error (.pageTooShort pageNum page.length)
      else do
        let rightmost ← readU32 page (headerStart + 8) pageNum
        let r ← bisect (probeInterior page pageNum target) numCells 0 numCells rightmost
        seekFrom target budget (nextPage r)
    else .error (.unexpectedPageType pageNum pageType)

/-- mirrors btree/mod.rs:290-396 -/
def TableCursor.seek (c : TableCursor) (target : Int64) : Except BtreeError (Option Int64) × TableCursor :=
  match seekFrom source target maxPagesVisited c.rootPage with
  | .error e => (.error e, { c with current := none })
  | .ok none => (.ok none, { c with current := none })
  | .ok (some (rowid, cell)) => (.ok (some rowid), { c with current := some cell })

/-! ## Counting -/

/-- `i64::saturating_add` of a page's number of cells. -/
def addCells (total : Int) (numCells : Nat) : Int := min (total + numCells) (2 ^ 63 - 1)

/-- The pages on a list and below them, with the visited pages and the total
so far. A turn visits a page, or comes to the end of a list; with the pages
bounded, so is the depth of the calls.
mirrors btree/mod.rs:988-1030 -/
def countTableRowsInner : Nat → List UInt32 → Nat → Int → Except BtreeError (Nat × Int)
  | _, [], visited, total => .ok (visited, total)
  | 0, _ :: _, _, _ => .error (.traversalTooLong maxPagesVisited)
  | fuel + 1, pageNum :: rest, visited, total =>
    if maxPagesVisited < visited + 1 then .error (.traversalTooLong maxPagesVisited)
    else do
      let buf ← source.readPage pageNum
      let headerStart := page1HeaderStart pageNum
      let pageType ← readPageType buf headerStart pageNum
      if pageType = leafTable then do
        let numCells ← readNumCells buf headerStart pageNum
        countTableRowsInner fuel rest (visited + 1) (addCells total numCells)
      else if pageType = interiorTable then do
        let (entries, rightmost) ← collectInteriorEntries buf headerStart pageNum
        let (visited, total) ← countTableRowsInner fuel (entries.map Prod.fst ++ [rightmost]) (visited + 1) total
        countTableRowsInner fuel rest visited total
      else .error (.unexpectedPageType pageNum pageType)

/-- mirrors btree/mod.rs:981-986 -/
def countTableRows (rootPage : UInt32) : Except BtreeError Int := do
  let (_, total) ← countTableRowsInner source (maxPagesVisited + 1) [rootPage] 0 0
  .ok total

end

/-! ## Tables -/

/-- The pages of a table as its readers decode them. -/
def cursorKind : PagedTree.Kind UInt32 Bytes (Int64 × CurrentCell) Int64 where
  leaf p page rows := readPageType page (page1HeaderStart p) p = .ok leafTable ∧
    readNumCells page (page1HeaderStart p) p = .ok rows.length ∧
    ∀ (i : Nat) (h : i < rows.length), leafCell page (page1HeaderStart p + 8) p i = .ok rows[i]
  interior p page es r := readPageType page (page1HeaderStart p) p = .ok interiorTable ∧
    page1HeaderStart p + 12 ≤ page.length ∧ collectInteriorEntries page (page1HeaderStart p) p = .ok (es, r)

def PageSource.pages (source : PageSource) (p : UInt32) : Option Bytes := (source p).toOption

variable {source : PageSource} {p r : UInt32} {page : Bytes} {n : Nat} {es : List (UInt32 × Int64)}
  {rows : List (Int64 × CurrentCell)} {f : Frame} {items : List ((Int64 × CurrentCell) ⊕ Int64)} {own : Finset UInt32}
  {O : Type} {c : TableCursor}

theorem readPage_ok (h : source.pages p = some page) : source.readPage p = .ok page := by
  unfold PageSource.pages at h
  unfold PageSource.readPage
  cases hs : source p with
  | error e => simp [hs, Except.toOption] at h
  | ok b =>
    obtain rfl : b = page := by simpa [hs, Except.toOption] using h
    rfl

theorem tailFrom_ok {rest : Bytes} {e : BtreeError} {start : Nat} (h : tailFrom page e start = .ok rest) :
    start ≤ page.length ∧ rest = page.drop start := by
  unfold tailFrom at h
  split at h
  · cases h
    exact ⟨‹_›, rfl⟩
  · cases h

/-- What is stored at the place of an entry of an interior page. -/
structure EntryAt (page : Bytes) (ptrBase : Nat) (p : UInt32) (i : Nat) (e : UInt32 × Int64) (cellStart key len : Nat) :
    Prop where
  pointer : readCellPointer page (cellPtrOffset ptrBase i) p i = .ok cellStart
  child : readU32 page cellStart p = .ok e.1
  inside : cellStart + 4 ≤ page.length
  varint : decodeCellVarint p (page.drop (cellStart + 4)) = .ok (key, len)
  key : asI64 key = e.2

theorem entryAt_of_collect {ptrBase : Nat} {i : Nat} (h : collectInteriorEntriesFrom page ptrBase p n i = .ok es) :
    es.length = n ∧ ∀ (j : Nat) (hj : j < es.length), ∃ cellStart key len,
      EntryAt page ptrBase p (i + j) es[j] cellStart key len := by
  induction n generalizing i es with
  | zero =>
    cases h
    exact ⟨rfl, fun j hj => absurd hj (Nat.not_lt_zero j)⟩
  | succ n ih =>
    rw [collectInteriorEntriesFrom] at h
    obtain ⟨cellStart, hptr, h⟩ := bind_eq_ok_iff.1 h
    obtain ⟨child, hchild, h⟩ := bind_eq_ok_iff.1 h
    obtain ⟨rest, hrest, h⟩ := bind_eq_ok_iff.1 h
    obtain ⟨⟨key, len⟩, hkey, h⟩ := bind_eq_ok_iff.1 h
    obtain ⟨es', hes, h⟩ := bind_eq_ok_iff.1 h
    cases h
    obtain ⟨hin, rfl⟩ := tailFrom_ok hrest
    obtain ⟨hlen, hat⟩ := ih hes
    refine ⟨by simp [hlen], fun j hj => ?_⟩
    cases j with
    | zero => exact ⟨cellStart, key, len, hptr, hchild, hin, hkey, rfl⟩
    | succ j =>
      have := hat j (by simpa using hj)
      rwa [Nat.add_right_comm i 1 j] at this

theorem interior_parts (h : cursorKind.interior p page es r) :
    readNumCells page (page1HeaderStart p) p = .ok es.length ∧ readU32 page (page1HeaderStart p + 8) p = .ok r ∧
      ∀ (j : Nat) (hj : j < es.length), ∃ cellStart key len,
        EntryAt page (page1HeaderStart p + 12) p j es[j] cellStart key len := by
  obtain ⟨-, -, hc⟩ := h
  rw [collectInteriorEntries] at hc
  obtain ⟨n, hn, hc⟩ := bind_eq_ok_iff.1 hc
  obtain ⟨es', hes, hc⟩ := bind_eq_ok_iff.1 hc
  obtain ⟨r', hr, hc⟩ := bind_eq_ok_iff.1 hc
  cases hc
  obtain ⟨rfl, hat⟩ := entryAt_of_collect hes
  exact ⟨hn, hr, fun j hj => by simpa using hat j hj⟩

/-! ## Frames -/

/-- A frame of a leaf with these rows, at any position. -/
structure LeafFrame (f : Frame) (rows : List (Int64 × CurrentCell)) : Prop where
  isInterior : f.isInterior = false
  numCells : f.numCells = rows.length
  cell (i : Nat) (h : i < rows.length) : f.decodeLeafCell i = .ok rows[i]

/-- A frame of an interior page with these children, at any position. -/
structure InteriorFrame (f : Frame) (children : List UInt32) (r : UInt32) : Prop where
  isInterior : f.isInterior = true
  numCells : f.numCells = children.length
  rightmost : f.rightmost = r
  child (i : Nat) (h : i < children.length) : f.readInteriorChild i = .ok children[i]

theorem loadFrame_leaf (reverse : Bool) (hp : source.pages p = some page) (h : cursorKind.leaf p page rows) :
    ∃ f, loadFrame source reverse p = .ok f ∧ LeafFrame f rows ∧ f.nextCell = if reverse then rows.length else 0 := by
  obtain ⟨htype, hn, hcell⟩ := h
  refine ⟨⟨p, false, rows.length, page1HeaderStart p + 8, if reverse then rows.length else 0, 0, true, page⟩, ?_,
    ⟨rfl, rfl, hcell⟩, rfl⟩
  simp [loadFrame, readPage_ok hp, htype, hn, bind, Except.bind]

theorem loadFrame_interior (reverse : Bool) (hp : source.pages p = some page) (h : cursorKind.interior p page es r) :
    ∃ f, loadFrame source reverse p = .ok f ∧ InteriorFrame f (es.map Prod.fst) r ∧ f.rightmostDone = false ∧
      f.nextCell = if reverse then es.length else 0 := by
  obtain ⟨hn, hr, hat⟩ := interior_parts h
  obtain ⟨htype, hlen, -⟩ := h
  refine ⟨⟨p, true, es.length, page1HeaderStart p + 12, if reverse then es.length else 0, r, false, page⟩, ?_,
    ⟨rfl, by simp, rfl, fun i hi => ?_⟩, rfl, rfl⟩
  · have hne : interiorTable ≠ leafTable := by decide
    simp [loadFrame, readPage_ok hp, htype, hn, hr, bind, Except.bind, hne, Nat.not_lt.2 hlen]
  · obtain ⟨cellStart, key, len, he⟩ := hat i (by simpa using hi)
    simp [Frame.readInteriorChild, he.pointer, he.child, bind, Except.bind]

/-- The visits that a frame has left, read forward. -/
inductive LeftForward (f : Frame) : List (Visit UInt32 (Int64 × CurrentCell)) → Prop where
  | leaf {rows : List (Int64 × CurrentCell)} : LeafFrame f rows → f.nextCell ≤ rows.length →
      LeftForward f ((rows.drop f.nextCell).map .emit)
  | interior {children : List UInt32} {r : UInt32} : InteriorFrame f children r → f.rightmostDone = false →
      f.nextCell ≤ children.length → LeftForward f ((children.drop f.nextCell).map .down ++ [.down r])
  | done {children : List UInt32} {r : UInt32} : InteriorFrame f children r → f.rightmostDone = true →
      f.nextCell = children.length → LeftForward f []

/-- The visits that a frame has left, read in reverse. -/
inductive LeftReverse (f : Frame) : List (Visit UInt32 (Int64 × CurrentCell)) → Prop where
  | leaf {rows : List (Int64 × CurrentCell)} : LeafFrame f rows → f.nextCell ≤ rows.length →
      LeftReverse f ((rows.take f.nextCell).reverse.map .emit)
  | start {children : List UInt32} {r : UInt32} : InteriorFrame f children r → f.rightmostDone = false →
      f.nextCell = children.length → LeftReverse f (.down r :: children.reverse.map .down)
  | interior {children : List UInt32} {r : UInt32} : InteriorFrame f children r → f.rightmostDone = true →
      f.nextCell ≤ children.length → LeftReverse f ((children.take f.nextCell).reverse.map .down)

/-- The visits of a table page: only leaf cells are rows. -/
abbrev TableVisits (source : PageSource) : UInt32 → List (Visit UInt32 (Int64 × CurrentCell)) → Prop :=
  PageVisits cursorKind source.pages id fun _ => []

theorem interiorVisits_table (es : List (UInt32 × Int64)) (r : UInt32) :
    interiorVisits (fun _ => ([] : List (Int64 × CurrentCell))) es r = (es.map Prod.fst).map .down ++ [.down r] := by
  rw [interiorVisits, map_map]
  congr 1
  exact (map_eq_flatMap ..).symm

theorem LeafFrame.moveTo (h : LeafFrame f rows) (n : Nat) :
    LeafFrame { f with nextCell := n } rows := ⟨h.isInterior, h.numCells, h.cell⟩

theorem InteriorFrame.moveTo {children : List UInt32} (h : InteriorFrame f children r) (n : Nat) (done : Bool) :
    InteriorFrame { f with nextCell := n, rightmostDone := done } children r :=
  ⟨h.isInterior, h.numCells, h.rightmost, h.child⟩

variable {vs : List (Visit UInt32 (Int64 × CurrentCell))} {see : Int64 → TableCursor → O} {target : Int64}
  {c' : TableCursor}

theorem LeftForward.turn (h : LeftForward f vs) : Turns Frame.turn LeftForward f vs := by
  cases h with
  | @leaf rows hf hle =>
    rcases Nat.lt_or_eq_of_le hle with hlt | heq
    · rw [drop_eq_getElem_cons hlt]
      refine ⟨_, ?_, LeftForward.leaf (hf.moveTo (f.nextCell + 1)) hlt⟩
      simp [Frame.turn, hf.isInterior, hf.numCells, Nat.not_le.2 hlt, hf.cell _ hlt]
    · simp [heq, Turns, Frame.turn, hf.isInterior, hf.numCells]
  | @interior children r hf hdone hle =>
    rcases Nat.lt_or_eq_of_le hle with hlt | heq
    · rw [drop_eq_getElem_cons hlt]
      refine ⟨_, ?_, LeftForward.interior (hf.moveTo (f.nextCell + 1) f.rightmostDone) hdone hlt⟩
      simp [Frame.turn, hf.isInterior, hf.numCells, hlt, hf.child _ hlt]
    · rw [heq, drop_length]
      refine ⟨_, ?_, LeftForward.done (hf.moveTo f.nextCell true) rfl heq⟩
      simp [Frame.turn, hf.isInterior, hf.numCells, heq, hdone, hf.rightmost]
  | done hf hdone heq => simp [Turns, Frame.turn, hf.isInterior, hf.numCells, heq, hdone]

theorem take_reverse_cons {α : Type} {l : List α} (h : n < l.length) :
    (l.take (n + 1)).reverse = l[n] :: (l.take n).reverse := by
  rw [take_succ_eq_append_getElem h, reverse_append]
  rfl

theorem LeftReverse.turn (h : LeftReverse f vs) : Turns Frame.turnRev LeftReverse f vs := by
  cases h with
  | @leaf rows hf hle =>
    rcases hn : f.nextCell with _ | n
    · simp [Turns, Frame.turnRev, hf.isInterior, hn]
    · have hlt : n < rows.length := by omega
      rw [take_reverse_cons hlt]
      refine ⟨_, ?_, LeftReverse.leaf (hf.moveTo n) (Nat.le_of_lt hlt)⟩
      simp [Frame.turnRev, hf.isInterior, hn, hf.cell _ hlt]
  | @start children r hf hdone heq =>
    refine ⟨{ f with rightmostDone := true }, ?_, ?_⟩
    · simp [Frame.turnRev, hf.isInterior, hdone, hf.rightmost]
    · have := LeftReverse.interior (hf.moveTo f.nextCell true) rfl (Nat.le_of_eq heq)
      simpa [heq] using this
  | @interior children r hf hdone hle =>
    rcases hn : f.nextCell with _ | n
    · simp [Turns, Frame.turnRev, hf.isInterior, hn, hdone]
    · have hlt : n < children.length := by omega
      rw [take_reverse_cons hlt]
      refine ⟨_, ?_, LeftReverse.interior (hf.moveTo n f.rightmostDone) hdone (Nat.le_of_lt hlt)⟩
      simp [Frame.turnRev, hf.isInterior, hn, hdone, hf.child _ hlt]

theorem forward_lawful (source : PageSource) :
    (tableReader source false).Lawful (TableVisits source) LeftForward where
  turn h := h.turn
  load {p vs} h := by
    cases h with
    | @leaf v rows hv hl =>
      obtain ⟨f, hload, hf, hn⟩ := loadFrame_leaf false hv hl
      have hn : f.nextCell = 0 := hn
      have := LeftForward.leaf hf (by omega)
      rw [hn, drop_zero] at this
      exact ⟨f, hload, this⟩
    | @interior v es r hv hi =>
      obtain ⟨f, hload, hf, hdone, hn⟩ := loadFrame_interior false hv hi
      have hn : f.nextCell = 0 := hn
      have := LeftForward.interior hf hdone (by omega)
      rw [hn, drop_zero, ← interiorVisits_table] at this
      exact ⟨f, hload, this⟩

theorem reverse_lawful (source : PageSource) :
    (tableReader source true).Lawful (fun p vs => TableVisits source p vs.reverse) LeftReverse where
  turn h := h.turn
  load {p vs} h := by
    generalize hrev : vs.reverse = ws at h
    obtain rfl : vs = ws.reverse := by rw [← hrev, reverse_reverse]
    cases h with
    | @leaf v rows hv hl =>
      obtain ⟨f, hload, hf, hn⟩ := loadFrame_leaf true hv hl
      have hn : f.nextCell = rows.length := hn
      have := LeftReverse.leaf hf (by omega)
      rw [hn, take_length, map_reverse] at this
      exact ⟨f, hload, this⟩
    | @interior v es r hv hi =>
      obtain ⟨f, hload, hf, hdone, hn⟩ := loadFrame_interior true hv hi
      have hn : f.nextCell = es.length := hn
      have := LeftReverse.start hf hdone (by simpa using hn)
      rw [interiorVisits_table, reverse_append, ← map_reverse]
      exact ⟨f, hload, this⟩

/-! ## Scans -/

/-- The rows among the items of a table. -/
def rowsOf (items : List ((Int64 × CurrentCell) ⊕ Int64)) : List (Int64 × CurrentCell) :=
  entriesOf id (fun _ => []) items

theorem rowsOf_append (xs ys : List ((Int64 × CurrentCell) ⊕ Int64)) : rowsOf (xs ++ ys) = rowsOf xs ++ rowsOf ys :=
  flatMap_append

theorem rowsOf_inr (k : Int64) (xs : List ((Int64 × CurrentCell) ⊕ Int64)) : rowsOf (.inr k :: xs) = rowsOf xs := rfl

theorem rowsOf_map_inl (rows : List (Int64 × CurrentCell)) : rowsOf (rows.map .inl) = rows := by
  rw [rowsOf, entriesOf, flatMap_map]
  exact (map_eq_flatMap (f := id) ..).symm.trans (map_id _)

theorem tree_walk (h : PagedTree.Tree cursorKind source.pages [] p items own) :
    Walk (TableVisits source) [.down p] (rowsOf items) own.card := walk_children h

/-- A row as a caller sees it that asks for the payload of each. -/
def TableCursor.row (source : PageSource) (rowid : Int64) (c : TableCursor) : Int64 × Except BtreeError Bytes :=
  (rowid, c.currentPayload source)

def seenRow (source : PageSource) (usableSize : Nat) (row : Int64 × CurrentCell) : Int64 × Except BtreeError Bytes :=
  (row.1, reassemblePayload source usableSize row.2.pageNum row.2.page row.2.tailStart row.2.payloadLen false)

theorem first_yields (c : TableCursor) (h : Walk (TableVisits source) [.down c.rootPage] rows n)
    (hn : n ≤ maxPagesVisited) : Yields (TableCursor.next source) (TableCursor.row source) (c.first source)
      (rows.map (seenRow source c.usableSize)) := by
  obtain ⟨t, m, hstart, hpend, hv⟩ := (forward_lawful source).start h hn
  rw [TableCursor.first, hstart]
  exact hpend.yields (forward_lawful source) _ _ (seenRow source c.usableSize) TableCursor.walk TableCursor.moved
    (fun s => s.usableSize = c.usableSize) (fun _ _ => rfl) (fun _ _ _ => ⟨_, rfl⟩)
    (fun s e t hs => ⟨_, _, rfl, rfl, hs, by simp [TableCursor.row, TableCursor.currentPayload, seenRow, hs]⟩) rfl hv

theorem last_yields (c : TableCursor) (h : Walk (TableVisits source) [.down c.rootPage] rows n)
    (hn : n ≤ maxPagesVisited) : Yields (TableCursor.prev source) (TableCursor.row source) (c.last source)
      (rows.reverse.map (seenRow source c.usableSize)) := by
  obtain ⟨t, m, hstart, hpend, hv⟩ := (reverse_lawful source).start h.reverse hn
  rw [TableCursor.last, hstart]
  exact hpend.yields (reverse_lawful source) _ _ (seenRow source c.usableSize) TableCursor.walk TableCursor.moved
    (fun s => s.positionedReverse = true ∧ s.usableSize = c.usableSize)
    (fun s hs => by simp [TableCursor.prev, hs.1]) (fun _ _ _ => ⟨_, rfl⟩)
    (fun s e t hs => ⟨_, _, rfl, rfl, hs, by simp [TableCursor.row, TableCursor.currentPayload, seenRow, hs.2]⟩)
    ⟨rfl, rfl⟩ hv

/-! ## Lookups -/

/-- The order of the rows and separators of a table: a separator is at least
every rowid before it and less than every rowid after it. -/
def itemBefore : (Int64 × CurrentCell) ⊕ Int64 → (Int64 × CurrentCell) ⊕ Int64 → Prop
  | .inl a, .inl b => a.1 < b.1
  | .inl a, .inr k => a.1 ≤ k
  | .inr k, .inl b => k < b.1
  | .inr _, .inr _ => True

instance : DecidableRel itemBefore := fun a b =>
  match a, b with
  | .inl a, .inl b => inferInstanceAs (Decidable (a.1 < b.1))
  | .inl a, .inr k => inferInstanceAs (Decidable (a.1 ≤ k))
  | .inr k, .inl b => inferInstanceAs (Decidable (k < b.1))
  | .inr _, .inr _ => inferInstanceAs (Decidable True)

theorem mem_rowsOf {row : Int64 × CurrentCell} : row ∈ rowsOf items ↔ .inl row ∈ items := by
  simp only [rowsOf, entriesOf, mem_flatMap]
  constructor
  · rintro ⟨x | k, hx, hrow⟩
    · obtain rfl : row = x := by simpa using hrow
      exact hx
    · simp at hrow
  · exact fun h => ⟨_, h, by simp⟩

theorem rowsOf_unique (h : items.Pairwise itemBefore) {a b : Int64 × CurrentCell} (ha : a ∈ rowsOf items)
    (hb : b ∈ rowsOf items) (heq : a.1 = b.1) : a = b := by
  have hord := pairwise_iff_getElem.1 h
  obtain ⟨i, hi, hia⟩ := getElem_of_mem (mem_rowsOf.1 ha)
  obtain ⟨j, hj, hjb⟩ := getElem_of_mem (mem_rowsOf.1 hb)
  rcases Nat.lt_trichotomy i j with hlt | rfl | hlt
  · have hab := hord i j hi hj hlt
    rw [hia, hjb] at hab
    exact absurd heq (Int64.ne_of_lt hab)
  · exact Sum.inl.inj (hia.symm.trans hjb)
  · have hba := hord j i hj hi hlt
    rw [hia, hjb] at hba
    exact absurd heq.symm (Int64.ne_of_lt hba)

/-- What a lookup says about the rows it looked through. -/
def Looked (target : Int64) (rows : List (Int64 × CurrentCell)) : Option (Int64 × CurrentCell) → Prop
  | some row => row ∈ rows ∧ row.1 = target
  | none => ∀ row ∈ rows, row.1 ≠ target

/-- The rows `inner` of a table with no row of the target around them. -/
theorem Looked.widen {inner : List ((Int64 × CurrentCell) ⊕ Int64)} {res : Option (Int64 × CurrentCell)}
    (hsub : ∀ row, .inl row ∈ inner → .inl row ∈ items)
    (hrest : ∀ row, .inl row ∈ items → row.1 = target → .inl row ∈ inner) (h : Looked target (rowsOf inner) res) :
    Looked target (rowsOf items) res := by
  cases res with
  | some row => exact ⟨mem_rowsOf.2 (hsub row (mem_rowsOf.1 h.1)), h.2⟩
  | none => exact fun row hrow ht => h row (mem_rowsOf.2 (hrest row (mem_rowsOf.1 hrow) ht)) ht

/-- The interval that is left of a search in a leaf: the rows outside of it
are too small or too large. -/
structure LeafInterval (rows : List (Int64 × CurrentCell)) (target : Int64) (lo hi : Nat) (_ : Unit) : Prop where
  le : hi ≤ rows.length
  below (i : Nat) (h : i < rows.length) : i < lo → rows[i].1 < target
  above (i : Nat) (h : i < rows.length) : hi ≤ i → target < rows[i].1

theorem probeLeaf_keeps
    (hcell : ∀ (i : Nat) (h : i < rows.length), leafCell page (page1HeaderStart p + 8) p i = .ok rows[i])
    (hord : rows.Pairwise fun a b => a.1 < b.1) (target : Int64) (lo hi : Nat) (acc : Unit) (hlt : lo < hi)
    (h : LeafInterval rows target lo hi acc) :
    ∃ r, probeLeaf page p target (lo + (hi - lo) / 2) = .ok r ∧
      r.Keeps (LeafInterval rows target) (fun row => row ∈ rows ∧ row.1 = target) lo hi acc := by
  have hmid : lo + (hi - lo) / 2 < rows.length := by have := h.le; omega
  generalize hm : lo + (hi - lo) / 2 = mid at hmid
  have hasc := pairwise_iff_getElem.1 hord
  have hprobe : probeLeaf page p target mid = .ok (if rows[mid].1 = target then .found rows[mid]
      else if rows[mid].1 < target then .right else .left ()) := by
    simp [probeLeaf, hcell mid hmid, bind, Except.bind]
  refine ⟨_, hprobe, ?_⟩
  by_cases heq : rows[mid].1 = target
  · rw [if_pos heq]
    exact ⟨getElem_mem hmid, heq⟩
  rw [if_neg heq]
  by_cases hless : rows[mid].1 < target
  · rw [if_pos hless]
    simp only [Probe.Keeps, hm]
    refine ⟨h.le, fun i hi hlt' => ?_, h.above⟩
    rcases Nat.lt_or_eq_of_le (Nat.lt_succ_iff.1 hlt') with hlt' | rfl
    · exact Int64.lt_trans (hasc i mid hi hmid hlt') hless
    · exact hless
  · rw [if_neg hless]
    simp only [Probe.Keeps, hm]
    have hgt : target < rows[mid].1 := Int64.lt_of_le_of_ne (Int64.not_lt.1 hless) (Ne.symm heq)
    refine ⟨Nat.le_of_lt hmid, h.below, fun i hi hle => ?_⟩
    rcases Nat.lt_or_eq_of_le hle with hlt' | rfl
    · exact Int64.lt_trans hgt (hasc mid i hmid hi hlt')
    · exact hgt

theorem bisect_leaf
    (hcell : ∀ (i : Nat) (h : i < rows.length), leafCell page (page1HeaderStart p + 8) p i = .ok rows[i])
    (hord : rows.Pairwise fun a b => a.1 < b.1) (target : Int64) :
    ∃ r, bisect (probeLeaf page p target) rows.length 0 rows.length () = .ok r ∧ Looked target rows (foundRow r) := by
  obtain ⟨r, hr, hend⟩ := bisect_inv (probeLeaf_keeps hcell hord target) rows.length 0 rows.length ()
    (Nat.zero_le _) (by omega) ⟨le_rfl, fun i _ hi => absurd hi (Nat.not_lt_zero i), fun i h hi => absurd h (Nat.not_lt.2 hi)⟩
  refine ⟨r, hr, ?_⟩
  rcases r with row | ⟨i, ⟨⟩⟩
  · exact hend
  · obtain ⟨-, hbelow, habove⟩ := hend
    intro row hrow ht
    obtain ⟨j, hj, rfl⟩ := getElem_of_mem hrow
    rcases Nat.lt_or_ge j i with hji | hji
    · exact Int64.ne_of_lt (hbelow j hj hji) ht
    · exact Int64.ne_of_lt (habove j hj hji) ht.symm

theorem slice_split {α : Type} {l : List α} {lo mid hi : Nat} (h₁ : lo ≤ mid) (h₂ : mid < hi) (h₃ : hi ≤ l.length) :
    (l.take hi).drop lo =
      (l.take mid).drop lo ++ l[mid] :: (l.take hi).drop (mid + 1) := by
  have hmid : mid < (l.take hi).length := by rw [length_take]; omega
  have hdrop : (l.take hi).drop mid = l[mid] :: (l.take hi).drop (mid + 1) := by
    rw [drop_eq_getElem_cons hmid, getElem_take]
  have htake : (l.take hi).drop lo = ((l.take hi).take mid).drop lo ++ (l.take hi).drop mid := by
    have hlen : ((l.take hi).take mid).length = mid := by simp; omega
    rw [← drop_append_of_le_length (by omega), take_append_drop]
  rw [htake, hdrop, take_take, Nat.min_eq_left (Nat.le_of_lt h₂)]

/-- The interval that is left of a search in an interior page: the children
in it and behind it hold the rows of the target. -/
def InteriorInterval (source : PageSource) (target : Int64) (es : List (UInt32 × Int64))
    (items : List ((Int64 × CurrentCell) ⊕ Int64)) (own : Finset UInt32) (lo hi : Nat) (acc : UInt32) : Prop :=
  lo ≤ hi ∧ hi ≤ es.length ∧ ∃ before inner after o,
    items = before ++ (inner ++ after) ∧ o ⊆ own ∧
    PagedTree.Tree cursorKind source.pages ((es.take hi).drop lo) acc inner o ∧
    (∀ row, .inl row ∈ before → row.1 < target) ∧ ∀ row, .inl row ∈ after → target < row.1

theorem probeInterior_eq {i : Nat} {e : UInt32 × Int64} {cellStart key len : Nat}
    (h : EntryAt page (page1HeaderStart p + 12) p i e cellStart key len) (target : Int64) :
    probeInterior page p target i = .ok (if target ≤ e.2 then .left e.1 else .right) := by
  have htail : tailFrom page (.invalidCellPointer p i) (cellStart + 4) = .ok (page.drop (cellStart + 4)) :=
    if_pos h.inside
  by_cases hle : target ≤ e.2
  · simp [probeInterior, h.pointer, htail, h.varint, h.key, h.child, hle, bind, Except.bind]
  · simp [probeInterior, h.pointer, htail, h.varint, h.key, hle, bind, Except.bind]

theorem probeInterior_keeps (hpage : cursorKind.interior p page es r) (hord : items.Pairwise itemBefore)
    (target : Int64) (lo hi : Nat) (acc : UInt32) (hlt : lo < hi)
    (h : InteriorInterval source target es items own lo hi acc) :
    ∃ pr, probeInterior page p target (lo + (hi - lo) / 2) = .ok pr ∧
      pr.Keeps (InteriorInterval source target es items own) (fun _ => True) lo hi acc := by
  obtain ⟨hle, hhi, before, inner, after, o, rfl, hsub, ht, hbefore, hafter⟩ := h
  have hmid : lo ≤ lo + (hi - lo) / 2 ∧ lo + (hi - lo) / 2 < hi := by omega
  generalize hm : lo + (hi - lo) / 2 = mid at hmid
  obtain ⟨cellStart, key, len, he⟩ := (interior_parts hpage).2.2 mid (by omega)
  refine ⟨_, probeInterior_eq he target, ?_⟩
  rw [slice_split hmid.1 hmid.2 hhi] at ht
  obtain ⟨i₁, i, i₂, o₁, o', o₂, hs, hc, hrest, hd₁, -, -, rfl, rfl⟩ := ht.split_at
  simp only [append_assoc, cons_append] at hord
  have hkey : ∀ x ∈ before ++ (i₁ ++ i), itemBefore x (.inr es[mid].2) := by
    intro x hx
    rw [← append_assoc, ← append_assoc, append_assoc before] at hord
    exact (pairwise_append.1 hord).2.2 x hx _ mem_cons_self
  have hkey' : ∀ x ∈ i₂ ++ after, itemBefore (.inr es[mid].2) x := by
    intro x hx
    rw [← append_assoc, ← append_assoc] at hord
    exact (pairwise_cons.1 (pairwise_append.1 hord).2.1).1 x hx
  by_cases hk : target ≤ es[mid].2
  · -- everything behind the separator is larger than the target
    rw [if_pos hk]
    simp only [Probe.Keeps, hm]
    refine ⟨hmid.1, by omega, before, i₁ ++ i, .inr es[mid].2 :: (i₂ ++ after), o₁ ∪ o', by simp, ?_, ?_, hbefore, ?_⟩
    · exact (Finset.union_subset_union_right Finset.subset_union_left).trans hsub
    · simpa using hs.tree hc hd₁
    · intro row hrow
      rcases mem_cons.1 hrow with hrow | hrow
      · cases hrow
      · exact Int64.lt_of_le_of_lt hk (hkey' _ hrow)
  · -- everything before it is smaller
    rw [if_neg hk]
    simp only [Probe.Keeps, hm]
    refine ⟨by omega, hhi, before ++ (i₁ ++ (i ++ [.inr es[mid].2])), i₂, after, o₂, by simp, ?_, hrest, ?_, hafter⟩
    · exact (Finset.subset_union_right.trans Finset.subset_union_right).trans hsub
    · intro row hrow
      have hrow' : .inl row ∈ before ++ (i₁ ++ i) := by simpa using hrow
      exact Int64.lt_of_le_of_lt (hkey _ hrow') (Int64.not_le.1 hk)

theorem bisect_interior (hpage : cursorKind.interior p page es r)
    (ht : PagedTree.Tree cursorKind source.pages es r items own) (hord : items.Pairwise itemBefore) (target : Int64) :
    ∃ res, bisect (probeInterior page p target) es.length 0 es.length r = .ok res ∧
      ∃ i, InteriorInterval source target es items own i i (nextPage res) := by
  have hall : InteriorInterval source target es items own 0 es.length r :=
    ⟨Nat.zero_le _, le_rfl, [], items, [], own, by simp, subset_rfl, by simpa using ht, by simp, by simp⟩
  obtain ⟨res, hres, hend⟩ := bisect_inv (probeInterior_keeps hpage hord target) es.length 0 es.length r
    (Nat.zero_le _) (by omega) hall
  refine ⟨res, hres, ?_⟩
  rcases res with ⟨⟨⟩⟩ | ⟨i, child⟩
  exact ⟨i, hend⟩

theorem seekFrom_looked (target : Int64) (budget : Nat) (h : PagedTree.Tree cursorKind source.pages [] p items own)
    (hord : items.Pairwise itemBefore) (hcard : own.card ≤ budget) :
    ∃ res, seekFrom source target budget p = .ok res ∧ Looked target (rowsOf items) res := by
  induction budget generalizing p items own with
  | zero => exact absurd (Finset.card_pos.2 ⟨p, h.root_mem⟩) (by omega)
  | succ budget ih =>
    cases h with
    | @leaf _ page rows hp hl =>
      have hasc : rows.Pairwise fun a b => itemBefore (.inl a) (.inl b) := pairwise_map.1 hord
      obtain ⟨r, hr, hl'⟩ := bisect_leaf hl.2.2 hasc target
      refine ⟨foundRow r, ?_, (rowsOf_map_inl rows).symm ▸ hl'⟩
      simp [seekFrom, readPage_ok hp, hl.1, hl.2.1, hr, bind, Except.bind]
    | @node _ page es r _ own hp hi ht hn =>
      obtain ⟨res, hres, i, -, -, before, inner, after, o, rfl, hsub, hchild, hbefore, hafter⟩ :=
        bisect_interior hi ht hord target
      rw [drop_eq_nil_of_le (by simp)] at hchild
      rw [Finset.card_insert_of_notMem hn] at hcard
      have hin : (inner ++ after).Pairwise itemBefore := (pairwise_append.1 hord).2.1
      obtain ⟨found, hfound, hl⟩ := ih hchild (pairwise_append.1 hin).1
        ((Finset.card_le_card hsub).trans (by omega))
      refine ⟨found, ?_, hl.widen (fun row h => by simp [h]) fun row hrow heq => ?_⟩
      · obtain ⟨hcells, hright, -⟩ := interior_parts hi
        have hne : interiorTable ≠ leafTable := by decide
        simp [seekFrom, readPage_ok hp, hi.1, hcells, hne, Nat.not_lt.2 hi.2.1, hright, hres, hfound, bind, Except.bind]
      · simp only [mem_append] at hrow
        rcases hrow with hrow | hrow | hrow
        · exact absurd heq (Int64.ne_of_lt (hbefore row hrow))
        · exact hrow
        · exact absurd heq.symm (Int64.ne_of_lt (hafter row hrow))

/-! ## Counts -/

theorem ofBe16_lt (b : Bytes) : ofBe16 b < 2 ^ 16 := by
  unfold ofBe16
  split
  · rename_i x y
    have := x.toNat_lt
    have := y.toNat_lt
    omega
  · decide

theorem readNumCells_lt {start : Nat} (h : readNumCells page start p = .ok n) : n < 2 ^ 16 := by
  unfold readNumCells readU16Or at h
  split at h
  · cases h
    exact ofBe16_lt _
  · cases h

/-- A page has fewer than 65536 cells. -/
theorem rowsOf_length_le (h : PagedTree.Tree cursorKind source.pages es r items own) :
    (rowsOf items).length ≤ 2 ^ 16 * own.card := by
  induction h with
  | leaf _ hl =>
    rw [rowsOf_map_inl, Finset.card_singleton, Nat.mul_one]
    exact Nat.le_of_lt (readNumCells_lt hl.2.1)
  | node _ _ _ hn ih =>
    rw [Finset.card_insert_of_notMem hn]
    omega
  | cons _ _ hd ih₁ ih₂ =>
    rw [rowsOf_append, rowsOf_inr, length_append, Finset.card_union_of_disjoint hd]
    omega

/-- The children `es` and `r` are counted before the rest of the list. -/
theorem countTableRowsInner_tree (h : PagedTree.Tree cursorKind source.pages es r items own) (rest : List UInt32)
    (fuel visited : Nat) (total : Int) (hfuel : own.card ≤ fuel) (hvisited : visited + own.card ≤ maxPagesVisited)
    (htotal : total + (rowsOf items).length ≤ 2 ^ 63 - 1) :
    countTableRowsInner source fuel (es.map Prod.fst ++ r :: rest) visited total =
      countTableRowsInner source (fuel - (es.length + 1)) rest (visited + own.card)
        (total + (rowsOf items).length) := by
  induction h generalizing rest fuel visited total with
  | @leaf p page rows hp hl =>
    obtain ⟨fuel, rfl⟩ : ∃ k, fuel = k + 1 := ⟨fuel - 1, by simp at hfuel; omega⟩
    rw [rowsOf_map_inl] at htotal ⊢
    rw [Finset.card_singleton] at hvisited ⊢
    have hadd : addCells total rows.length = total + rows.length := min_eq_left htotal
    simp [countTableRowsInner, Nat.not_lt.2 hvisited, readPage_ok hp, hl.1, hl.2.1, hadd, bind, Except.bind]
  | @node p page es r items own hp hi _ hn ih =>
    rw [Finset.card_insert_of_notMem hn] at hfuel hvisited ⊢
    obtain ⟨fuel, rfl⟩ : ∃ k, fuel = k + 1 := ⟨fuel - 1, by omega⟩
    have hchildren := ih [] fuel (visited + 1) total (by omega) (by omega) htotal
    have hne : interiorTable ≠ leafTable := by decide
    have hroom : ¬ maxPagesVisited < visited + 1 := by omega
    simp only [map_nil, nil_append, countTableRowsInner, hroom, if_false, readPage_ok hp, hi.1, hi.2.2, hne,
      if_true, hchildren, bind, Except.bind, length_nil, Nat.zero_add, Nat.add_sub_cancel]
    rw [Nat.add_right_comm visited 1, Nat.add_assoc visited]
  | @cons c k es r i₁ i₂ o₁ o₂ hc _ hd ih₁ ih₂ =>
    rw [Finset.card_union_of_disjoint hd] at hfuel hvisited ⊢
    rw [rowsOf_append, rowsOf_inr, length_append] at htotal ⊢
    have hpos : 0 < o₁.card := Finset.card_pos.2 ⟨c, hc.root_mem⟩
    rw [map_cons, cons_append]
    have h₁ := ih₁ (es.map Prod.fst ++ r :: rest) fuel visited total (by omega) (by omega) (by push_cast at htotal; omega)
    have h₂ := ih₂ rest (fuel - 1) (visited + o₁.card) (total + (rowsOf i₁).length) (by omega) (by omega)
      (by push_cast at htotal; omega)
    refine (h₁.trans h₂).trans ?_
    rw [length_cons, Nat.sub_sub, Nat.add_comm 1, Nat.add_assoc visited, Int.natCast_add, Int.add_assoc]

theorem countTableRows_tree {root : UInt32} (h : PagedTree.Tree cursorKind source.pages [] root items own)
    (hcard : own.card ≤ maxPagesVisited) : countTableRows source root = .ok (rowsOf items).length := by
  have hrows := rowsOf_length_le h
  have hmax : own.card ≤ 1000000 := hcard
  have := countTableRowsInner_tree h [] (maxPagesVisited + 1) 0 0 (by omega) (by omega) (by omega)
  have hcount : countTableRowsInner source (maxPagesVisited + 1) [root] 0 0 =
      .ok (0 + own.card, (0 : Int) + (rowsOf items).length) := this
  rw [countTableRows, hcount]
  simp [bind, Except.bind]

/-! ## Every scan ends -/

/-- The rows that a frame may still yield. -/
def Frame.rowsLeft (f : Frame) : Nat := if f.isInterior then 0 else f.numCells - f.nextCell

theorem loadFrame_numCells {reverse : Bool} (h : loadFrame source reverse p = .ok f) : f.numCells < 2 ^ 16 := by
  obtain ⟨page, -, h⟩ := bind_eq_ok_iff.1 h
  obtain ⟨pageType, -, h⟩ := bind_eq_ok_iff.1 h
  split at h
  · obtain ⟨n, hn, h⟩ := bind_eq_ok_iff.1 h
    cases h
    exact readNumCells_lt hn
  · split at h
    · split at h
      · cases h
      · obtain ⟨n, hn, h⟩ := bind_eq_ok_iff.1 h
        obtain ⟨r, -, h⟩ := bind_eq_ok_iff.1 h
        cases h
        exact readNumCells_lt hn
    · cases h

theorem forward_weighs (source : PageSource) : (tableReader source false).Weighs Frame.rowsLeft (2 ^ 16) where
  yield {f f' e} h := by
    have h : f.turn = .yield f' (.ok e) := h
    unfold Frame.turn at h
    grind [Frame.rowsLeft]
  descend {f f' p} h := by
    have h : f.turn = .descend f' (.ok p) := h
    unfold Frame.turn at h
    grind [Frame.rowsLeft]
  load {p f} h := by
    have := loadFrame_numCells h
    grind [Frame.rowsLeft]

theorem next_walk {r : Int64} (h : c.next source = (.ok (some r), c')) :
    ∃ e, (tableReader source false).next c.walk = (.ok (some e), c'.walk) := by
  unfold TableCursor.next at h
  generalize (tableReader source false).next c.walk = res at h ⊢
  obtain ⟨res, t⟩ := res
  match res with
  | .error e => cases h
  | .ok none => cases h
  | .ok (some e) =>
    cases h
    exact ⟨e, rfl⟩

theorem first_walk {r : Int64} (h : c.first source = (.ok (some r), c')) :
    ∃ e, (tableReader source false).start c.rootPage = (.ok (some e), c'.walk) := by
  unfold TableCursor.first at h
  generalize (tableReader source false).start c.rootPage = res at h ⊢
  obtain ⟨res, t⟩ := res
  match res with
  | .error e => cases h
  | .ok none => cases h
  | .ok (some e) =>
    cases h
    exact ⟨e, rfl⟩

/-- More rows than this no scan yields, whatever the pages hold. -/
def maxRows : Nat := 2 ^ 16 * maxPagesVisited + 1

theorem table_scan_ends (source : PageSource) (c : TableCursor) (see : Int64 → TableCursor → O) (tooLong : BtreeError)
    (k : Nat) :
    collect (TableCursor.next source) see tooLong (maxRows + k) (c.first source) =
      collect (TableCursor.next source) see tooLong maxRows (c.first source) := by
  have H := forward_weighs source
  refine collect_stable (m := fun c => c.walk.weight maxPagesVisited Frame.rowsLeft (2 ^ 16))
    (fun s row s' h => ?_) maxRows k _ (Nat.succ_pos _) fun row s h => ?_
  · obtain ⟨e, he⟩ := next_walk h
    exact H.advance he
  · obtain ⟨e, he⟩ := first_walk h
    exact Nat.succ_lt_succ (H.start he)

theorem collect_table {tooLong : BtreeError} {os : List O}
    (h : Yields (TableCursor.next source) see (c.first source) os) :
    collect (TableCursor.next source) see tooLong maxRows (c.first source) = (os, none) := by
  rw [← table_scan_ends source c see tooLong (os.length + 1)]
  exact collect_of_yields h (by omega)

/-! ## A table of three leaves -/

/-- A leaf with one row of no payload. -/
def rowLeaf (rowid : UInt8) : Bytes := [0x0d, 0, 0, 0, 1, 0, 10, 0, 0, 10, 0, rowid]

def emptyLeafPage : Bytes := [0x0d, 0, 0, 0, 0, 0, 8, 0]

def rootPage (key₁ key₂ : UInt8) : Bytes :=
  [0x05, 0, 0, 0, 2, 0, 16, 0, 0, 0, 0, 5, 0, 16, 0, 21, 0, 0, 0, 3, key₁, 0, 0, 0, 4, key₂]

/-- A root on page 2 with the children 3, 4 and 5: a leaf with row 4, an
empty leaf, and a leaf with row 10. -/
def threeLeaves (key₁ key₂ : UInt8) : PageSource
  | 2 => .ok (rootPage key₁ key₂)
  | 3 => .ok (rowLeaf 4)
  | 4 => .ok emptyLeafPage
  | 5 => .ok (rowLeaf 10)
  | _ => .error .pendingTransaction

def rowCell (p : UInt32) (rowid : UInt8) : CurrentCell := ⟨rowLeaf rowid, p, 12, 0⟩

def threeLeavesItems (key₁ key₂ : UInt8) : List ((Int64 × CurrentCell) ⊕ Int64) :=
  [.inl (4, rowCell 3 4), .inr (asI64 key₁.toNat), .inr (asI64 key₂.toNat), .inl (10, rowCell 5 10)]

theorem row4_leaf : cursorKind.leaf 3 (rowLeaf 4) [(4, rowCell 3 4)] :=
  ⟨by decide +kernel, by decide +kernel, by decide +kernel⟩

theorem row10_leaf : cursorKind.leaf 5 (rowLeaf 10) [(10, rowCell 5 10)] :=
  ⟨by decide +kernel, by decide +kernel, by decide +kernel⟩

theorem empty_leaf : cursorKind.leaf 4 emptyLeafPage [] :=
  ⟨by decide +kernel, by decide +kernel, by decide +kernel⟩

section
variable (key₁ key₂ : UInt8)

theorem threeLeaves_row4 :
    PagedTree.Tree cursorKind (threeLeaves key₁ key₂).pages [] 3 [.inl (4, rowCell 3 4)] {3} :=
  .leaf (show (threeLeaves key₁ key₂).pages 3 = some (rowLeaf 4) from rfl) row4_leaf

theorem threeLeaves_row10 :
    PagedTree.Tree cursorKind (threeLeaves key₁ key₂).pages [] 5 [.inl (10, rowCell 5 10)] {5} :=
  .leaf (show (threeLeaves key₁ key₂).pages 5 = some (rowLeaf 10) from rfl) row10_leaf

theorem threeLeaves_empty : PagedTree.Tree cursorKind (threeLeaves key₁ key₂).pages [] 4 [] {4} :=
  .leaf (show (threeLeaves key₁ key₂).pages 4 = some emptyLeafPage from rfl) empty_leaf

end

theorem threeLeaves_tree {key₁ key₂ : UInt8}
    (hroot : cursorKind.interior 2 (rootPage key₁ key₂) [(3, asI64 key₁.toNat), (4, asI64 key₂.toNat)] 5) :
    PagedTree.Tree cursorKind (threeLeaves key₁ key₂).pages [] 2 (threeLeavesItems key₁ key₂) {2, 3, 4, 5} := by
  have hleaves := (threeLeaves_row4 key₁ key₂).cons (k := asI64 key₁.toNat)
    ((threeLeaves_empty key₁ key₂).cons (k := asI64 key₂.toNat) (threeLeaves_row10 key₁ key₂) (by decide)) (by decide)
  exact .node rfl hroot hleaves (by decide)

/-! ## The cursor's functions together -/

theorem seek_row (c : TableCursor) {row : Int64 × CurrentCell}
    (h : seekFrom source target maxPagesVisited c.rootPage = .ok (some row)) :
    ∃ c', c.seek source target = (.ok (some row.1), c') ∧
      (row.1, c'.currentPayload source) = seenRow source c.usableSize row := by
  refine ⟨{ c with current := some row.2 }, ?_, rfl⟩
  rw [TableCursor.seek, h]

/-- A table's forward scan, its reverse scan, its lookups and its count agree. -/
theorem cursor_functions_agree (source : PageSource) (c : TableCursor)
    {items : List ((Int64 × CurrentCell) ⊕ Int64)} {own : Finset UInt32}
    (ht : PagedTree.Tree cursorKind source.pages [] c.rootPage items own) (hcard : own.card < 1000000)
    (hord : items.Pairwise itemBefore) :
    ∃ rows : List (Int64 × Except BtreeError Bytes),
      Yields (TableCursor.next source) (TableCursor.row source) (c.first source) rows ∧
      Yields (TableCursor.prev source) (TableCursor.row source) (c.last source) rows.reverse ∧
      (∀ r payload, (r, payload) ∈ rows →
        ∃ c', c.seek source r = (.ok (some r), c') ∧ c'.currentPayload source = payload) ∧
      (∀ r, (∀ payload, (r, payload) ∉ rows) → ∃ c', c.seek source r = (.ok none, c')) ∧
      countTableRows source c.rootPage = .ok rows.length := by
  have hmax : own.card ≤ maxPagesVisited := Nat.le_of_lt hcard
  refine ⟨(rowsOf items).map (seenRow source c.usableSize), first_yields c (tree_walk ht) hmax, ?_, ?_, ?_, ?_⟩
  · rw [← map_reverse]
    exact last_yields c (tree_walk ht) hmax
  · intro r payload hmem
    obtain ⟨row, hrow, hseen⟩ := mem_map.1 hmem
    obtain rfl : row.1 = r := congrArg Prod.fst hseen
    obtain ⟨res, hres, hl⟩ := seekFrom_looked row.1 maxPagesVisited ht hord hmax
    cases res with
    | none => exact absurd rfl (hl row hrow)
    | some found =>
      obtain rfl : found = row := rowsOf_unique hord hl.1 hrow hl.2
      obtain ⟨c', hc', hpay⟩ := seek_row c hres
      exact ⟨c', hc', congrArg Prod.snd (hpay.trans hseen)⟩
  · intro r hnone
    obtain ⟨res, hres, hl⟩ := seekFrom_looked r maxPagesVisited ht hord hmax
    cases res with
    | none => exact ⟨_, by rw [TableCursor.seek, hres]⟩
    | some found =>
      refine absurd (mem_map_of_mem hl.1) (?_ : seenRow source c.usableSize found ∉ _)
      rw [← hl.2] at hnone
      exact hnone _
  · rw [length_map]
    exact countTableRows_tree ht hmax

theorem three_leaves_agree : (threeLeavesItems 5 7).Pairwise itemBefore ∧
    ∃ rows, Yields (TableCursor.next (threeLeaves 5 7)) (TableCursor.row (threeLeaves 5 7))
        ((TableCursor.new ⟨512, 0⟩ 2).first (threeLeaves 5 7)) rows ∧
      countTableRows (threeLeaves 5 7) 2 = .ok rows.length := by
  have hroot : cursorKind.interior 2 (rootPage 5 7) [(3, 5), (4, 7)] 5 :=
    ⟨by decide +kernel, by decide +kernel, by decide +kernel⟩
  have hord : (threeLeavesItems 5 7).Pairwise itemBefore := by decide +kernel
  obtain ⟨rows, hscan, -, -, -, hcount⟩ := cursor_functions_agree (threeLeaves 5 7) (TableCursor.new ⟨512, 0⟩ 2)
    (threeLeaves_tree hroot) (by decide) hord
  exact ⟨hord, rows, hscan, hcount⟩

/-! ## A separator below a row before it -/

/-- Every separator is at least every rowid in its own child. -/
inductive BoundsChildren (view : UInt32 → Option Bytes) : List (UInt32 × Int64) → UInt32 → Prop where
  | leaf {p : UInt32} {v : Bytes} {rows : List (Int64 × CurrentCell)} : view p = some v → cursorKind.leaf p v rows →
      BoundsChildren view [] p
  | node {p : UInt32} {v : Bytes} {es : List (UInt32 × Int64)} {r : UInt32} : view p = some v →
      cursorKind.interior p v es r → BoundsChildren view es r → BoundsChildren view [] p
  | cons {c : UInt32} {k : Int64} {es : List (UInt32 × Int64)} {r : UInt32}
      {items : List ((Int64 × CurrentCell) ⊕ Int64)} {own : Finset UInt32} :
      PagedTree.Tree cursorKind view [] c items own → (∀ row ∈ rowsOf items, row.1 ≤ k) →
      BoundsChildren view [] c → BoundsChildren view es r → BoundsChildren view ((c, k) :: es) r

/-- Rowids ascend, and a separator is less than every rowid after it. -/
def ascends : (Int64 × CurrentCell) ⊕ Int64 → (Int64 × CurrentCell) ⊕ Int64 → Prop
  | .inl a, .inl b => a.1 < b.1
  | .inr k, .inl b => k < b.1
  | _, .inr _ => True

instance : DecidableRel ascends := fun a b =>
  match a, b with
  | .inl a, .inl b => inferInstanceAs (Decidable (a.1 < b.1))
  | .inr k, .inl b => inferInstanceAs (Decidable (k < b.1))
  | .inl _, .inr _ => inferInstanceAs (Decidable True)
  | .inr _, .inr _ => inferInstanceAs (Decidable True)

/-- With the separators 5 and 3, the search for row 4 ends behind the empty
leaf. -/
theorem seek_misses_scanned_row :
    (∃ own, PagedTree.Tree cursorKind (threeLeaves 5 3).pages [] 2 (threeLeavesItems 5 3) own ∧ own.card < 1000000) ∧
    BoundsChildren (threeLeaves 5 3).pages [] 2 ∧ (threeLeavesItems 5 3).Pairwise ascends ∧
    Yields (TableCursor.next (threeLeaves 5 3)) (TableCursor.row (threeLeaves 5 3))
      ((TableCursor.new ⟨512, 0⟩ 2).first (threeLeaves 5 3)) [(4, .ok []), (10, .ok [])] ∧
    ((TableCursor.new ⟨512, 0⟩ 2).seek (threeLeaves 5 3) 4).1 = .ok none := by
  have hroot : cursorKind.interior 2 (rootPage 5 3) [(3, 5), (4, 3)] 5 :=
    ⟨by decide +kernel, by decide +kernel, by decide +kernel⟩
  have htree := threeLeaves_tree hroot
  refine ⟨⟨_, htree, by decide⟩, ?_, by decide +kernel, ?_, by decide +kernel⟩
  · exact .node rfl hroot (.cons (threeLeaves_row4 5 3) (by decide +kernel) (.leaf rfl row4_leaf)
      (.cons (threeLeaves_empty 5 3) (by decide +kernel) (.leaf rfl empty_leaf) (.leaf rfl row10_leaf)))
  · exact first_yields (TableCursor.new ⟨512, 0⟩ 2) (tree_walk htree) (by decide)

end DbStorage.Btree
