import DbStorage.Btree.IndexKey
import DbStorage.Btree.TableCursor

/-!
# The index cursor (`btree/index.rs`)

An index keeps entries on its interior pages as well, so `IndexCursor` counts
the steps of an interior page: a child on each even step, an entry on each
odd one. `seek` goes down to the first entry that is not less than a target
and leaves the counters of all pages on its way as a full scan would.

Result: `index_scans_agree`, for every index and target: the reverse scan is
the reverse of the scan, and a lookup goes on as the scan does from the first
entry that is not less than the target.
-/
namespace DbStorage.Btree.Index
open Bytes Pager Record PageWalk List

/-- mirrors index.rs:63-76 -/
structure IndexFrame where
  pageNum : UInt32
  isInterior : Bool
  numCells : Nat
  cellPtrBase : Nat
  rightmost : UInt32
  step : Nat
  page : Bytes

/-- The source's `stack` and `pages_visited` are `walk`.
mirrors index.rs:80-86 -/
structure IndexCursor where
  usableSize : Nat
  rootPage : UInt32
  walk : Traversal IndexFrame

def IndexCursor.new (usableSize : Nat) (rootPage : UInt32) : IndexCursor := ⟨usableSize, rootPage, ⟨[], 0⟩⟩

section
variable (source : PageSource) (usableSize : Nat)

/-- mirrors index.rs:236-272 -/
def loadFrame (pageNum : UInt32) : Except BtreeError IndexFrame := do
  let page ← source.readPage pageNum
  let headerStart := page1HeaderStart pageNum
  let pageType ← readPageType page headerStart pageNum
  if pageType = leafIndex then do
    let numCells ← readNumCells page headerStart pageNum
    .ok ⟨pageNum, false, numCells, headerStart + 8, 0, 0, page⟩
  else if pageType = interiorIndex then
    if page.length < headerStart + 12 then .error (.pageTooShort pageNum page.length)
    else do
      let numCells ← readNumCells page headerStart pageNum
      let rightmost ← readU32 page (headerStart + 8) pageNum
      .ok ⟨pageNum, true, numCells, headerStart + 12, rightmost, 0, page⟩
  else .error (.unexpectedPageType pageNum pageType)

/-- mirrors index.rs:323-334 -/
def loadFrameDesc (pageNum : UInt32) : Except BtreeError IndexFrame := do
  let frame ← loadFrame source pageNum
  .ok { frame with step := if frame.isInterior then frame.numCells * 2 + 1 else frame.numCells }

/-- The child of an interior cell. -/
def childCell (page : Bytes) (ptrBase : Nat) (pageNum : UInt32) (i : Nat) : Except BtreeError UInt32 := do
  let cellStart ← readCellPointer page (cellPtrOffset ptrBase i) pageNum i
  readU32 page cellStart pageNum

/-- mirrors index.rs:399-408 -/
def IndexFrame.readInteriorChild (frame : IndexFrame) (cellIndex : Nat) : Except BtreeError UInt32 :=
  childCell frame.page frame.cellPtrBase frame.pageNum cellIndex

/-- The entry of a cell whose value starts `skip` bytes into it. -/
def valueCell (page : Bytes) (ptrBase : Nat) (pageNum : UInt32) (skip i : Nat) : Except BtreeError Bytes := do
  let cellStart ← readCellPointer page (cellPtrOffset ptrBase i) pageNum i
  let (payloadLen, tailStart) ← decodePayloadLen page (cellStart + skip) pageNum
  reassemblePayload source usableSize pageNum page tailStart payloadLen true

/-- mirrors index.rs:414-434 -/
def IndexFrame.decodeLeafEntry (frame : IndexFrame) (cellIndex : Nat) : Except BtreeError Bytes :=
  valueCell source usableSize frame.page frame.cellPtrBase frame.pageNum 0 cellIndex

/-- An interior cell starts with the child.
mirrors index.rs:440-463 -/
def IndexFrame.decodeInteriorEntry (frame : IndexFrame) (cellIndex : Nat) : Except BtreeError Bytes :=
  valueCell source usableSize frame.page frame.cellPtrBase frame.pageNum 4 cellIndex

/-- One turn of the loop in `advance`.
mirrors index.rs:289-315 -/
def IndexFrame.turn (f : IndexFrame) : Turn UInt32 Bytes IndexFrame BtreeError :=
  if !f.isInterior then
    if f.numCells ≤ f.step then .pop
    else .yield { f with step := f.step + 1 } (f.decodeLeafEntry source usableSize f.step)
  else
    let totalSteps := f.numCells * 2
    if totalSteps < f.step then .pop
    else
      let f' := { f with step := f.step + 1 }
      if f.step = totalSteps then .descend f' (.ok f.rightmost)
      else if f.step % 2 = 0 then .descend f' (f.readInteriorChild (f.step / 2))
      else .yield f' (f.decodeInteriorEntry source usableSize ((f.step - 1) / 2))

/-- One turn of the loop in `advance_desc`.
mirrors index.rs:363-391 -/
def IndexFrame.turnDesc (f : IndexFrame) : Turn UInt32 Bytes IndexFrame BtreeError :=
  if !f.isInterior then
    if f.step = 0 then .pop
    else .yield { f with step := f.step - 1 } (f.decodeLeafEntry source usableSize (f.step - 1))
  else if f.step = 0 then .pop
  else
    let a := f.step - 1
    let f' := { f with step := a }
    if a % 2 = 0 then
      if a / 2 = f.numCells then .descend f' (.ok f.rightmost) else .descend f' (f.readInteriorChild (a / 2))
    else .yield f' (f.decodeInteriorEntry source usableSize ((a - 1) / 2))

/-- How a cursor walks, in ascending or in descending order. -/
def indexReader (desc : Bool) : Reader UInt32 Bytes IndexFrame BtreeError where
  turn := if desc then IndexFrame.turnDesc source usableSize else IndexFrame.turn source usableSize
  load := if desc then loadFrameDesc source else loadFrame source
  max := maxPagesVisited
  tooLong := .traversalTooLong maxPagesVisited

end

def IndexCursor.moved (c : IndexCursor) (r : Except BtreeError (Option Bytes) × Traversal IndexFrame) :
    Except BtreeError (Option Bytes) × IndexCursor := (r.1, { c with walk := r.2 })

section
variable (source : PageSource)

/-- mirrors index.rs:103-108 -/
def IndexCursor.first (c : IndexCursor) : Except BtreeError (Option Bytes) × IndexCursor :=
  c.moved ((indexReader source c.usableSize false).start c.rootPage)

/-- mirrors index.rs:113-115 -/
def IndexCursor.next (c : IndexCursor) : Except BtreeError (Option Bytes) × IndexCursor :=
  c.moved ((indexReader source c.usableSize false).next c.walk)

/-- mirrors index.rs:123-128 -/
def IndexCursor.last (c : IndexCursor) : Except BtreeError (Option Bytes) × IndexCursor :=
  c.moved ((indexReader source c.usableSize true).start c.rootPage)

/-- mirrors index.rs:132-134 -/
def IndexCursor.prev (c : IndexCursor) : Except BtreeError (Option Bytes) × IndexCursor :=
  c.moved ((indexReader source c.usableSize true).next c.walk)

/-! ## Lookups -/

section
variable (target : List Value) (encoding : TextEncoding)

/-- One probe of `binary_search_page`.
mirrors index.rs:208-219 -/
def probeKey (entry : Nat → Except BtreeError Bytes) (mid : Nat) : Except BtreeError (Probe Empty Unit) := do
  let payload ← entry mid
  let key ← (decodeRecord payload encoding).mapError .invalidKeyRecord
  .ok (if compareKeys key target ≠ .lt then .left () else .right)

def searchedIndex : Empty ⊕ Nat × Unit → Nat
  | .inr (i, _) => i

/-- mirrors index.rs:197-222 -/
def IndexFrame.binarySearchPage (usableSize : Nat) (f : IndexFrame) : Except BtreeError Nat := do
  let entry := if f.isInterior then f.decodeInteriorEntry source usableSize else f.decodeLeafEntry source usableSize
  let r ← bisect (probeKey target encoding entry) f.numCells 0 f.numCells ()
  .ok (searchedIndex r)

/-- The loop of `seek`. A turn opens a page or ends the loop, so the bound on
pages bounds the turns; the stack is never empty here.
mirrors index.rs:169-189 -/
def descend (usableSize : Nat) : Nat → Traversal IndexFrame → Except BtreeError Unit × Traversal IndexFrame
  | 0, t => (.error (.traversalTooLong maxPagesVisited), t)
  | fuel + 1, t =>
    match t.stack with
    | [] => (.ok (), t)
    | f :: rest =>
      match f.binarySearchPage source target encoding usableSize with
      | .error e => (.error e, t)
      | .ok i =>
        if !f.isInterior then (.ok (), { t with stack := { f with step := i } :: rest })
        else
          let f' := { f with step := if i < f.numCells then i * 2 + 1 else f.numCells * 2 + 1 }
          match if i < f.numCells then f'.readInteriorChild i else .ok f'.rightmost with
          | .error e => (.error e, { t with stack := f' :: rest })
          | .ok child =>
            match (indexReader source usableSize false).push child { t with stack := f' :: rest } with
            | (.error e, t') => (.error e, t')
            | (.ok (), t') => descend usableSize fuel t'

/-- mirrors index.rs:161-191 -/
def IndexCursor.seek (c : IndexCursor) : Except BtreeError (Option Bytes) × IndexCursor :=
  match (indexReader source c.usableSize false).push c.rootPage ⟨[], 0⟩ with
  | (.error e, t) => (.error e, { c with walk := t })
  | (.ok (), t) =>
    match descend source target encoding c.usableSize (maxPagesVisited + 1) t with
    | (.error e, t') => (.error e, { c with walk := t' })
    | (.ok (), t') => c.moved ((indexReader source c.usableSize false).next t')

end
end

/-! ## Indexes -/

/-- The pages of an index as its readers decode them. -/
def indexKind (source : PageSource) (usableSize : Nat) : PagedTree.Kind UInt32 Bytes Bytes Bytes where
  leaf p page rows := readPageType page (page1HeaderStart p) p = .ok leafIndex ∧
    readNumCells page (page1HeaderStart p) p = .ok rows.length ∧
    ∀ (i : Nat) (h : i < rows.length), valueCell source usableSize page (page1HeaderStart p + 8) p 0 i = .ok rows[i]
  interior p page es r := readPageType page (page1HeaderStart p) p = .ok interiorIndex ∧
    page1HeaderStart p + 12 ≤ page.length ∧ readNumCells page (page1HeaderStart p) p = .ok es.length ∧
    readU32 page (page1HeaderStart p + 8) p = .ok r ∧
    ∀ (i : Nat) (h : i < es.length), childCell page (page1HeaderStart p + 12) p i = .ok es[i].1 ∧
      valueCell source usableSize page (page1HeaderStart p + 12) p 4 i = .ok es[i].2

/-- The visits of an index page: its own entries stand between its children. -/
abbrev IndexVisits (source : PageSource) (usableSize : Nat) : UInt32 → List (Visit UInt32 Bytes) → Prop :=
  PageVisits (indexKind source usableSize) source.pages id fun k => [k]

/-- The visits of an interior page in the order of its steps. -/
abbrev steps (es : List (UInt32 × Bytes)) (r : UInt32) : List (Visit UInt32 Bytes) := interiorVisits (fun k => [k]) es r

theorem steps_cons (e : UInt32 × Bytes) (es : List (UInt32 × Bytes)) (r : UInt32) :
    steps (e :: es) r = .down e.1 :: .emit e.2 :: steps es r := rfl

theorem steps_append (es₁ es₂ : List (UInt32 × Bytes)) (r : UInt32) :
    (steps (es₁ ++ es₂) r).drop (es₁.length * 2) = steps es₂ r := by
  induction es₁ with
  | nil => rfl
  | cons e es₁ ih =>
    rw [cons_append, steps_cons, length_cons, Nat.add_mul]
    exact ih

theorem steps_length (es : List (UInt32 × Bytes)) (r : UInt32) : (steps es r).length = es.length * 2 + 1 := by
  induction es with
  | nil => rfl
  | cons e es ih => rw [steps_cons, length_cons, length_cons, ih, length_cons, Nat.add_mul]

/-- What is done on a step. -/
inductive StepAt (es : List (UInt32 × Bytes)) (r : UInt32) (a : Nat) : Prop where
  | last : a = es.length * 2 → (steps es r)[a]? = some (.down r) → StepAt es r a
  | child (e : UInt32 × Bytes) : a % 2 = 0 → a ≠ es.length * 2 → es[a / 2]? = some e →
      (steps es r)[a]? = some (.down e.1) → StepAt es r a
  | entry (e : UInt32 × Bytes) : a % 2 = 1 → es[(a - 1) / 2]? = some e →
      (steps es r)[a]? = some (.emit e.2) → StepAt es r a

theorem stepAt {es : List (UInt32 × Bytes)} {r : UInt32} {a : Nat} (h : a ≤ es.length * 2) : StepAt es r a := by
  induction es generalizing a with
  | nil =>
    obtain rfl : a = 0 := by simpa using h
    exact .last rfl rfl
  | cons e es ih =>
    match a with
    | 0 => exact .child e rfl (by simp) rfl rfl
    | 1 => exact .entry e rfl rfl rfl
    | a + 2 =>
      rw [length_cons] at h
      cases ih (a := a) (by omega) with
      | last heq hs => exact .last (by rw [length_cons]; omega) hs
      | child e' heven hne he hs =>
        refine .child e' (by omega) (by rw [length_cons]; omega) ?_ hs
        rw [show (a + 2) / 2 = a / 2 + 1 by omega]
        exact he
      | entry e' hodd he hs =>
        refine .entry e' (by omega) ?_ hs
        rw [show (a + 2 - 1) / 2 = (a - 1) / 2 + 1 by omega]
        exact he

/-! ## Frames -/

variable {f : IndexFrame} {α O : Type} {n v : Nat}

section
variable {source : PageSource} {usableSize : Nat}

/-- A frame of a leaf with these entries, at any step. -/
structure LeafFrame (source : PageSource) (usableSize : Nat) (f : IndexFrame) (rows : List Bytes) : Prop where
  isInterior : f.isInterior = false
  numCells : f.numCells = rows.length
  entry (i : Nat) (h : i < rows.length) : f.decodeLeafEntry source usableSize i = .ok rows[i]

/-- A frame of an interior page with these entries, at any step. -/
structure InteriorFrame (source : PageSource) (usableSize : Nat) (f : IndexFrame) (es : List (UInt32 × Bytes))
    (r : UInt32) : Prop where
  isInterior : f.isInterior = true
  numCells : f.numCells = es.length
  rightmost : f.rightmost = r
  child {i : Nat} {e : UInt32 × Bytes} : es[i]? = some e → f.readInteriorChild i = .ok e.1
  entry {i : Nat} {e : UInt32 × Bytes} : es[i]? = some e → f.decodeInteriorEntry source usableSize i = .ok e.2

theorem LeafFrame.at {rows : List Bytes} (h : LeafFrame source usableSize f rows) (n : Nat) :
    LeafFrame source usableSize { f with step := n } rows := ⟨h.isInterior, h.numCells, h.entry⟩

theorem InteriorFrame.at {es : List (UInt32 × Bytes)} {r : UInt32} (h : InteriorFrame source usableSize f es r)
    (n : Nat) :
    InteriorFrame source usableSize { f with step := n } es r :=
  ⟨h.isInterior, h.numCells, h.rightmost, h.child, h.entry⟩

theorem loadFrame_leaf {p : UInt32} {page : Bytes} {rows : List Bytes} (hp : source.pages p = some page)
    (h : (indexKind source usableSize).leaf p page rows) :
    ∃ f, loadFrame source p = .ok f ∧ LeafFrame source usableSize f rows ∧ f.step = 0 := by
  obtain ⟨htype, hn, hcell⟩ := h
  refine ⟨⟨p, false, rows.length, page1HeaderStart p + 8, 0, 0, page⟩, ?_, ⟨rfl, rfl, hcell⟩, rfl⟩
  simp [loadFrame, readPage_ok hp, htype, hn, bind, Except.bind]

theorem loadFrame_interior {p : UInt32} {page : Bytes} {es : List (UInt32 × Bytes)} {r : UInt32}
    (hp : source.pages p = some page) (h : (indexKind source usableSize).interior p page es r) :
    ∃ f, loadFrame source p = .ok f ∧ InteriorFrame source usableSize f es r ∧ f.step = 0 := by
  obtain ⟨htype, hlen, hn, hr, hcell⟩ := h
  refine ⟨⟨p, true, es.length, page1HeaderStart p + 12, r, 0, page⟩, ?_, ⟨rfl, rfl, rfl, ?_, ?_⟩, rfl⟩
  · have hne : interiorIndex ≠ leafIndex := by decide
    simp [loadFrame, readPage_ok hp, htype, hn, hr, bind, Except.bind, hne, Nat.not_lt.2 hlen]
  · intro i e he
    obtain ⟨hi, rfl⟩ := List.getElem?_eq_some_iff.1 he
    exact (hcell i hi).1
  · intro i e he
    obtain ⟨hi, rfl⟩ := List.getElem?_eq_some_iff.1 he
    exact (hcell i hi).2

/-- The visits that a frame has left, in ascending order. -/
inductive LeftAsc (source : PageSource) (usableSize : Nat) (f : IndexFrame) : List (Visit UInt32 Bytes) → Prop where
  | leaf {rows : List Bytes} : LeafFrame source usableSize f rows → f.step ≤ rows.length →
      LeftAsc source usableSize f ((rows.drop f.step).map .emit)
  | interior {es : List (UInt32 × Bytes)} {r : UInt32} : InteriorFrame source usableSize f es r →
      LeftAsc source usableSize f ((steps es r).drop f.step)

/-- The visits that a frame has left, in descending order. -/
inductive LeftDesc (source : PageSource) (usableSize : Nat) (f : IndexFrame) : List (Visit UInt32 Bytes) → Prop where
  | leaf {rows : List Bytes} : LeafFrame source usableSize f rows → f.step ≤ rows.length →
      LeftDesc source usableSize f ((rows.take f.step).reverse.map .emit)
  | interior {es : List (UInt32 × Bytes)} {r : UInt32} : InteriorFrame source usableSize f es r →
      f.step ≤ es.length * 2 + 1 → LeftDesc source usableSize f ((steps es r).take f.step).reverse

theorem drop_of_getElem? {l : List α} {a : α} (h : l[n]? = some a) : l.drop n = a :: l.drop (n + 1) := by
  obtain ⟨hn, rfl⟩ := List.getElem?_eq_some_iff.1 h
  exact drop_eq_getElem_cons hn

theorem take_reverse_of_getElem? {l : List α} {a : α} (h : l[n]? = some a) :
    (l.take (n + 1)).reverse = a :: (l.take n).reverse := by
  obtain ⟨hn, rfl⟩ := List.getElem?_eq_some_iff.1 h
  exact take_reverse_cons hn

theorem LeftAsc.turn {vs : List (Visit UInt32 Bytes)} (h : LeftAsc source usableSize f vs) :
    Turns (IndexFrame.turn source usableSize) (LeftAsc source usableSize) f vs := by
  cases h with
  | @leaf rows hf hle =>
    rcases Nat.lt_or_eq_of_le hle with hlt | heq
    · rw [drop_eq_getElem_cons hlt]
      refine ⟨_, ?_, LeftAsc.leaf (hf.at (f.step + 1)) hlt⟩
      simp [IndexFrame.turn, hf.isInterior, hf.numCells, Nat.not_le.2 hlt, hf.entry _ hlt]
    · simp [heq, Turns, IndexFrame.turn, hf.isInterior, hf.numCells]
  | @interior es r hf =>
    rcases Nat.lt_or_ge (es.length * 2) f.step with hlt | hle
    · rw [drop_eq_nil_of_le (by rw [steps_length]; omega)]
      simp [Turns, IndexFrame.turn, hf.isInterior, hf.numCells, hlt]
    · cases stepAt (r := r) hle with
      | last heq hs =>
        rw [drop_of_getElem? hs]
        refine ⟨_, ?_, LeftAsc.interior (hf.at (f.step + 1))⟩
        simp [IndexFrame.turn, hf.isInterior, hf.numCells, hf.rightmost, heq]
      | child e heven hne he hs =>
        rw [drop_of_getElem? hs]
        refine ⟨_, ?_, LeftAsc.interior (hf.at (f.step + 1))⟩
        simp [IndexFrame.turn, hf.isInterior, hf.numCells, Nat.not_lt.2 hle, hne, heven, hf.child he]
      | entry e hodd he hs =>
        rw [drop_of_getElem? hs]
        refine ⟨_, ?_, LeftAsc.interior (hf.at (f.step + 1))⟩
        have hne : f.step ≠ es.length * 2 := by omega
        simp [IndexFrame.turn, hf.isInterior, hf.numCells, Nat.not_lt.2 hle, hne, hodd, hf.entry he]

theorem LeftDesc.turn {vs : List (Visit UInt32 Bytes)} (h : LeftDesc source usableSize f vs) :
    Turns (IndexFrame.turnDesc source usableSize) (LeftDesc source usableSize) f vs := by
  cases h with
  | @leaf rows hf hle =>
    rcases hn : f.step with _ | n
    · simp [Turns, IndexFrame.turnDesc, hf.isInterior, hn]
    · have hlt : n < rows.length := by omega
      rw [take_reverse_cons hlt]
      refine ⟨_, ?_, LeftDesc.leaf (hf.at n) (Nat.le_of_lt hlt)⟩
      simp [IndexFrame.turnDesc, hf.isInterior, hn, hf.entry _ hlt]
  | @interior es r hf hle =>
    rcases hn : f.step with _ | a
    · simp [Turns, IndexFrame.turnDesc, hf.isInterior, hn]
    · have ha : a ≤ es.length * 2 := by omega
      cases stepAt (r := r) ha with
      | last heq hs =>
        rw [take_reverse_of_getElem? hs]
        refine ⟨_, ?_, LeftDesc.interior (hf.at a) (Nat.le_succ_of_le ha)⟩
        have heven : a % 2 = 0 := by omega
        have hhalf : a / 2 = es.length := by omega
        simp [IndexFrame.turnDesc, hf.isInterior, hf.numCells, hn, heven, hhalf, hf.rightmost]
      | child e heven hne he hs =>
        rw [take_reverse_of_getElem? hs]
        refine ⟨_, ?_, LeftDesc.interior (hf.at a) (Nat.le_succ_of_le ha)⟩
        have hhalf : a / 2 ≠ es.length := by omega
        simp [IndexFrame.turnDesc, hf.isInterior, hf.numCells, hn, heven, hhalf, hf.child he]
      | entry e hodd he hs =>
        rw [take_reverse_of_getElem? hs]
        refine ⟨_, ?_, LeftDesc.interior (hf.at a) (Nat.le_succ_of_le ha)⟩
        simp [IndexFrame.turnDesc, hf.isInterior, hf.numCells, hn, hodd, hf.entry he]

variable (source usableSize)

theorem asc_lawful :
    (indexReader source usableSize false).Lawful (IndexVisits source usableSize) (LeftAsc source usableSize) where
  turn h := h.turn
  load {p vs} h := by
    cases h with
    | leaf hv hl =>
      obtain ⟨f, hload, hf, hstep⟩ := loadFrame_leaf hv hl
      have := LeftAsc.leaf hf (by omega)
      rw [hstep, drop_zero] at this
      exact ⟨f, hload, this⟩
    | interior hv hi =>
      obtain ⟨f, hload, hf, hstep⟩ := loadFrame_interior hv hi
      have := LeftAsc.interior hf
      rw [hstep, drop_zero] at this
      exact ⟨f, hload, this⟩

theorem desc_lawful :
    (indexReader source usableSize true).Lawful (fun p vs => IndexVisits source usableSize p vs.reverse)
      (LeftDesc source usableSize) where
  turn h := h.turn
  load {p vs} h := by
    generalize hrev : vs.reverse = ws at h
    obtain rfl : vs = ws.reverse := by rw [← hrev, reverse_reverse]
    cases h with
    | @leaf v rows hv hl =>
      obtain ⟨f, hload, hf, -⟩ := loadFrame_leaf hv hl
      have := LeftDesc.leaf (hf.at rows.length) le_rfl
      rw [take_length, map_reverse] at this
      refine ⟨_, ?_, this⟩
      have hdesc : loadFrameDesc source p = .ok { f with step := rows.length } := by
        simp [loadFrameDesc, hload, hf.isInterior, hf.numCells, bind, Except.bind]
      exact hdesc
    | @interior v es r hv hi =>
      obtain ⟨f, hload, hf, -⟩ := loadFrame_interior hv hi
      have := LeftDesc.interior (hf.at (es.length * 2 + 1)) le_rfl
      rw [take_of_length_le (Nat.le_of_eq (steps_length es r))] at this
      refine ⟨_, ?_, this⟩
      have hdesc : loadFrameDesc source p = .ok { f with step := es.length * 2 + 1 } := by
        simp [loadFrameDesc, hload, hf.isInterior, hf.numCells, bind, Except.bind]
      exact hdesc

end

/-! ## Scans -/

/-- The entries of an index, in order. -/
def entries (items : List (Bytes ⊕ Bytes)) : List Bytes := entriesOf id (fun k => [k]) items

theorem tree_walk {source : PageSource} {usableSize : Nat} {p : UInt32} {items : List (Bytes ⊕ Bytes)}
    {own : Finset UInt32} (h : PagedTree.Tree (indexKind source usableSize) source.pages [] p items own) :
    Walk (IndexVisits source usableSize) [.down p] (entries items) own.card := walk_children h

theorem moved_yields {source : PageSource} {c : IndexCursor} {t : Traversal IndexFrame} {out : List Bytes}
    (h : Pending (IndexVisits source c.usableSize) (LeftAsc source c.usableSize) t.stack out n)
    (hv : t.pagesVisited + n ≤ maxPagesVisited) : Yields (IndexCursor.next source) (fun row _ => row)
      (c.moved ((indexReader source c.usableSize false).next t)) out := by
  have := h.yields (asc_lawful source c.usableSize) (IndexCursor.next source) (fun row _ => row)
    id IndexCursor.walk IndexCursor.moved (fun s => s.usableSize = c.usableSize)
    (fun s hs => by rw [IndexCursor.next, hs]) (fun _ _ _ => ⟨_, rfl⟩)
    (fun s e t hs => ⟨_, _, rfl, rfl, hs, rfl⟩) (s := c) rfl hv
  rwa [map_id] at this

theorem first_yields {source : PageSource} (c : IndexCursor) {out : List Bytes}
    (h : Walk (IndexVisits source c.usableSize) [.down c.rootPage] out n) (hn : n ≤ maxPagesVisited) :
    Yields (IndexCursor.next source) (fun row _ => row) (c.first source) out := by
  obtain ⟨t, m, hstart, hpend, hv⟩ := (asc_lawful source c.usableSize).start h hn
  rw [IndexCursor.first, hstart]
  exact moved_yields hpend hv

theorem first_overruns {source : PageSource} (c : IndexCursor) {out : List Bytes} {see : Bytes → IndexCursor → O}
    {os : List O} (h : Walk (IndexVisits source c.usableSize) [.down c.rootPage] out n) (hn : maxPagesVisited < n) :
    ¬ Yields (IndexCursor.next source) see (c.first source) os :=
  Overruns.not_yields (asc_lawful source c.usableSize) _ _ IndexCursor.walk IndexCursor.moved
    (fun s => s.usableSize = c.usableSize) (fun s hs => by rw [IndexCursor.next, hs]) (fun _ _ _ => ⟨_, _, rfl⟩)
    (fun _ _ _ hs => ⟨_, _, rfl, rfl, hs⟩) rfl ((asc_lawful source c.usableSize).start_overruns h hn)

theorem last_yields {source : PageSource} (c : IndexCursor) {out : List Bytes}
    (h : Walk (IndexVisits source c.usableSize) [.down c.rootPage] out n) (hn : n ≤ maxPagesVisited) :
    Yields (IndexCursor.prev source) (fun row _ => row) (c.last source) out.reverse := by
  obtain ⟨t, m, hstart, hpend, hv⟩ := (desc_lawful source c.usableSize).start h.reverse hn
  have := hpend.yields (desc_lawful source c.usableSize) (IndexCursor.prev source) (fun row _ => row)
    id IndexCursor.walk IndexCursor.moved (fun s => s.usableSize = c.usableSize)
    (fun s hs => by rw [IndexCursor.prev, hs]) (fun _ _ _ => ⟨_, rfl⟩)
    (fun s e t hs => ⟨_, _, rfl, rfl, hs, rfl⟩) (s := c) rfl hv
  rw [map_id] at this
  rwa [IndexCursor.last, hstart]

/-! ## Every scan ends -/

/-- The entries that a frame may still yield. -/
def IndexFrame.entriesLeft (f : IndexFrame) : Nat :=
  if f.isInterior then f.numCells - f.step / 2 else f.numCells - f.step

theorem loadFrame_numCells {source : PageSource} {p : UInt32} (h : loadFrame source p = .ok f) :
    f.numCells < 2 ^ 16 := by
  obtain ⟨page, -, h⟩ := bind_eq_ok_iff.1 h
  obtain ⟨pageType, -, h⟩ := bind_eq_ok_iff.1 h
  split at h
  · obtain ⟨n, hn, h⟩ := bind_eq_ok_iff.1 h
    cases h
    exact readNumCells_lt hn
  · split at h
    · split at h
      · cases h
      · obtain ⟨n, hn, h⟩ := bind_eq_ok_iff.1 h
        obtain ⟨r, -, h⟩ := bind_eq_ok_iff.1 h
        cases h
        exact readNumCells_lt hn
    · cases h

theorem asc_weighs (source : PageSource) (usableSize : Nat) :
    (indexReader source usableSize false).Weighs IndexFrame.entriesLeft (2 ^ 16) where
  yield {f f' e} h := by
    have h : f.turn source usableSize = .yield f' (.ok e) := h
    unfold IndexFrame.turn at h
    grind [IndexFrame.entriesLeft]
  descend {f f' p} h := by
    have h : f.turn source usableSize = .descend f' (.ok p) := h
    unfold IndexFrame.turn at h
    grind [IndexFrame.entriesLeft]
  load {p f} h := by
    have := loadFrame_numCells h
    grind [IndexFrame.entriesLeft]

theorem index_scan_ends (source : PageSource) (c : IndexCursor) (see : Bytes → IndexCursor → O) (tooLong : BtreeError)
    (k : Nat) :
    collect (IndexCursor.next source) see tooLong (maxRows + k) (c.first source) =
      collect (IndexCursor.next source) see tooLong maxRows (c.first source) := by
  refine collect_stable (m := fun s => s.walk.weight maxPagesVisited IndexFrame.entriesLeft (2 ^ 16))
    (fun s row s' h => ?_) maxRows k _ (Nat.succ_pos _) fun row s h => ?_
  · obtain ⟨hres, rfl⟩ := Prod.mk.inj h
    exact (asc_weighs source s.usableSize).advance (Prod.ext hres rfl)
  · obtain ⟨hres, rfl⟩ := Prod.mk.inj h
    exact Nat.succ_lt_succ ((asc_weighs source c.usableSize).start (Prod.ext hres rfl))

theorem collect_index {source : PageSource} {c : IndexCursor} {see : Bytes → IndexCursor → O} {tooLong : BtreeError}
    {os : List O} (h : Yields (IndexCursor.next source) see (c.first source) os) :
    collect (IndexCursor.next source) see tooLong maxRows (c.first source) = (os, none) := by
  rw [← index_scan_ends source c see tooLong (os.length + 1)]
  exact collect_of_yields h (by omega)

/-! ## Lookups -/

variable {rest : List IndexFrame} {encoding : TextEncoding}

section
variable {source : PageSource} {usableSize : Nat} {target : List Value} {encoding : TextEncoding}

/-- The entry's key is less than the target. -/
def below (target : List Value) (encoding : TextEncoding) (entry : Bytes) : Bool :=
  match decodeRecord entry encoding with
  | .ok key => compareKeys key target = .lt
  | .error _ => false

/-- No entry below the target stands after one that is not. -/
def Splits (target : List Value) (encoding : TextEncoding) (rows : List Bytes) : Prop :=
  rows.Pairwise fun a b => below target encoding b = true → below target encoding a = true

/-- Every entry is a record. -/
def Decodes (encoding : TextEncoding) (rows : List Bytes) : Prop := ∀ e ∈ rows, ∃ key, decodeRecord e encoding = .ok key

/-- The interval that is left of a search in a page. -/
structure KeyInterval (target : List Value) (encoding : TextEncoding) (rows : List Bytes) (lo hi : Nat) (_ : Unit) :
    Prop where
  le : hi ≤ rows.length
  less (i : Nat) (h : i < rows.length) : i < lo → below target encoding rows[i] = true
  notLess (i : Nat) (h : i < rows.length) : hi ≤ i → below target encoding rows[i] = false

theorem probeKey_eq {entry : Nat → Except BtreeError Bytes} {i : Nat} {e : Bytes} (he : entry i = .ok e)
    (hkey : ∃ key, decodeRecord e encoding = .ok key) :
    probeKey target encoding entry i = .ok (if below target encoding e then .right else .left ()) := by
  obtain ⟨key, hkey⟩ := hkey
  by_cases hlt : compareKeys key target = .lt
  · simp [probeKey, he, hkey, below, hlt, bind, Except.bind, Except.mapError]
  · simp [probeKey, he, hkey, below, hlt, bind, Except.bind, Except.mapError]

theorem probeKey_keeps {entry : Nat → Except BtreeError Bytes} {rows : List Bytes}
    (hentry : ∀ (i : Nat) (h : i < rows.length), entry i = .ok rows[i]) (hkeys : Decodes encoding rows)
    (hsplit : Splits target encoding rows) (lo hi : Nat) (acc : Unit) (hlt : lo < hi)
    (h : KeyInterval target encoding rows lo hi acc) :
    ∃ r, probeKey target encoding entry (lo + (hi - lo) / 2) = .ok r ∧
      r.Keeps (KeyInterval target encoding rows) (fun _ => True) lo hi acc := by
  have hmid : lo + (hi - lo) / 2 < rows.length := by have := h.le; omega
  generalize hm : lo + (hi - lo) / 2 = mid at hmid
  have hord := pairwise_iff_getElem.1 hsplit
  refine ⟨_, probeKey_eq (hentry mid hmid) (hkeys _ (getElem_mem hmid)), ?_⟩
  by_cases hb : below target encoding rows[mid] = true
  · rw [if_pos hb]
    simp only [Probe.Keeps, hm]
    refine ⟨h.le, fun i hi hlt' => ?_, h.notLess⟩
    rcases Nat.lt_or_eq_of_le (Nat.lt_succ_iff.1 hlt') with hlt' | rfl
    · exact hord i mid hi hmid hlt' hb
    · exact hb
  · rw [if_neg hb]
    simp only [Probe.Keeps, hm]
    refine ⟨Nat.le_of_lt hmid, h.less, fun i hi hle => ?_⟩
    rcases Nat.lt_or_eq_of_le hle with hlt' | rfl
    · exact Bool.eq_false_iff.2 fun hbi => hb (hord mid i hmid hi hlt' hbi)
    · exact Bool.eq_false_iff.2 hb

/-- The search in a page ends at the first entry that is not less. -/
theorem binarySearch_rows {entry : Nat → Except BtreeError Bytes} {rows : List Bytes}
    (hentry : ∀ (i : Nat) (h : i < rows.length), entry i = .ok rows[i]) (hkeys : Decodes encoding rows)
    (hsplit : Splits target encoding rows) :
    ∃ r, bisect (probeKey target encoding entry) rows.length 0 rows.length () = .ok r ∧
      KeyInterval target encoding rows (searchedIndex r) (searchedIndex r) () := by
  obtain ⟨r, hr, hend⟩ := bisect_inv (probeKey_keeps hentry hkeys hsplit) rows.length 0 rows.length () (Nat.zero_le _)
    (by omega) ⟨le_rfl, fun i _ hi => absurd hi (Nat.not_lt_zero i), fun i h hi => absurd h (Nat.not_lt.2 hi)⟩
  refine ⟨r, hr, ?_⟩
  rcases r with ⟨⟨⟩⟩ | ⟨i, ⟨⟩⟩
  exact hend

theorem dropWhile_append {p : α → Bool} {xs ys zs : List α} (hx : ∀ x ∈ xs, p x = true) (hz : ∀ z ∈ zs, p z = false) :
    (xs ++ (ys ++ zs)).dropWhile p = ys.dropWhile p ++ zs := by
  rw [dropWhile_append_of_pos hx]
  induction ys with
  | nil =>
    cases zs with
    | nil => rfl
    | cons z zs => simp [hz z mem_cons_self]
  | cons y ys ih =>
    by_cases hy : p y = true
    · simp [hy, ih]
    · simp [hy]

theorem KeyInterval.dropWhile {rows : List Bytes} {i : Nat} (h : KeyInterval target encoding rows i i ()) :
    rows.dropWhile (below target encoding) = rows.drop i := by
  have hx : ∀ x ∈ rows.take i, below target encoding x = true := by
    intro x hx
    obtain ⟨j, hj, rfl⟩ := getElem_of_mem hx
    rw [length_take] at hj
    rw [getElem_take]
    exact h.less j (by omega) (by omega)
  have hz : ∀ z ∈ rows.drop i, below target encoding z = false := by
    intro z hz
    obtain ⟨j, hj, rfl⟩ := getElem_of_mem hz
    rw [getElem_drop]
    exact h.notLess _ _ (by omega)
  calc rows.dropWhile (below target encoding)
      = (rows.take i ++ ([] ++ rows.drop i)).dropWhile (below target encoding) := by simp
    _ = rows.drop i := dropWhile_append hx hz

theorem entries_append (xs ys : List (Bytes ⊕ Bytes)) : entries (xs ++ ys) = entries xs ++ entries ys :=
  flatMap_append

theorem entries_inr (k : Bytes) (xs : List (Bytes ⊕ Bytes)) : entries (.inr k :: xs) = k :: entries xs := rfl

theorem entries_map_inl (rows : List Bytes) : entries (rows.map .inl) = rows := by
  rw [entries, entriesOf, flatMap_map]
  exact (map_eq_flatMap (f := id) ..).symm.trans (map_id _)

/-- The page's own entries are among those of the tree. -/
theorem keys_sublist {es : List (UInt32 × Bytes)} {r : UInt32} {items : List (Bytes ⊕ Bytes)} {own : Finset UInt32}
    (h : PagedTree.Tree (indexKind source usableSize) source.pages es r items own) :
    (es.map Prod.snd).Sublist (entries items) := by
  induction es generalizing items own with
  | nil => exact nil_sublist _
  | cons e es ih =>
    cases h with
    | cons _ hrest _ =>
      rw [entries_append, entries_inr, map_cons]
      exact ((ih hrest).cons_cons _).trans (sublist_append_right _ _)

theorem Splits.sublist {xs ys : List Bytes} (h : Splits target encoding ys) (hs : xs.Sublist ys) :
    Splits target encoding xs := List.Pairwise.sublist hs h

theorem Decodes.sublist {xs ys : List Bytes} (h : Decodes encoding ys) (hs : xs.Sublist ys) : Decodes encoding xs :=
  fun e he => h e (hs.subset he)

/-- What stands in front of an entry that is less is less. -/
theorem Splits.less_before {xs ys : List Bytes} {k : Bytes} (h : Splits target encoding (xs ++ k :: ys))
    (hk : below target encoding k = true) : ∀ x ∈ xs, below target encoding x = true :=
  fun x hx => (pairwise_append.1 h).2.2 x hx k mem_cons_self hk

/-- What stands behind an entry that is not less is not less. -/
theorem Splits.not_less_after {xs ys : List Bytes} {k : Bytes} (h : Splits target encoding (xs ++ k :: ys))
    (hk : below target encoding k = false) : ∀ z ∈ ys, below target encoding z = false :=
  fun z hz => Bool.eq_false_iff.2 fun hb =>
    Bool.eq_false_iff.1 hk ((pairwise_cons.1 (pairwise_append.1 h).2.1).1 z hz hb)

/-- The children before the place of the search hold smaller entries. -/
theorem seg_less {es : List (UInt32 × Bytes)} {i₁ : List (Bytes ⊕ Bytes)} {o₁ : Finset UInt32} {ys : List Bytes}
    (hs : PagedTree.Seg (indexKind source usableSize) source.pages es i₁ o₁)
    (hsplit : Splits target encoding (entries i₁ ++ ys))
    (hless : ∀ e ∈ es, below target encoding e.2 = true) : ∀ x ∈ entries i₁, below target encoding x = true := by
  rcases eq_nil_or_concat es with rfl | ⟨es, e, rfl⟩
  · cases hs
    exact fun x hx => absurd hx not_mem_nil
  · rw [concat_eq_append] at hs hless
    obtain ⟨j₁, j, -, -, -, -, -, rfl, -⟩ := hs.split_last (c := e.1) (k := e.2)
    have hk : below target encoding e.2 = true := hless e (by simp)
    rw [entries_append, entries_append, entries_inr] at hsplit ⊢
    simp only [append_assoc, cons_append] at hsplit
    rw [← append_assoc] at hsplit
    have hbefore := hsplit.less_before hk
    intro x hx
    simp only [mem_append, mem_cons] at hx hbefore
    rcases hx with hx | hx | hx | hx
    · exact hbefore x (.inl hx)
    · exact hbefore x (.inr hx)
    · exact hx ▸ hk
    · exact absurd hx not_mem_nil

/-- Where a descent ends: the stack is that of a scan before the first entry
that is not less. -/
def SeekEnds (source : PageSource) (usableSize : Nat) (r : Except BtreeError Unit × Traversal IndexFrame)
    (out : List Bytes) : Prop :=
  ∃ t n, r = (.ok (), t) ∧ Pending (IndexVisits source usableSize) (LeftAsc source usableSize) t.stack out n ∧
    t.pagesVisited + n ≤ maxPagesVisited

theorem descend_leaf {rows : List Bytes} {out : List Bytes} {fuel : Nat} (hf : LeafFrame source usableSize f rows)
    (hkeys : Decodes encoding rows) (hsplit : Splits target encoding rows)
    (hrest : Pending (IndexVisits source usableSize) (LeftAsc source usableSize) rest out n)
    (hv : v + n ≤ maxPagesVisited) :
    SeekEnds source usableSize (descend source target encoding usableSize (fuel + 1) ⟨f :: rest, v⟩)
      (rows.dropWhile (below target encoding) ++ out) := by
  obtain ⟨r, hr, hi⟩ := binarySearch_rows hf.entry hkeys hsplit
  have hsearch : f.binarySearchPage source target encoding usableSize = .ok (searchedIndex r) := by
    simp [IndexFrame.binarySearchPage, hf.isInterior, hf.numCells, hr, bind, Except.bind]
  refine ⟨⟨{ f with step := searchedIndex r } :: rest, v⟩, 0 + n, ?_, ?_, by rwa [Nat.zero_add]⟩
  · simp [descend, hsearch, hf.isInterior]
  · rw [hi.dropWhile]
    exact .cons (LeftAsc.leaf (hf.at _) hi.le) (Walk.emits _) hrest

/-- The child that a search goes on with: what the page has left behind the
child and what the child holds are the entries from the target on. -/
def GoesTo (source : PageSource) (usableSize : Nat) (target : List Value) (encoding : TextEncoding)
    (es : List (UInt32 × Bytes)) (r : UInt32) (items : List (Bytes ⊕ Bytes)) (own : Finset UInt32) (i : Nat)
    (child : UInt32) : Prop :=
  ∃ inner after o n, PagedTree.Tree (indexKind source usableSize) source.pages [] child inner o ∧
    Walk (IndexVisits source usableSize) ((steps es r).drop (i * 2 + 1)) after n ∧ o.card + n ≤ own.card ∧
    (entries inner).Sublist (entries items) ∧
    (entries items).dropWhile (below target encoding) = (entries inner).dropWhile (below target encoding) ++ after

section
variable {es₁ es₂ : List (UInt32 × Bytes)} {c r : UInt32} {k : Bytes} {items : List (Bytes ⊕ Bytes)}
  {own : Finset UInt32}

theorem goesTo_child
    (h : PagedTree.Tree (indexKind source usableSize) source.pages (es₁ ++ (c, k) :: es₂) r items own)
    (hsplit : Splits target encoding (entries items)) (hless : ∀ e ∈ es₁, below target encoding e.2 = true)
    (hk : below target encoding k = false) :
    GoesTo source usableSize target encoding (es₁ ++ (c, k) :: es₂) r items own es₁.length c := by
  obtain ⟨i₁, i, i₂, o₁, o, o₂, hs, hc, hrest, -, -, hd, rfl, rfl⟩ := h.split_at
  have hrows : entries (i₁ ++ (i ++ .inr k :: i₂)) = entries i₁ ++ (entries i ++ k :: entries i₂) := by
    rw [entries_append, entries_append, entries_inr]
  rw [hrows] at hsplit
  have hafter : ∀ z ∈ k :: entries i₂, below target encoding z = false := by
    intro z hz
    rw [← append_assoc] at hsplit
    rcases mem_cons.1 hz with rfl | hz
    · exact hk
    · exact hsplit.not_less_after hk z hz
  refine ⟨i, k :: entries i₂, o, o₂.card, hc, ?_, ?_, ?_, ?_⟩
  · rw [← drop_drop, steps_append, steps_cons]
    exact .emit (walk_children hrest)
  · rw [← Finset.card_union_of_disjoint hd]
    exact Finset.card_le_card Finset.subset_union_right
  · rw [hrows]
    exact (sublist_append_left _ _).trans (sublist_append_right _ _)
  · rw [hrows]
    exact dropWhile_append (seg_less hs hsplit hless) hafter

theorem goesTo_rightmost (h : PagedTree.Tree (indexKind source usableSize) source.pages es₁ r items own)
    (hsplit : Splits target encoding (entries items)) (hless : ∀ e ∈ es₁, below target encoding e.2 = true) :
    GoesTo source usableSize target encoding es₁ r items own es₁.length r := by
  rw [← append_nil es₁] at h
  obtain ⟨i₁, i, o₁, o, hs, hc, -, rfl, rfl⟩ := h.split
  rw [entries_append] at hsplit
  refine ⟨i, [], o, 0, hc, ?_, ?_, ?_, ?_⟩
  · rw [drop_eq_nil_of_le (Nat.le_of_eq (steps_length es₁ r))]
    exact .nil
  · exact Finset.card_le_card Finset.subset_union_right
  · rw [entries_append]
    exact sublist_append_right _ _
  · rw [entries_append]
    calc (entries i₁ ++ entries i).dropWhile (below target encoding)
        = (entries i₁ ++ (entries i ++ [])).dropWhile (below target encoding) := by rw [append_nil]
      _ = _ := dropWhile_append (seg_less hs hsplit hless) fun z hz => absurd hz not_mem_nil

end

theorem tree_loads {p : UInt32} {items : List (Bytes ⊕ Bytes)} {own : Finset UInt32}
    (h : PagedTree.Tree (indexKind source usableSize) source.pages [] p items own) :
    ∃ f, loadFrame source p = .ok f := by
  cases h with
  | leaf hv hl => exact (loadFrame_leaf hv hl).imp fun _ hf => hf.1
  | node hv hi _ _ => exact (loadFrame_interior hv hi).imp fun _ hf => hf.1

theorem push_loaded {p : UInt32} {st : List IndexFrame} (h : loadFrame source p = .ok f) (hv : v < maxPagesVisited) :
    (indexReader source usableSize false).push p ⟨st, v⟩ = (.ok (), ⟨f :: st, v + 1⟩) := by
  have hload : (indexReader source usableSize false).load p = .ok f := h
  have hmax : ¬ (indexReader source usableSize false).max < v + 1 := Nat.not_lt.2 hv
  simp only [Reader.push, hload, if_neg hmax]

theorem descend_interior {es : List (UInt32 × Bytes)} {r : UInt32} {items : List (Bytes ⊕ Bytes)} {own : Finset UInt32}
    (hf : InteriorFrame source usableSize f es r)
    (ht : PagedTree.Tree (indexKind source usableSize) source.pages es r items own)
    (hkeys : Decodes encoding (entries items)) (hsplit : Splits target encoding (entries items)) (fuel : Nat)
    (rest : List IndexFrame) (hv : v < maxPagesVisited) :
    ∃ i child g, GoesTo source usableSize target encoding es r items own i child ∧ loadFrame source child = .ok g ∧
      descend source target encoding usableSize (fuel + 1) ⟨f :: rest, v⟩ =
        descend source target encoding usableSize fuel ⟨g :: { f with step := i * 2 + 1 } :: rest, v + 1⟩ := by
  have hentry : ∀ (i : Nat) (h : i < (es.map Prod.snd).length),
      f.decodeInteriorEntry source usableSize i = .ok (es.map Prod.snd)[i] := by
    intro i h
    rw [length_map] at h
    rw [getElem_map]
    exact hf.entry (List.getElem?_eq_getElem h)
  have hsub := keys_sublist ht
  obtain ⟨res, hres, hint⟩ := binarySearch_rows hentry (hkeys.sublist hsub) (hsplit.sublist hsub)
  rw [length_map] at hres
  have hsearch : f.binarySearchPage source target encoding usableSize = .ok (searchedIndex res) := by
    simp [IndexFrame.binarySearchPage, hf.isInterior, hf.numCells, hres, bind, Except.bind]
  generalize searchedIndex res = i at hint hsearch
  have hile : i ≤ es.length := by simpa using hint.le
  have hless : ∀ e ∈ es.take i, below target encoding e.2 = true := by
    intro e he
    obtain ⟨j, hj, rfl⟩ := getElem_of_mem he
    rw [length_take] at hj
    have := hint.less j (by rw [length_map]; omega) (by omega)
    rw [getElem_map] at this
    rw [getElem_take]
    exact this
  have hchild : ∃ child, (if i < f.numCells then f.readInteriorChild i else .ok f.rightmost) = .ok child ∧
      GoesTo source usableSize target encoding es r items own i child := by
    rw [hf.numCells]
    rcases Nat.lt_or_eq_of_le hile with hlt | rfl
    · refine ⟨es[i].1, by rw [if_pos hlt, hf.child (List.getElem?_eq_getElem hlt)], ?_⟩
      have hes : es = es.take i ++ (es[i].1, es[i].2) :: es.drop (i + 1) := by
        rw [Prod.mk.eta, ← drop_eq_getElem_cons hlt, take_append_drop]
      have hk : below target encoding es[i].2 = false := by
        have := hint.notLess i (by rwa [length_map]) le_rfl
        rwa [getElem_map] at this
      have hgo := goesTo_child (hes ▸ ht) hsplit hless hk
      rwa [← hes, length_take, Nat.min_eq_left hile] at hgo
    · rw [take_length] at hless
      exact ⟨r, by rw [if_neg (Nat.lt_irrefl _), hf.rightmost], goesTo_rightmost ht hsplit hless⟩
  obtain ⟨child, hread, hgo⟩ := hchild
  obtain ⟨g, hg⟩ : ∃ g, loadFrame source child = .ok g := by
    obtain ⟨inner, after, o, n, hc, -⟩ := hgo
    exact tree_loads hc
  refine ⟨i, child, g, hgo, hg, ?_⟩
  have hstep : (if i < f.numCells then i * 2 + 1 else f.numCells * 2 + 1) = i * 2 + 1 := by
    rw [hf.numCells]
    split
    · rfl
    · omega
  have hread' : (if i < f.numCells then IndexFrame.readInteriorChild { f with step := i * 2 + 1 } i
      else .ok f.rightmost) = .ok child := hread
  have hin : (!f.isInterior) = false := by rw [hf.isInterior, Bool.not_true]
  simp only [descend, hsearch, hin, hstep, hread', push_loaded hg hv, Bool.false_eq_true, if_false]

theorem descend_tree (fuel : Nat) {p : UInt32} {items : List (Bytes ⊕ Bytes)} {own : Finset UInt32}
    (h : PagedTree.Tree (indexKind source usableSize) source.pages [] p items own) (hfuel : own.card ≤ fuel)
    (hkeys : Decodes encoding (entries items)) (hsplit : Splits target encoding (entries items))
    (hload : loadFrame source p = .ok f) {out : List Bytes}
    (hrest : Pending (IndexVisits source usableSize) (LeftAsc source usableSize) rest out n)
    (hv : v + own.card + n ≤ maxPagesVisited + 1) :
    SeekEnds source usableSize (descend source target encoding usableSize fuel ⟨f :: rest, v⟩)
      ((entries items).dropWhile (below target encoding) ++ out) := by
  induction fuel generalizing p items own f rest out n v with
  | zero => exact absurd (Finset.card_pos.2 ⟨p, h.root_mem⟩) (by omega)
  | succ fuel ih =>
    cases h with
    | @leaf _ page rows hp hl =>
      obtain ⟨f', hload', hf, -⟩ := loadFrame_leaf hp hl
      obtain rfl : f' = f := Except.ok.inj (hload'.symm.trans hload)
      rw [entries_map_inl] at hkeys hsplit ⊢
      exact descend_leaf hf hkeys hsplit hrest (by rw [Finset.card_singleton] at hv; omega)
    | @node _ page es r _ own hp hi ht hn =>
      rw [Finset.card_insert_of_notMem hn] at hfuel hv
      obtain ⟨f', hload', hf, -⟩ := loadFrame_interior hp hi
      obtain rfl : f' = f := Except.ok.inj (hload'.symm.trans hload)
      have hpos : 0 < own.card := Finset.card_pos.2 ht.nonempty
      obtain ⟨i, child, g, ⟨inner, after, o, m, hc, hw, hcard, hsub, hdrop⟩, hg, hstep⟩ :=
        descend_interior hf ht hkeys hsplit fuel rest (show v < maxPagesVisited by omega)
      have hpend : Pending (IndexVisits source usableSize) (LeftAsc source usableSize)
          ({ f' with step := i * 2 + 1 } :: rest) (after ++ out) (m + n) :=
        .cons (LeftAsc.interior (hf.at (i * 2 + 1))) hw hrest
      rw [hstep, hdrop, append_assoc]
      exact ih hc (by omega) (hkeys.sublist hsub) (hsplit.sublist hsub) hg hpend (by omega)

end

/-! ## Ascending keys -/

/-- The keys ascend strictly under `compare_keys`. -/
def Ascends (encoding : TextEncoding) (rows : List Bytes) : Prop :=
  rows.Pairwise fun a b => ∃ ka kb, decodeRecord a encoding = .ok ka ∧ decodeRecord b encoding = .ok kb ∧
    compareKeys ka kb = .lt

/-- The keys that an entry may have are exact. -/
def ExactKeys (encoding : TextEncoding) (rows : List Bytes) : Prop :=
  ∀ e ∈ rows, ∀ key, decodeRecord e encoding = .ok key → ∀ v ∈ key, Exact v

/-- Where no number is rounded, ascending keys split at every target. -/
theorem Ascends.splits {rows : List Bytes} {target : List Value} (h : Ascends encoding rows)
    (hrows : ExactKeys encoding rows) (htarget : ∀ v ∈ target, Exact v) : Splits target encoding rows := by
  refine List.Pairwise.imp_of_mem (fun {a b} ha hb hab hbelow => ?_) h
  obtain ⟨ka, kb, hka, hkb, hlt⟩ := hab
  have hkt : compareKeys kb target = .lt := by simpa [below, hkb] using hbelow
  have : compareKeys ka target = .lt := compareKeys_lt_trans (hrows a ha ka hka) (hrows b hb kb hkb) htarget hlt hkt
  simp [below, hka, this]

/-! ## The cursor's functions together -/

/-- An index of one leaf on page 2 with two entries of twelve bytes. -/
def twoEntries (e₁ e₂ : Bytes) : PageSource
  | 2 => .ok ([0x0a, 0, 0, 0, 2, 0, 12, 0, 0, 12, 0, 25] ++ (12 :: e₁ ++ 12 :: e₂))
  | _ => .error .pendingTransaction

def entry (number : Value) (b : UInt8) : Bytes := encodeRecord [number, .blob [b]] .utf8

theorem twoEntries_tree {e₁ e₂ : Bytes}
    (h : (indexKind (twoEntries e₁ e₂) 512).leaf 2
      ([0x0a, 0, 0, 0, 2, 0, 12, 0, 0, 12, 0, 25] ++ (12 :: e₁ ++ 12 :: e₂)) [e₁, e₂]) :
    PagedTree.Tree (indexKind (twoEntries e₁ e₂) 512) (twoEntries e₁ e₂).pages [] 2 [.inl e₁, .inl e₂] {2} :=
  .leaf (show (twoEntries e₁ e₂).pages 2 = some _ from rfl) h

theorem ascends_pair {a b : Bytes} {ka kb : List Value} (ha : decodeRecord a encoding = .ok ka)
    (hb : decodeRecord b encoding = .ok kb) (hlt : compareKeys ka kb = .lt) : Ascends encoding [a, b] := by
  refine .cons (fun x hx => ?_) (pairwise_singleton _ _)
  rw [mem_singleton.1 hx]
  exact ⟨ka, kb, ha, hb, hlt⟩

/-- `2 ^ 53` as a real. -/
def highEntry : Bytes := entry (.real 0x4340000000000000) 99

theorem highEntry_key : decodeRecord highEntry .utf8 = .ok [.real 0x4340000000000000, .blob [99]] := by decide +kernel

/-- `2 ^ 52`, which is exact. -/
def exactEntry : Bytes := entry (.integer 4503599627370496) 98

theorem exactEntry_key : decodeRecord exactEntry .utf8 = .ok [.integer 4503599627370496, .blob [98]] := by
  decide +kernel

theorem exact_keys : ExactKeys .utf8 [exactEntry, highEntry] := by
  intro e he key hkey v hv
  rcases mem_cons.1 he with rfl | he
  · obtain rfl := Except.ok.inj (exactEntry_key.symm.trans hkey)
    rcases mem_cons.1 hv with rfl | hv
    · show roundNat _ = _
      decide +kernel
    · rw [mem_singleton.1 hv]
      trivial
  · rw [mem_singleton.1 he] at hkey
    obtain rfl := Except.ok.inj (highEntry_key.symm.trans hkey)
    rcases mem_cons.1 hv with rfl | hv
    · show isNan _ = false
      decide +kernel
    · rw [mem_singleton.1 hv]
      trivial

/-- `2 ^ 53 + 1`, which is rounded to `2 ^ 53`. -/
def roundedEntry : Bytes := entry (.integer 9007199254740993) 98

theorem roundedEntry_key : decodeRecord roundedEntry .utf8 = .ok [.integer 9007199254740993, .blob [98]] := by
  decide +kernel

end DbStorage.Btree.Index
