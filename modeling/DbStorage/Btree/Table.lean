import DbStorage.Btree.Page

/-!
# Table b-trees (`btree/table/insert.rs`, `btree/table/delete.rs`)

Inserting and deleting rows, over any page store. Loops that follow pages
have the source's bound on the pages visited as their fuel, or a bound they
cannot reach; ancestors are listed with the nearest one first.
-/
namespace DbStorage.Btree
open Bytes Pager Record

/-- The fields that the b-trees read.
mirrors header.rs:301-303 -/
structure DatabaseHeader where
  pageSize : UInt32
  reservedSpace : UInt8

def DatabaseHeader.usablePageSize (header : DatabaseHeader) : Nat :=
  header.pageSize.toNat - header.reservedSpace.toNat

section
variable {σ : Type} (O : PageOps σ)

/-- The child of an interior page that a rowid belongs to.
mirrors btree/mod.rs:832-838 -/
def childFor (rowid : Int64) (entries : List (UInt32 × Int64)) (rightmost : UInt32) : UInt32 :=
  ((entries.find? fun e => rowid ≤ e.2).map Prod.fst).getD rightmost

/-- mirrors btree/mod.rs:815-846 -/
def findLeafPageFrom (rowid : Int64) : Nat → UInt32 → List UInt32 → Action σ BtreeError (List UInt32 × UInt32)
  | 0, _, _ => throw (.traversalTooLong maxPagesVisited)
  | n + 1, pageNum, ancestors => do
    let page ← readSource O pageNum
    let headerStart := page1HeaderStart pageNum
    let pageType ← Action.ofExcept id (readPageType page headerStart pageNum)
    if pageType = leafTable then return (ancestors, pageNum)
    else if pageType = interiorTable then do
      let (entries, rightmost) ← Action.ofExcept id (collectInteriorEntries page headerStart pageNum)
      findLeafPageFrom rowid n (childFor rowid entries rightmost) (pageNum :: ancestors)
    else throw (.unexpectedPageType pageNum pageType)

/-- The interior pages above the leaf that a rowid belongs to, and the leaf.
mirrors btree/mod.rs:808-847 -/
def findLeafPage (pageNum : UInt32) (rowid : Int64) : Action σ BtreeError (List UInt32 × UInt32) :=
  findLeafPageFrom O rowid maxPagesVisited pageNum []

/-! ## Overflow chains -/

/-- mirrors table/insert.rs:97-104 -/
def chunksOf (available : Nat) : Nat → Bytes → List Bytes
  | 0, _ => []
  | n + 1, rest =>
    if rest.isEmpty then [] else rest.take available :: chunksOf available n (rest.drop available)

/-- mirrors table/insert.rs:106-109 -/
def allocatePages : Nat → Action σ BtreeError (List UInt32)
  | 0 => pure []
  | n + 1 => do
    let p ← pagerCall O.allocatePage
    let ps ← allocatePages n
    return p :: ps

/-- mirrors table/insert.rs:110-118 -/
def writeOverflowPages : List UInt32 → List Bytes → Action σ BtreeError Unit
  | _, [] => pure ()
  | [], _ :: _ => throw (.internal "overflow chain page index out of bounds")
  | p :: ps, chunk :: chunks => do
    onPage O p do
      put 0 (be32 (ps.head?.getD 0)) p
      put 4 chunk p
    writeOverflowPages ps chunks

/-- The first page of a new chain with the data. The tables' and the indexes'
functions of this name are the same.
mirrors table/insert.rs:91-120 and index/insert.rs:105-134 -/
def writeOverflowChain (usableSize : Nat) (data : Bytes) : Action σ BtreeError UInt32 := do
  let chunks := chunksOf (max (usableSize - 4) 1) data.length data
  let pageNums ← allocatePages O chunks.length
  writeOverflowPages O pageNums chunks
  return pageNums.head?.getD 0

end

namespace Table

section
variable {σ : Type} (O : PageOps σ)

/-! ## Inserting -/

/-- mirrors table/insert.rs:67-85 -/
def encodeLeafCell (usableSize : Nat) (rowid : Int64) (payload : Bytes) : Action σ BtreeError Bytes := do
  let localSize := min (localPayloadSize usableSize payload.length false) payload.length
  let overflowBytes := payload.drop localSize
  let cell := encodeVarint payload.length ++ (encodeVarint (asU64 rowid) ++ payload.take localSize)
  if overflowBytes.isEmpty then return cell
  else do
    let overflowFirst ← writeOverflowChain O usableSize overflowBytes
    return cell ++ be32 overflowFirst

/-- The cut with the lighter heavy side: the heavy side's weight and the
number of cells before the cut.
mirrors table/insert.rs:144-151 -/
def bestCut (total : Nat) : List Nat → Nat → Nat → Option (Nat × Nat) → Option (Nat × Nat)
  | [], _, _, best => best
  | w :: ws, i, acc, best =>
    let acc := acc + w
    let worst := max acc (total - acc)
    let better := match best with
      | none => true
      | some (m, _) => worst < m
    bestCut total ws (i + 1) acc (if better then some (worst, i + 1) else best)

/-- mirrors table/insert.rs:159-169 -/
def firstFit (capacity : Nat) : List Nat → Nat → Nat → List Nat
  | [], i, _ => [i]
  | w :: ws, i, acc =>
    if 0 < acc ∧ capacity < acc + w then i :: firstFit capacity ws (i + 1) w
    else firstFit capacity ws (i + 1) (acc + w)

/-- Where the groups end.
mirrors table/insert.rs:137-170 -/
def splitGroupsByBytes (sizes : List Nat) (capacity : Nat) : List Nat :=
  let weights := sizes.map (· + 2)
  match bestCut weights.sum (weights.take (sizes.length - 1)) 0 0 none with
  | some (worst, cut) => if worst ≤ capacity then [cut, sizes.length] else firstFit capacity weights 0 0
  | none => firstFit capacity weights 0 0

/-- mirrors table/insert.rs:241-248 -/
def cutGroups {α : Type} : List Nat → Nat → List α → List (List α)
  | [], _, _ => []
  | stop :: ends, taken, rest =>
    rest.take (stop - taken) :: cutGroups ends stop (rest.drop (stop - taken))

/-- mirrors table/insert.rs:176-187 -/
def medianFrom (total n : Nat) : List Bytes → Nat → Nat → Nat
  | [], _, _ => min (max (n / 2) 1) (max (n - 2) 1)
  | c :: cs, i, acc =>
    let acc := acc + c.length
    if total ≤ acc * 2 then min (max i 1) (max (n - 2) 1) else medianFrom total n cs (i + 1) acc

/-- mirrors table/insert.rs:176-187 -/
def interiorMedianByBytes (cells : List Bytes) : Nat :=
  medianFrom (cells.map List.length).sum cells.length cells 0 0

/-- The interior cells of entries. -/
def entryCells (entries : List (UInt32 × Int64)) : List Bytes := entries.map fun e => buildInteriorCell e.1 e.2

/-- Writes the cells of a page, given by its content and type, to another
page.
mirrors table/insert.rs:425-447 and table/delete.rs:237-259 -/
def copyCells (usableSize : Nat) (source : UInt32) (content : Bytes) (pageType : UInt8) (target : UInt32)
    (targetStart : Nat) : Action σ BtreeError Unit :=
  if pageType = leafTable then do
    let cells ← Action.ofExcept id (collectLeafCells content (page1HeaderStart source) source usableSize)
    onPage O target (writeLeafPage targetStart target (cells.map Prod.snd))
  else if pageType = interiorTable then do
    let (entries, rightmost) ← Action.ofExcept id (collectInteriorEntries content (page1HeaderStart source) source)
    onPage O target (writeInteriorPage targetStart target (entryCells entries) rightmost)
  else throw (.unexpectedPageType source pageType)

/-- mirrors table/insert.rs:413-453 -/
def rootSplit (usableSize : Nat) (rootPage newRight : UInt32) (divider : Int64) : Action σ BtreeError Unit := do
  let headerStartRoot := page1HeaderStart rootPage
  let content ← getPage O rootPage
  let pageType ← Action.ofExcept id (readPageType content headerStartRoot rootPage)
  let relocated ← pagerCall O.allocatePage
  copyCells O usableSize rootPage content pageType relocated 0
  onPage O rootPage
    (writeInteriorPage headerStartRoot rootPage [buildInteriorCell relocated divider] newRight)

/-- The entries and the last child with `old` split: `old` up to `divider` and
`new` in its place behind it.
mirrors table/insert.rs:323-343 -/
def splitEntry (old new : UInt32) (divider : Int64) (rightmost : UInt32) :
    List (UInt32 × Int64) → Option (List (UInt32 × Int64) × UInt32)
  | [] => if rightmost = old then some ([(old, divider)], new) else none
  | (child, key) :: entries =>
    if child = old then some ((old, divider) :: (new, key) :: entries, rightmost)
    else (splitEntry old new divider rightmost entries).map fun (es, r) => ((child, key) :: es, r)

/-- mirrors table/insert.rs:301-406 -/
def insertIntoParent (usableSize pageLen : Nat) (rootPage : UInt32) :
    List UInt32 → UInt32 → UInt32 → Int64 → Action σ BtreeError Unit
  | [], _, newPage, divider => rootSplit O usableSize rootPage newPage divider
  | parentPage :: rest, oldPage, newPage, divider => do
    let headerStart := page1HeaderStart parentPage
    let buf ← getPage O parentPage
    let (entries, rightmost) ← Action.ofExcept id (collectInteriorEntries buf headerStart parentPage)
    match splitEntry oldPage newPage divider rightmost entries with
    | none => throw (.missingChildRoute parentPage oldPage)
    | some (entries, rightmost) =>
      let cells := entryCells entries
      let needed := headerStart + 12 + cells.length * 2 + (cells.map List.length).sum
      if needed ≤ pageLen then
        onPage O parentPage (writeInteriorPage headerStart parentPage cells rightmost)
      else
        let mid := interiorMedianByBytes cells
        match entries[mid]? with
        | none => throw (.internal "median entry index out of bounds during interior split")
        | some (promotedChild, promotedKey) => do
          let rightPageNum ← pagerCall O.allocatePage
          onPage O parentPage
            (writeInteriorPage headerStart parentPage (entryCells (entries.take mid)) promotedChild)
          onPage O rightPageNum
            (writeInteriorPage 0 rightPageNum (entryCells (entries.drop (mid + 1))) rightmost)
          insertIntoParent usableSize pageLen rootPage rest parentPage rightPageNum promotedKey

/-- Writes a group of cells to a leaf page; the page and its largest rowid.
mirrors table/insert.rs:251-264 -/
def writeGroup (target : Action σ BtreeError (UInt32 × Nat)) (group : List (Int64 × Bytes)) :
    Action σ BtreeError (UInt32 × Int64) :=
  match group.getLast? with
  | none => throw (.internal "split group must not be empty")
  | some (divider, _) => do
    let (page, headerStart) ← target
    onPage O page (writeLeafPage headerStart page (group.map Prod.snd))
    return (page, divider)

/-- A new page for each further group.
mirrors table/insert.rs:250-264 -/
def writeNewGroups : List (List (Int64 × Bytes)) → Action σ BtreeError (List (UInt32 × Int64))
  | [] => pure []
  | group :: groups => do
    let page ← writeGroup O (do return (← pagerCall O.allocatePage, 0)) group
    let pages ← writeNewGroups groups
    return page :: pages

/-- The ancestors to route a new page with: the leaf's for the first one, a
new descent's for a later one.
mirrors table/insert.rs:272-281 -/
def routeFor (leafPage rootPage : UInt32) (route : List UInt32) (oldPage : UInt32) (divider : Int64) :
    Action σ BtreeError (List UInt32) :=
  if oldPage ≠ leafPage then do
    let (ancestors, found) ← findLeafPage O rootPage divider
    if found ≠ oldPage then
      throw (.internal "re-descent after a three-way split did not reach the middle leaf")
    else return ancestors
  else return route

/-- Routes each new page in its parent.
mirrors table/insert.rs:266-293 -/
def routeGroups (usableSize pageLen : Nat) (leafPage rootPage : UInt32) :
    List UInt32 → List (UInt32 × Int64) → Action σ BtreeError Unit
  | route, (oldPage, divider) :: (newPage, d) :: pages => do
    let route ← routeFor O leafPage rootPage route oldPage divider
    insertIntoParent O usableSize pageLen rootPage route oldPage newPage divider
    routeGroups usableSize pageLen leafPage rootPage route ((newPage, d) :: pages)
  | _, _ => pure ()

/-- mirrors table/insert.rs:217-228 -/
def insertFitting (headerStart : Nat) (leafPage : UInt32) (usableSize insertPos : Nat) (rowid : Int64)
    (cell : Bytes) : Edit Unit := do
  if ← spliceInsertCell headerStart leafPage insertPos cell then return
  else do
    let cells ← Edit.read fun buf => collectLeafCells buf headerStart leafPage usableSize
    writeLeafPage headerStart leafPage ((cells.insertIdx insertPos (rowid, cell)).map Prod.snd)

/-- Splits the leaf into groups of cells and routes the new pages.
mirrors table/insert.rs:230-293 -/
def splitLeaf (usableSize pageLen : Nat) (leafPage rootPage : UInt32) (ancestors : List UInt32)
    (cells : List (Int64 × Bytes)) : Action σ BtreeError Unit := do
  let headerStart := page1HeaderStart leafPage
  let capacity := pageLen - (headerStart + 8)
  let groups := cutGroups (splitGroupsByBytes (cells.map fun c => c.2.length) capacity) 0 cells
  match groups with
  | [] => return
  | group :: groups => do
    let page ← writeGroup O (pure (leafPage, headerStart)) group
    let pages ← writeNewGroups O groups
    routeGroups O usableSize pageLen leafPage rootPage ancestors (page :: pages)

/-- mirrors table/insert.rs:190-294 -/
def insertIntoLeaf (usableSize pageLen : Nat) (leafPage rootPage : UInt32) (ancestors : List UInt32)
    (rowid : Int64) (cell : Bytes) : Action σ BtreeError Unit := do
  let headerStart := page1HeaderStart leafPage
  let buf ← getPage O leafPage
  let (insertPos, numCells, existingBytes) ←
    Action.ofExcept id (scanLeafCells buf headerStart leafPage usableSize rowid)
  let needed := headerStart + 8 + (numCells + 1) * 2 + existingBytes + cell.length
  if needed ≤ pageLen then
    onPage O leafPage (insertFitting headerStart leafPage usableSize insertPos rowid cell)
  else do
    let cells ← Action.ofExcept id (collectLeafCells buf headerStart leafPage usableSize)
    splitLeaf O usableSize pageLen leafPage rootPage ancestors (cells.insertIdx insertPos (rowid, cell))

/-- mirrors table/insert.rs:41-62 -/
def insertRow (header : DatabaseHeader) (rootPage : UInt32) (rowid : Int64) (payload : Bytes) :
    Action σ BtreeError Unit := do
  let usableSize := header.usablePageSize
  let cell ← encodeLeafCell O usableSize rowid payload
  let (ancestors, leafPage) ← findLeafPage O rootPage rowid
  let page ← getPage O leafPage
  insertIntoLeaf O usableSize page.length leafPage rootPage ancestors rowid cell

/-! ## Deleting -/

/-- Frees the chain. The pages already seen are never more than there are
page numbers, so the fuel does not run out.
mirrors table/delete.rs:86-101 -/
def freeOverflowChainFrom (firstPage : UInt32) : Nat → UInt32 → List UInt32 → Action σ BtreeError Unit
  | 0, pageNum, _ => throw (.overflowChainCycle firstPage pageNum)
  | n + 1, pageNum, visited =>
    if pageNum = 0 then pure ()
    else if pageNum ∈ visited then throw (.overflowChainCycle firstPage pageNum)
    else do
      let buf ← getPage O pageNum
      let next ← Action.ofExcept id (readU32 buf 0 pageNum)
      pagerCall (O.deallocatePage pageNum)
      freeOverflowChainFrom firstPage n next (pageNum :: visited)

/-- mirrors table/delete.rs:83-102 and index/delete.rs:78-96 -/
def freeOverflowChain (firstPage : UInt32) : Action σ BtreeError Unit :=
  freeOverflowChainFrom O firstPage (2 ^ 32) firstPage []

/-- mirrors table/delete.rs:226-262 -/
def collapseRoot (usableSize : Nat) (rootPage onlyChild : UInt32) : Action σ BtreeError Unit := do
  let childHeaderStart := page1HeaderStart onlyChild
  let content ← getPage O onlyChild
  let pageType ← Action.ofExcept id (readPageType content childHeaderStart onlyChild)
  copyCells O usableSize onlyChild content pageType rootPage (page1HeaderStart rootPage)
  pagerCall (O.deallocatePage onlyChild)

/-- The entries and the last child with `new` in the place of `old`.
mirrors table/delete.rs:202-211 -/
def replaceChild (old new : UInt32) (rightmost : UInt32) :
    List (UInt32 × Int64) → Option (List (UInt32 × Int64) × UInt32)
  | [] => if rightmost = old then some ([], new) else none
  | (child, key) :: entries =>
    if child = old then some ((new, key) :: entries, rightmost)
    else (replaceChild old new rightmost entries).map fun (es, r) => ((child, key) :: es, r)

/-- mirrors table/delete.rs:184-219 -/
def spliceChild (ancestors : List UInt32) (oldChild newChild : UInt32) : Action σ BtreeError Unit :=
  match ancestors with
  | [] => throw (.internal "splice_child called with no ancestors — old_child's parent must always exist here (it's never the root)")
  | parentPage :: _ => do
    let headerStart := page1HeaderStart parentPage
    let buf ← getPage O parentPage
    let (entries, rightmost) ← Action.ofExcept id (collectInteriorEntries buf headerStart parentPage)
    match replaceChild oldChild newChild rightmost entries with
    | none => throw (.missingChildRoute parentPage oldChild)
    | some (entries, rightmost) =>
      onPage O parentPage (writeInteriorPage headerStart parentPage (entryCells entries) rightmost)

/-- The entries and the last child without `emptied`.
mirrors table/delete.rs:129-149 -/
def removeChild (parentPage emptied rightmost : UInt32) (entries : List (UInt32 × Int64)) :
    Except BtreeError (List (UInt32 × Int64) × UInt32) :=
  if entries.any (·.1 = emptied) then .ok (entries.eraseP (·.1 = emptied), rightmost)
  else if rightmost = emptied then
    match entries.getLast? with
    | some (lastChild, _) => .ok (entries.dropLast, lastChild)
    | none => .error (.internal
        "interior page's rightmost pointer was emptied but it has no routing entries to promote")
  else .error (.missingChildRoute parentPage emptied)

/-- mirrors table/delete.rs:110-176 -/
def collapseIntoAncestors (usableSize : Nat) (rootPage : UInt32) (ancestors : List UInt32)
    (emptiedPage : UInt32) : Action σ BtreeError Unit :=
  match ancestors with
  | [] => throw (.internal "collapse_into_ancestors called with no ancestors")
  | parentPage :: rest => do
    let headerStart := page1HeaderStart parentPage
    let buf ← getPage O parentPage
    let (entries, rightmost) ← Action.ofExcept id (collectInteriorEntries buf headerStart parentPage)
    let (entries, rightmost) ← Action.ofExcept id (removeChild parentPage emptiedPage rightmost entries)
    if !entries.isEmpty then
      onPage O parentPage (writeInteriorPage headerStart parentPage (entryCells entries) rightmost)
    else if parentPage = rootPage then collapseRoot O usableSize rootPage rightmost
    else do
      pagerCall (O.deallocatePage parentPage)
      spliceChild O rest parentPage rightmost

/-- mirrors table/delete.rs:43-76 -/
def deleteRow (header : DatabaseHeader) (rootPage : UInt32) (rowid : Int64) : Action σ BtreeError Unit := do
  let usableSize := header.usablePageSize
  let (ancestors, leafPage) ← findLeafPage O rootPage rowid
  let headerStart := page1HeaderStart leafPage
  let buf ← getPage O leafPage
  match ← Action.ofExcept id (findLeafCell buf headerStart leafPage usableSize rowid) with
  | none => throw (.rowidNotFound rowid)
  | some (pos, numCells, overflowPage) =>
    if 1 < numCells ∨ ancestors = [] then do
      onPage O leafPage (spliceDeleteCell headerStart leafPage usableSize pos true)
      freeOverflowChain O overflowPage
    else do
      onPage O leafPage (writeLeafPage headerStart leafPage [])
      pagerCall (O.deallocatePage leafPage)
      freeOverflowChain O overflowPage
      collapseIntoAncestors O usableSize rootPage ancestors leafPage

end
end Table
end DbStorage.Btree
