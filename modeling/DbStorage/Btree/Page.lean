import DbStorage.Pager.Freelist
import DbStorage.Record.Varint

/-!
# B-tree pages (`btree/mod.rs`)

The page header, the cell-pointer array, cells and freeblocks of a b-tree
page, and the functions that read and change them. A function that changes
a page buffer is an action on the buffer: like the source's `&mut [u8]`, it
keeps what it wrote before an error.

`usize` and `u64` are natural numbers (no sum here comes near `2 ^ 64`, so
the source's saturating additions are plain ones); `saturating_sub` is the
subtraction of natural numbers. Rowids are `Int64`.
-/
namespace DbStorage.Btree
open Bytes Pager Record

/-- mirrors btree/error.rs:10-157; the variants of `sqlite_master`
rows, which no modelled function returns, are left out. The `PageError` of
`PageSource` stands in a `PagerError.page`, as `Conn.readPage` returns it. -/
inductive BtreeError where
  | invalidKeyRecord (source : RecordError)
  | pageSource (pageNum : UInt32) (source : PagerError)
  | pageTooShort (pageNum : UInt32) (len : Nat)
  | cursorNotPositioned (operation required : String)
  | unexpectedPageType (pageNum : UInt32) (pageType : UInt8)
  | invalidCellPointer (pageNum : UInt32) (index : Nat)
  | invalidCellVarint (pageNum : UInt32) (source : RecordError)
  | payloadTooShort (pageNum : UInt32)
  | payloadTooLarge (pageNum : UInt32) (payloadLen : Nat)
  | overflowChainTooLong (pageNum : UInt32) (max : Nat)
  | overflowChainCycle (pageNum revisitedPage : UInt32)
  | overflowChainTruncated (pageNum : UInt32)
  | traversalTooLong (max : Nat)
  | pager (source : PagerError)
  | duplicateRowid (rowid : Int64)
  | missingChildRoute (pageNum child : UInt32)
  | rowidNotFound (rowid : Int64)
  | duplicateKey
  | keyNotFound
  | internal (msg : String)
  deriving DecidableEq

def leafTable : UInt8 := 0x0d

def interiorTable : UInt8 := 0x05

def leafIndex : UInt8 := 0x0a

def interiorIndex : UInt8 := 0x02

def maxPayloadLen : Nat := 2147483647

def maxPagesVisited : Nat := 1000000

def minFreeblockSize : Nat := 4

def maxFreeblocks : Nat := 10000

/-- `v as i64` -/
def asI64 (v : Nat) : Int64 := (UInt64.ofNat v).toInt64

/-- `rowid as u64` -/
def asU64 (rowid : Int64) : Nat := rowid.toUInt64.toNat

/-! ## Reading -/

section
variable (page : Bytes)

/-- mirrors btree/mod.rs:1613-1619 -/
def page1HeaderStart (pageNum : UInt32) : Nat := if pageNum = 1 then 100 else 0

/-- A big-endian `u16`, or the given error where the page is too short.
mirrors btree/mod.rs:1331-1345 -/
def readU16Or (e : BtreeError) (offset : Nat) : Except BtreeError Nat :=
  match page.getRange offset (offset + 2) with
  | some b => .ok (ofBe16 b)
  | none => .error e

/-- mirrors btree/mod.rs:1331-1345 -/
def readU16 (offset : Nat) (pageNum : UInt32) : Except BtreeError Nat :=
  readU16Or page (.pageTooShort pageNum page.length) offset

/-- mirrors btree/mod.rs:1630-1645 -/
def readNumCells (headerStart : Nat) (pageNum : UInt32) : Except BtreeError Nat :=
  readU16Or page (.pageTooShort pageNum page.length) (headerStart + 3)

/-- mirrors btree/mod.rs:1678-1697 -/
def readCellPointer (ptrOff : Nat) (pageNum : UInt32) (cellIndex : Nat) : Except BtreeError Nat :=
  readU16Or page (.invalidCellPointer pageNum cellIndex) ptrOff

/-- mirrors btree/mod.rs:1621-1628 -/
def readPageType (headerStart : Nat) (pageNum : UInt32) : Except BtreeError UInt8 :=
  match page[headerStart]? with
  | some b => .ok b
  | none => .error (.pageTooShort pageNum page.length)

/-- mirrors btree/mod.rs:1661-1675 -/
def readU32 (offset : Nat) (pageNum : UInt32) : Except BtreeError UInt32 :=
  match page.getRange offset (offset + 4) with
  | some b => .ok (ofBe32 b)
  | none => .error (.pageTooShort pageNum page.length)

/-- mirrors btree/mod.rs:1359-1366 -/
def readContentStart (headerStart : Nat) (pageNum : UInt32) : Except BtreeError Nat := do
  let v ← readU16 page (headerStart + 5) pageNum
  .ok (if v = 0 then 65536 else v)

/-- mirrors btree/mod.rs:1386-1397; the byte has the bounds check of
the page type's. -/
def readFragmentedBytes (headerStart : Nat) (pageNum : UInt32) : Except BtreeError UInt8 :=
  readPageType page (headerStart + 7) pageNum

/-- mirrors btree/mod.rs:1703-1705 -/
def cellPtrOffset (base i : Nat) : Nat := base + i * 2

/-- `decode_varint` of a cell's bytes with the page in the error. -/
def decodeCellVarint (pageNum : UInt32) (cell : Bytes) : Except BtreeError (Nat × Nat) :=
  (decodeVarint cell).mapError (.invalidCellVarint pageNum)

/-- `page.get(start..)` -/
def tailFrom (e : BtreeError) (start : Nat) : Except BtreeError Bytes :=
  if start ≤ page.length then .ok (page.drop start) else .error e

/-- The rowid, the payload length and where the payload starts.
mirrors btree/mod.rs:1711-1734 -/
def decodeCellHead (cellStart : Nat) (pageNum : UInt32) : Except BtreeError (Int64 × Nat × Nat) := do
  let cell ← tailFrom page (.invalidCellPointer pageNum cellStart) cellStart
  let (payloadLen, n1) ← decodeCellVarint pageNum cell
  let rest ← tailFrom cell (.payloadTooShort pageNum) n1
  let (rowid, n2) ← decodeCellVarint pageNum rest
  .ok (asI64 rowid, payloadLen, cellStart + n1 + n2)

/-- The payload length and where the payload starts.
mirrors index.rs:470-482 -/
def decodePayloadLen (valueStart : Nat) (pageNum : UInt32) : Except BtreeError (Nat × Nat) := do
  let cell ← tailFrom page (.invalidCellPointer pageNum valueStart) valueStart
  let (payloadLen, n) ← decodeCellVarint pageNum cell
  .ok (payloadLen, valueStart + n)

end

/-- mirrors btree/mod.rs:623-627 -/
def maxLocal (usableSize : Nat) (isIndex : Bool) : Nat :=
  if isIndex then (usableSize - 12) * 64 / 255 - 23 else usableSize - 35

/-- mirrors btree/mod.rs:622-644 -/
def localPayloadSize (usableSize payloadLen : Nat) (isIndex : Bool) : Nat :=
  if payloadLen ≤ maxLocal usableSize isIndex then payloadLen
  else
    let minLocal := (usableSize - 12) * 32 / 255 - 23
    let k := minLocal + (payloadLen - minLocal) % max (usableSize - 4) 1
    if k ≤ maxLocal usableSize isIndex then k else minLocal

/-- Where a cell ends whose payload starts at `tailStart`: the source repeats
these lines at each of its walks over cells.
mirrors btree/mod.rs:1050-1054 -/
def cellEnd (usableSize tailStart payloadLen : Nat) (isIndex : Bool) : Nat :=
  let localSize := localPayloadSize usableSize payloadLen isIndex
  tailStart + localSize + if localSize < payloadLen then 4 else 0

/-- mirrors btree/mod.rs:651-669 -/
def firstOverflowPage (buf : Bytes) (tailStart payloadLen usableSize : Nat) (pageNum : UInt32)
    (isIndex : Bool) : Except BtreeError (Option UInt32) :=
  let localSize := localPayloadSize usableSize payloadLen isIndex
  if localSize < payloadLen then some <$> readU32 buf (tailStart + localSize) pageNum else .ok none

/-! ## Payloads -/

/-- A page source: `Pager` and the page sources of the tests are this much to
their readers. -/
abbrev PageSource := UInt32 → Except PagerError Bytes

/-- mirrors btree/mod.rs:415-417 -/
def PageSource.readPage (source : PageSource) (pageNum : UInt32) : Except BtreeError Bytes :=
  (source pageNum).mapError (.pageSource pageNum)

/-- The chain of overflow pages behind the local bytes. Each page has at
least one byte of the payload, so `remaining` bounds the pages.
mirrors btree/mod.rs:766-800 -/
def reassembleFrom (source : PageSource) (available : Nat) (pageNum : UInt32) :
    Nat → (remaining : Nat) → (overflowPage : UInt32) → (visited : List UInt32) → Except BtreeError Bytes
  | 0, _, _, _ => .ok []
  | fuel + 1, remaining, overflowPage, visited =>
    if remaining = 0 then .ok []
    else if overflowPage = 0 then .error (.overflowChainTruncated pageNum)
    else if overflowPage ∈ visited then .error (.overflowChainCycle pageNum overflowPage)
    else if maxPagesVisited < visited.length + 1 then .error (.overflowChainTooLong pageNum maxPagesVisited)
    else do
      let page ← source.readPage overflowPage
      let next ← readU32 page 0 overflowPage
      let take := min remaining available
      match page.getRange 4 (4 + take) with
      | none => .error (.pageTooShort overflowPage page.length)
      | some chunk => do
        let rest ← reassembleFrom source available pageNum fuel (remaining - take) next (overflowPage :: visited)
        .ok (chunk ++ rest)

/-- A payload as its bytes, which is what `Payload` dereferences to.
mirrors btree/mod.rs:710-802 -/
def reassemblePayload (source : PageSource) (usableSize : Nat) (pageNum : UInt32) (page : Bytes)
    (tailStart payloadLen : Nat) (isIndex : Bool) : Except BtreeError Bytes :=
  if maxPayloadLen < payloadLen then .error (.payloadTooLarge pageNum payloadLen)
  else do
    let cellTail ← tailFrom page (.payloadTooShort pageNum) tailStart
    let localSize := localPayloadSize usableSize payloadLen isIndex
    match cellTail.getRange 0 localSize with
    | none => .error (.payloadTooShort pageNum)
    | some localBytes =>
      if localSize = payloadLen then .ok localBytes
      else
        match cellTail.getRange localSize (localSize + 4) with
        | none => .error (.payloadTooShort pageNum)
        | some overflowBytes => do
          let rest ← reassembleFrom source (max (usableSize - 4) 1) pageNum (payloadLen - localSize)
            (payloadLen - localSize) (ofBe32 overflowBytes) []
          .ok (localBytes ++ rest)

/-! ## Walks over the cells of a page -/

section
variable (buf : Bytes)

/-- Cells `i` to `i + n` of a leaf page, as they are stored.
mirrors btree/mod.rs:1046-1060 -/
def collectLeafCellsFrom (ptrBase : Nat) (pageNum : UInt32) (usableSize : Nat) :
    Nat → Nat → Except BtreeError (List (Int64 × Bytes))
  | 0, _ => .ok []
  | n + 1, i => do
    let cellStart ← readCellPointer buf (cellPtrOffset ptrBase i) pageNum i
    let (rowid, payloadLen, tailStart) ← decodeCellHead buf cellStart pageNum
    match buf.getRange cellStart (cellEnd usableSize tailStart payloadLen false) with
    | none => .error (.payloadTooShort pageNum)
    | some cellBytes => do
      let rest ← collectLeafCellsFrom ptrBase pageNum usableSize n (i + 1)
      .ok ((rowid, cellBytes) :: rest)

/-- mirrors btree/mod.rs:1037-1062 -/
def collectLeafCells (headerStart : Nat) (pageNum : UInt32) (usableSize : Nat) :
    Except BtreeError (List (Int64 × Bytes)) := do
  let numCells ← readNumCells buf headerStart pageNum
  collectLeafCellsFrom buf (headerStart + 8) pageNum usableSize numCells 0

/-- The insert position and the bytes of the cells seen so far go in and come
out.
mirrors btree/mod.rs:1081-1100 -/
def scanLeafCellsFrom (ptrBase : Nat) (pageNum : UInt32) (usableSize : Nat) (rowid : Int64) (numCells : Nat) :
    Nat → Nat → Nat → Nat → Except BtreeError (Nat × Nat)
  | 0, _, insertPos, totalBytes => .ok (insertPos, totalBytes)
  | n + 1, i, insertPos, totalBytes => do
    let cellStart ← readCellPointer buf (cellPtrOffset ptrBase i) pageNum i
    let (cellRowid, payloadLen, tailStart) ← decodeCellHead buf cellStart pageNum
    if cellRowid = rowid then .error (.duplicateRowid rowid)
    else
      let insertPos := if rowid < cellRowid ∧ insertPos = numCells then i else insertPos
      let stop := cellEnd usableSize tailStart payloadLen false
      if buf.length < stop then .error (.payloadTooShort pageNum)
      else
        scanLeafCellsFrom ptrBase pageNum usableSize rowid numCells n (i + 1) insertPos
          (totalBytes + (stop - cellStart))

/-- Where `rowid` goes, the number of cells and their bytes.
mirrors btree/mod.rs:1070-1102 -/
def scanLeafCells (headerStart : Nat) (pageNum : UInt32) (usableSize : Nat) (rowid : Int64) :
    Except BtreeError (Nat × Nat × Nat) := do
  let numCells ← readNumCells buf headerStart pageNum
  let (insertPos, totalBytes) ←
    scanLeafCellsFrom buf (headerStart + 8) pageNum usableSize rowid numCells numCells 0 numCells 0
  .ok (insertPos, numCells, totalBytes)

/-- mirrors btree/mod.rs:1118-1133 -/
def findLeafCellFrom (ptrBase : Nat) (pageNum : UInt32) (usableSize : Nat) (rowid : Int64) :
    Nat → Nat → Except BtreeError (Option (Nat × UInt32))
  | 0, _ => .ok none
  | n + 1, i => do
    let cellStart ← readCellPointer buf (cellPtrOffset ptrBase i) pageNum i
    let (cellRowid, payloadLen, tailStart) ← decodeCellHead buf cellStart pageNum
    if cellRowid ≠ rowid then findLeafCellFrom ptrBase pageNum usableSize rowid n (i + 1)
    else do
      let overflowPage ← firstOverflowPage buf tailStart payloadLen usableSize pageNum false
      .ok (some (i, overflowPage.getD 0))

/-- The cell's position, the number of cells and the first overflow page.
mirrors btree/mod.rs:1109-1134 -/
def findLeafCell (headerStart : Nat) (pageNum : UInt32) (usableSize : Nat) (rowid : Int64) :
    Except BtreeError (Option (Nat × Nat × UInt32)) := do
  let numCells ← readNumCells buf headerStart pageNum
  let found ← findLeafCellFrom buf (headerStart + 8) pageNum usableSize rowid numCells 0
  .ok (found.map fun (pos, overflowPage) => (pos, numCells, overflowPage))

/-- mirrors btree/mod.rs:1147-1157 -/
def collectInteriorEntriesFrom (ptrBase : Nat) (pageNum : UInt32) :
    Nat → Nat → Except BtreeError (List (UInt32 × Int64))
  | 0, _ => .ok []
  | n + 1, i => do
    let cellStart ← readCellPointer buf (cellPtrOffset ptrBase i) pageNum i
    let child ← readU32 buf cellStart pageNum
    let rest ← tailFrom buf (.payloadTooShort pageNum) (cellStart + 4)
    let (key, _) ← decodeCellVarint pageNum rest
    let entries ← collectInteriorEntriesFrom ptrBase pageNum n (i + 1)
    .ok ((child, asI64 key) :: entries)

/-- mirrors btree/mod.rs:1139-1160 -/
def collectInteriorEntries (headerStart : Nat) (pageNum : UInt32) :
    Except BtreeError (List (UInt32 × Int64) × UInt32) := do
  let numCells ← readNumCells buf headerStart pageNum
  let entries ← collectInteriorEntriesFrom buf (headerStart + 12) pageNum numCells 0
  let rightmost ← readU32 buf (headerStart + 8) pageNum
  .ok (entries, rightmost)

end

/-- mirrors btree/mod.rs:1164-1168 -/
def buildInteriorCell (child : UInt32) (key : Int64) : Bytes := be32 child ++ encodeVarint (asU64 key)

/-! ## Writing -/

/-- A function on the page buffer. -/
abbrev Edit := Action Bytes BtreeError

/-- A reader on the page buffer. -/
def Edit.read {α : Type} (f : Bytes → Except BtreeError α) : Edit α := Action.ofFn fun buf => (f buf, buf)

/-- mirrors btree/mod.rs:1176-1189 -/
def put (offset : Nat) (bytes : Bytes) (pageNum : UInt32) : Edit Unit := Action.ofFn fun buf =>
  if offset + bytes.length ≤ buf.length then (.ok (), writeAt buf bytes offset)
  else (.error (.pageTooShort pageNum buf.length), buf)

/-- mirrors btree/mod.rs:1191-1198 -/
def putU8 (offset : Nat) (value : UInt8) (pageNum : UInt32) : Edit Unit := put offset [value] pageNum

/-- mirrors btree/mod.rs:1347-1354 -/
def writeU16 (offset value : Nat) (pageNum : UInt32) : Edit Unit := put offset (be16 value) pageNum

/-- An offset as the file stores it, 65536 as 0. -/
def storedOffset (value : Nat) : Nat := if 65536 ≤ value then 0 else value

/-- mirrors btree/mod.rs:1368-1376 -/
def writeContentStart (headerStart value : Nat) (pageNum : UInt32) : Edit Unit :=
  writeU16 (headerStart + 5) (storedOffset value) pageNum

/-- Lays the cells out from the end of the page towards its front, the last
one first, and returns where the content starts and each cell's offset.
mirrors btree/mod.rs:1274-1281 -/
def layCells (pageNum : UInt32) (contentEnd : Nat) : List Bytes → Edit (Nat × List Nat)
  | [] => pure (contentEnd, [])
  | cell :: cells => do
    let (stop, offsets) ← layCells pageNum contentEnd cells
    let start := stop - cell.length
    put start cell pageNum
    return (start, start :: offsets)

/-- mirrors btree/mod.rs:1283-1291 -/
def writePointers (pageNum : UInt32) (ptrBase : Nat) : Nat → List Nat → Edit Unit
  | _, [] => pure ()
  | i, off :: offs => do
    writeU16 (ptrBase + i * 2) (storedOffset off) pageNum
    writePointers pageNum ptrBase (i + 1) offs

/-- The bytes a page needs for the cells: header, pointers and content.
mirrors btree/mod.rs:1256-1259 -/
def neededBytes (ptrBase : Nat) (cells : List Bytes) : Nat :=
  cells.foldl (fun n c => n + (c.length + 2)) ptrBase

/-- mirrors btree/mod.rs:1267-1270 -/
def clearFrom (headerStart : Nat) (pageNum : UInt32) : Edit Unit := Action.ofFn fun buf =>
  if headerStart ≤ buf.length then
    (.ok (), buf.take headerStart ++ List.replicate (buf.length - headerStart) 0)
  else (.error (.pageTooShort pageNum buf.length), buf)

/-- mirrors btree/mod.rs:1241-1320 -/
def writePageCommon (headerStart : Nat) (pageNum : UInt32) (pageType : UInt8) (headerLen : Nat)
    (cells : List Bytes) : Edit Unit := do
  let ptrBase := headerStart + headerLen
  let buf ← get
  if buf.length < neededBytes ptrBase cells then throw (.internal "cells do not fit in page")
  else do
    clearFrom headerStart pageNum
    putU8 headerStart pageType pageNum
    let (contentEnd, ptrOffsets) ← layCells pageNum buf.length cells
    writePointers pageNum ptrBase 0 ptrOffsets
    writeU16 (headerStart + 3) cells.length pageNum
    writeContentStart headerStart contentEnd pageNum
    putU8 (headerStart + 7) 0 pageNum

/-- mirrors btree/mod.rs:1213-1220 -/
def writeLeafPage (headerStart : Nat) (pageNum : UInt32) (cells : List Bytes) : Edit Unit :=
  writePageCommon headerStart pageNum leafTable 8 cells

/-- mirrors btree/mod.rs:1225-1239 -/
def writeInteriorPage (headerStart : Nat) (pageNum : UInt32) (cells : List Bytes) (rightmost : UInt32) :
    Edit Unit := do
  writePageCommon headerStart pageNum interiorTable 12 cells
  put (headerStart + 8) (be32 rightmost) pageNum

/-! ## Freeblocks -/

/-- mirrors btree/mod.rs:1421-1432 -/
def walkFreeblocksFrom (page : Bytes) (pageNum : UInt32) : Nat → Nat → Except BtreeError (List (Nat × Nat))
  | fuel, off =>
    if off = 0 then .ok []
    else match fuel with
      | 0 => .error (.traversalTooLong maxFreeblocks)
      | n + 1 => do
        let next ← readU16 page off pageNum
        let size ← readU16 page (off + 2) pageNum
        let rest ← walkFreeblocksFrom page pageNum n next
        .ok ((off, size) :: rest)

/-- mirrors btree/mod.rs:1413-1434 -/
def walkFreeblocks (page : Bytes) (headerStart : Nat) (pageNum : UInt32) :
    Except BtreeError (List (Nat × Nat)) := do
  let off ← readU16 page (headerStart + 1) pageNum
  walkFreeblocksFrom page pageNum maxFreeblocks off

/-- The offset of the first block, 0 when there is none. -/
def firstOffset (blocks : List (Nat × Nat)) : Nat := (blocks.head?.map Prod.fst).getD 0

/-- mirrors btree/mod.rs:1447-1451 -/
def writeFreeblocks (pageNum : UInt32) : List (Nat × Nat) → Edit Unit
  | [] => pure ()
  | (off, size) :: blocks => do
    writeU16 off (firstOffset blocks) pageNum
    writeU16 (off + 2) size pageNum
    writeFreeblocks pageNum blocks

/-- mirrors btree/mod.rs:1441-1454 -/
def writeFreeblockChain (headerStart : Nat) (pageNum : UInt32) (blocks : List (Nat × Nat)) : Edit Unit := do
  writeFreeblocks pageNum blocks
  writeU16 (headerStart + 1) (firstOffset blocks) pageNum

/-- Puts a block in front of those that follow it, joined with the first one
where they touch.
mirrors btree/mod.rs:1477-1483 -/
def joinNext (start size : Nat) : List (Nat × Nat) → List (Nat × Nat)
  | [] => [(start, size)]
  | (off, n) :: blocks =>
    if start + size = off then (start, size + n) :: blocks else (start, size) :: (off, n) :: blocks

/-- Adds a range to the blocks, which the format keeps in ascending order, so
that the source's `partition_point` is the first block behind the range.
mirrors btree/mod.rs:1461-1484 -/
def addFreeblock (blocks : List (Nat × Nat)) (start size : Nat) : List (Nat × Nat) :=
  let before := blocks.takeWhile (·.1 < start)
  let after := blocks.dropWhile (·.1 < start)
  match before.getLast? with
  | some (off, n) =>
    if off + n = start then before.dropLast ++ joinNext off (size + n) after
    else before ++ joinNext start size after
  | none => joinNext start size after

/-- mirrors btree/mod.rs:1590-1594 -/
def absorbBlocks : Nat → List (Nat × Nat) → Nat → List (Nat × Nat) × Nat
  | 0, blocks, contentStart => (blocks, contentStart)
  | n + 1, blocks, contentStart =>
    match blocks.find? (·.1 = contentStart) with
    | none => (blocks, contentStart)
    | some block => absorbBlocks n (blocks.eraseP (·.1 = contentStart)) (contentStart + block.2)

/-! ## Splices -/

/-- Moves pointers `index` to `index + n` one place up, the last one first.
mirrors btree/mod.rs:1516-1521 -/
def shiftUp (ptrBase : Nat) (pageNum : UInt32) (index : Nat) : Nat → Edit Unit
  | 0 => pure ()
  | n + 1 => do
    let i := index + n
    let v ← Edit.read fun buf => readCellPointer buf (cellPtrOffset ptrBase i) pageNum i
    writeU16 (cellPtrOffset ptrBase (i + 1)) v pageNum
    shiftUp ptrBase pageNum index n

/-- mirrors btree/mod.rs:1497-1529 -/
def spliceInsertCell (headerStart : Nat) (pageNum : UInt32) (index : Nat) (cell : Bytes) : Edit Bool := do
  let numCells ← Edit.read fun buf => readNumCells buf headerStart pageNum
  let ptrBase := headerStart + 8
  let contentStart ← Edit.read fun buf => readContentStart buf headerStart pageNum
  let ptrEnd := cellPtrOffset ptrBase numCells
  if contentStart < ptrEnd ∨ contentStart - ptrEnd < cell.length + 2 then return false
  else do
    let newContentStart := contentStart - cell.length
    put newContentStart cell pageNum
    shiftUp ptrBase pageNum index (numCells - index)
    writeU16 (cellPtrOffset ptrBase index) newContentStart pageNum
    writeContentStart headerStart newContentStart pageNum
    writeU16 (headerStart + 3) (numCells + 1) pageNum
    return true

/-- Moves the `n` pointers behind `i` one place down, the first one first.
mirrors btree/mod.rs:1574-1579 -/
def shiftDown (ptrBase : Nat) (pageNum : UInt32) : Nat → Nat → Edit Unit
  | 0, _ => pure ()
  | n + 1, i => do
    let v ← Edit.read fun buf => readCellPointer buf (cellPtrOffset ptrBase (i + 1)) pageNum (i + 1)
    writeU16 (cellPtrOffset ptrBase i) v pageNum
    shiftDown ptrBase pageNum n (i + 1)

/-- mirrors btree/mod.rs:1583-1585 -/
def zeroRange (lo hi : Nat) : Edit Unit := Action.ofFn fun buf =>
  (.ok (), if lo ≤ hi ∧ hi ≤ buf.length then writeAt buf (List.replicate (hi - lo) 0) lo else buf)

/-- Gives the bytes of a removed cell back to the page's free space.
mirrors btree/mod.rs:1587-1610 -/
def freeRange (headerStart : Nat) (pageNum : UInt32) (cellStart stop : Nat) : Edit Unit := do
  let cellLen := stop - cellStart
  let contentStart ← Edit.read fun buf => readContentStart buf headerStart pageNum
  if cellStart = contentStart then do
    let blocks ← Edit.read fun buf => walkFreeblocks buf headerStart pageNum
    let (blocks, newContentStart) := absorbBlocks blocks.length blocks stop
    writeContentStart headerStart newContentStart pageNum
    writeFreeblockChain headerStart pageNum blocks
  else if cellLen < minFreeblockSize then do
    let frag ← Edit.read fun buf => readFragmentedBytes buf headerStart pageNum
    putU8 (headerStart + 7) (UInt8.ofNat (min (frag.toNat + cellLen) 255)) pageNum
  else do
    let blocks ← Edit.read fun buf => walkFreeblocks buf headerStart pageNum
    writeFreeblockChain headerStart pageNum (addFreeblock blocks cellStart cellLen)

/-- mirrors btree/mod.rs:1544-1611 -/
def spliceDeleteCell (headerStart : Nat) (pageNum : UInt32) (usableSize index : Nat) (hasRowid : Bool) :
    Edit Unit := do
  let numCells ← Edit.read fun buf => readNumCells buf headerStart pageNum
  if numCells ≤ index then throw (.internal "splice_delete_cell: index out of bounds")
  else do
    let ptrBase := headerStart + 8
    let cellStart ← Edit.read fun buf => readCellPointer buf (cellPtrOffset ptrBase index) pageNum index
    let (payloadLen, tailStart) ← Edit.read fun buf =>
      if hasRowid then Prod.snd <$> decodeCellHead buf cellStart pageNum
      else decodePayloadLen buf cellStart pageNum
    let stop := cellEnd usableSize tailStart payloadLen (!hasRowid)
    shiftDown ptrBase pageNum (numCells - 1 - index) index
    writeU16 (headerStart + 3) (numCells - 1) pageNum
    zeroRange cellStart stop
    freeRange headerStart pageNum cellStart stop

/-! ## Pages of the store -/

section
variable {σ : Type} (O : PageOps σ)

/-- A call of the pager: its error becomes `BtreeError::Pager`. -/
def pagerCall {α : Type} (x : Action σ PagerError α) : Action σ BtreeError α := x.mapError .pager

/-- `read_page` with the page number in the error. -/
def readSource (pageNum : UInt32) : Action σ BtreeError Bytes := (O.readPage pageNum).mapError (.pageSource pageNum)

/-- `get_page_mut` for reading -/
def getPage (pageNum : UInt32) : Action σ BtreeError Bytes := pagerCall (O.getPageMut pageNum)

/-- `get_page_mut`, and a function on the buffer. -/
def onPage {α : Type} (pageNum : UInt32) (f : Edit α) : Action σ BtreeError α := do
  let buf ← getPage O pageNum
  let (r, buf') := f.exec buf
  pagerCall (O.putPage pageNum buf')
  Action.ofExcept id r

end

end DbStorage.Btree
