import DbStorage.Core.Action
import DbStorage.Pager.Journal
import DbStorage.Wal.Format

/-!
# Page allocation (`pager/freelist.rs`, `allocate_page`, `deallocate_page`)

Freelist trunk pages, and the two allocation routines of the pager over any
state that can read pages and make them writable (`PageOps`): the pager
itself, and the map of page contents that the b-trees work on.

Results: `allocatePage_keeps` and `deallocatePage_keeps` (an invariant that
the page operations keep is kept by both).
-/
namespace DbStorage.Pager
open Bytes Vfs

/-- mirrors freelist.rs:17-25 -/
inductive FreelistError where
  | pageTooShort (offset len : Nat)
  deriving DecidableEq

/-- mirrors pager/error.rs:9-43; `HotJournal` is never built, and no
modelled file operation fails, so it and the VFS variant are left out. -/
inductive PagerError where
  | journal (source : JournalError)
  | wal (source : Wal.WalError)
  | page (source : PageError)
  | freelist (source : FreelistError)
  | pendingTransaction
  | checkpointIncomplete
  deriving DecidableEq

/-- mirrors pager/mod.rs:346-348 -/
def pageCountOffset : Nat := 28

def freelistTrunkPageOffset : Nat := 32

def freelistPageCountOffset : Nat := 36

/-- mirrors pager/mod.rs:350-363 and freelist.rs:41-55 -/
def readBeU32 (buf : Bytes) (offset : Nat) : Except FreelistError UInt32 :=
  match getRange buf offset (offset + 4) with
  | some b => .ok (ofBe32 b)
  | none => .error (.pageTooShort offset buf.length)

/-- mirrors pager/mod.rs:366-374 and freelist.rs:59-67 -/
def writeBeU32 (buf : Bytes) (offset : Nat) (value : UInt32) : Except FreelistError Bytes :=
  if offset + 4 ≤ buf.length then .ok (writeAt buf (be32 value) offset)
  else .error (.pageTooShort offset buf.length)

/-- mirrors freelist.rs:73-75 -/
def maxLeavesPerTrunk (pageSize : UInt32) : Nat := (pageSize.toNat - 8) / 4

/-- mirrors freelist.rs:79-84 -/
structure TrunkPage where
  nextTrunk : UInt32
  leaves : List UInt32
  deriving DecidableEq

/-- mirrors freelist.rs:97-100 -/
def readLeaves (buf : Bytes) : Nat → Nat → Except FreelistError (List UInt32)
  | 0, _ => .ok []
  | n + 1, i => do
    let leaf ← readBeU32 buf (8 + i * 4)
    let leaves ← readLeaves buf n (i + 1)
    .ok (leaf :: leaves)

/-- mirrors freelist.rs:92-103 -/
def TrunkPage.parse (buf : Bytes) : Except FreelistError TrunkPage := do
  let nextTrunk ← readBeU32 buf 0
  let claimedCount ← readBeU32 buf 4
  let leaves ← readLeaves buf (min claimedCount.toNat ((buf.length - 8) / 4)) 0
  .ok ⟨nextTrunk, leaves⟩

/-- mirrors freelist.rs:110-113 -/
def writeLeaves : Bytes → Nat → List UInt32 → Except FreelistError Bytes
  | buf, _, [] => .ok buf
  | buf, i, leaf :: leaves => do
    let buf ← writeBeU32 buf (8 + i * 4) leaf
    writeLeaves buf (i + 1) leaves

/-- mirrors freelist.rs:108-120 -/
def TrunkPage.write (t : TrunkPage) (buf : Bytes) : Except FreelistError Bytes := do
  let buf ← writeBeU32 buf 0 t.nextTrunk
  let buf ← writeBeU32 buf 4 (UInt32.ofNat t.leaves.length)
  let buf ← writeLeaves buf 0 t.leaves
  let tailStart := 8 + t.leaves.length * 4
  .ok (buf.take tailStart ++ List.replicate (buf.length - tailStart) 0)

/-! ## Allocating and deallocating -/

/-- Reading pages and making them writable: `getPageMut` returns the page's
buffer and `putPage` leaves a new content in it, `insertPage` puts a new
page. -/
structure PageOps (σ : Type) where
  pageSize : UInt32
  readPage : UInt32 → Action σ PagerError Bytes
  getPageMut : UInt32 → Action σ PagerError Bytes
  putPage : UInt32 → Bytes → Action σ PagerError Unit
  insertPage : UInt32 → Bytes → Action σ PagerError Unit

variable {σ : Type}

/-- Edits a page in place. A page has at least 512 bytes, so no edit of the
routines below stops half-way through its fields. -/
def PageOps.edit (O : PageOps σ) (p : UInt32) (f : Bytes → Except FreelistError Bytes) :
    Action σ PagerError Unit := do
  let buf ← O.getPageMut p
  let buf ← Action.ofExcept .freelist (f buf)
  O.putPage p buf

/-- `page_count.saturating_add(1)` and `freelist_page_count.saturating_add(1)` -/
def saturatingSucc (n : UInt32) : UInt32 := if n = 0xffffffff then n else n + 1

/-- `freelist_page_count.saturating_sub(1)` -/
def saturatingPred (n : UInt32) : UInt32 := if n = 0 then 0 else n - 1

/-- The header's trunk and count fields.
mirrors pager/mod.rs:1011-1017,1059-1065 -/
def PageOps.setFreelist (O : PageOps σ) (trunk count : UInt32) : Action σ PagerError Unit := do
  O.edit 1 fun page1 => do
    let page1 ← writeBeU32 page1 freelistTrunkPageOffset trunk
    writeBeU32 page1 freelistPageCountOffset count

/-- mirrors pager/mod.rs:984-1019 -/
def PageOps.allocatePage (O : PageOps σ) : Action σ PagerError UInt32 := do
  let header ← O.readPage 1
  let pageCount ← Action.ofExcept .freelist (readBeU32 header pageCountOffset)
  let trunkPage ← Action.ofExcept .freelist (readBeU32 header freelistTrunkPageOffset)
  let freeCount ← Action.ofExcept .freelist (readBeU32 header freelistPageCountOffset)
  if trunkPage = 0 then do
    let newPageNum := saturatingSucc pageCount
    O.insertPage newPageNum (List.replicate O.pageSize.toNat 0)
    O.edit 1 fun page1 => writeBeU32 page1 pageCountOffset newPageNum
    return newPageNum
  else do
    let trunkBuf ← O.readPage trunkPage
    let trunk ← Action.ofExcept .freelist (TrunkPage.parse trunkBuf)
    match trunk.leaves.getLast? with
    | some leaf => do
      O.edit trunkPage ({ trunk with leaves := trunk.leaves.dropLast } : TrunkPage).write
      O.setFreelist trunkPage (saturatingPred freeCount)
      return leaf
    | none => do
      O.setFreelist trunk.nextTrunk (saturatingPred freeCount)
      return trunkPage

/-- Makes `pageNum` the first trunk page.
mirrors pager/mod.rs:1039-1057 -/
def PageOps.newTrunk (O : PageOps σ) (pageNum nextTrunk : UInt32) : Action σ PagerError UInt32 := do
  O.edit pageNum ({ nextTrunk := nextTrunk, leaves := [] } : TrunkPage).write
  return pageNum

/-- Puts `pageNum` into the trunk page if it has room for it, else makes it
the new trunk page; returns the page number of the first trunk.
mirrors pager/mod.rs:1030-1057 -/
def PageOps.addFree (O : PageOps σ) (trunkPage pageNum : UInt32) : Action σ PagerError UInt32 :=
  if trunkPage ≠ 0 then do
    let trunkBuf ← O.readPage trunkPage
    let trunk ← Action.ofExcept .freelist (TrunkPage.parse trunkBuf)
    if trunk.leaves.length < maxLeavesPerTrunk O.pageSize then do
      O.edit trunkPage ({ trunk with leaves := trunk.leaves ++ [pageNum] } : TrunkPage).write
      return trunkPage
    else O.newTrunk pageNum trunkPage
  else O.newTrunk pageNum 0

/-- mirrors pager/mod.rs:1024-1065 -/
def PageOps.deallocatePage (O : PageOps σ) (pageNum : UInt32) : Action σ PagerError Unit := do
  let header ← O.readPage 1
  let trunkPage ← Action.ofExcept .freelist (readBeU32 header freelistTrunkPageOffset)
  let freeCount ← Action.ofExcept .freelist (readBeU32 header freelistPageCountOffset)
  let newTrunkPage ← O.addFree trunkPage pageNum
  O.setFreelist newTrunkPage (saturatingSucc freeCount)

/-! ## What both keep -/

section
variable {O : PageOps σ} {I : σ → Prop}

/-- Every page operation keeps `I`. -/
structure PageOps.Keeps (O : PageOps σ) (I : σ → Prop) : Prop where
  readPage : ∀ p, Action.Keeps I (O.readPage p)
  getPageMut : ∀ p, Action.Keeps I (O.getPageMut p)
  putPage : ∀ p b, Action.Keeps I (O.putPage p b)
  insertPage : ∀ p b, Action.Keeps I (O.insertPage p b)

theorem PageOps.Keeps.edit (h : O.Keeps I) (p : UInt32) (f : Bytes → Except FreelistError Bytes) :
    Action.Keeps I (O.edit p f) :=
  (h.getPageMut p).bind fun _ => (Action.Keeps.ofExcept _ _).bind fun b => h.putPage p b

theorem PageOps.Keeps.setFreelist (h : O.Keeps I) (trunk count : UInt32) :
    Action.Keeps I (O.setFreelist trunk count) := h.edit 1 _

theorem allocatePage_keeps (h : O.Keeps I) : Action.Keeps I O.allocatePage := by
  unfold PageOps.allocatePage
  refine (h.readPage 1).bind fun header => (Action.Keeps.ofExcept _ _).bind fun pageCount =>
    (Action.Keeps.ofExcept _ _).bind fun trunkPage => (Action.Keeps.ofExcept _ _).bind fun freeCount =>
    Action.Keeps.ite ?_ ?_
  · exact (h.insertPage _ _).bind fun _ => (h.edit 1 _).bind fun _ => .pure _
  · refine (h.readPage trunkPage).bind fun buf => (Action.Keeps.ofExcept _ _).bind fun trunk => ?_
    split
    · exact (h.edit _ _).bind fun _ => (h.setFreelist _ _).bind fun _ => .pure _
    · exact (h.setFreelist _ _).bind fun _ => .pure _

theorem newTrunk_keeps (h : O.Keeps I) (p next : UInt32) : Action.Keeps I (O.newTrunk p next) :=
  (h.edit p _).bind fun _ => .pure _

theorem addFree_keeps (h : O.Keeps I) (trunkPage p : UInt32) :
    Action.Keeps I (O.addFree trunkPage p) := by
  unfold PageOps.addFree
  refine Action.Keeps.ite ?_ (newTrunk_keeps h _ _)
  refine (h.readPage trunkPage).bind fun buf => (Action.Keeps.ofExcept _ _).bind fun trunk => ?_
  exact Action.Keeps.ite ((h.edit _ _).bind fun _ => .pure _) (newTrunk_keeps h _ _)

theorem deallocatePage_keeps (h : O.Keeps I) (p : UInt32) : Action.Keeps I (O.deallocatePage p) := by
  unfold PageOps.deallocatePage
  exact (h.readPage 1).bind fun header => (Action.Keeps.ofExcept _ _).bind fun trunkPage =>
    (Action.Keeps.ofExcept _ _).bind fun freeCount => (addFree_keeps h _ _).bind fun _ =>
    h.setFreelist _ _

end

end DbStorage.Pager
