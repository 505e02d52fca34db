import DbStorage.Pager.PageCache
import DbStorage.Pager.Rollback
import DbStorage.Vfs.FileLock
import DbStorage.Wal.Checkpoint

/-!
# One connection (`Pager` in `pager/mod.rs`)

`Pager` and the files it works on: opening, reading through the dirty
pages, the WAL overlay, the cache and the main file, committing in both
journal modes, and switching between them. Commits draw their nonce and
salts from `random_nonce`; here they are arguments.

Results: `readPage_eq` (what a read returns while the cache only holds
pages of the main file) and `readPage_cached` (reads keep that).

Left out: the file locks (a single connection never finds one taken), the
`-shm` handle and `mxFrame` (no operation here reads it), and paths.
-/
namespace DbStorage.Pager
open Bytes Vfs Wal Std

set_option linter.dupNamespace false

/-- mirrors header.rs:105-110 -/
inductive JournalMode where
  | legacy
  | wal
  deriving DecidableEq

/-- The files of one database. Of the `-shm` file only `nBackfill` is read;
`walIndex` says whether the backend has functions that read it (`UnixVfs`
does, `MemoryVfs` does not). -/
structure Disk where
  main : Bytes
  journal : Option Bytes
  wal : Option Bytes
  shm : Option UInt32
  walIndex : Bool

def Disk.files (d : Disk) : Files := ⟨d.main, d.journal⟩

def Disk.setFiles (d : Disk) (f : Files) : Disk := { d with main := f.main, journal := f.journal }

/-- The `nBackfill` the checkpoint code sees. -/
def Disk.nBackfill (d : Disk) : Option UInt32 := if d.walIndex then d.shm else none

/-- mirrors pager/mod.rs:237-337 -/
structure Pager where
  txLockLevel : LockLevel
  walResume : Option WalResumeHint
  walPages : PageMap
  dirty : DirtyPages
  pageCache : PageCache
  pageSize : UInt32
  journalMode : JournalMode
  synchronous : SynchronousMode

/-- A connection and the files it works on. -/
structure Conn where
  disk : Disk
  pager : Pager

/-- mirrors pager/mod.rs:61 -/
def defaultPageCacheCapacity : Nat := 2000

/-! ## Opening -/

/-- mirrors pager/mod.rs:1075-1081 -/
def journalModeFromPage1 (page1 : Bytes) : JournalMode :=
  if getRange page1 18 20 = some [2, 2] then .wal else .legacy

/-- mirrors pager/mod.rs:1170-1211 -/
def readWalPages (wal : Option Bytes) (pageSize : UInt32) : Except PagerError PageMap :=
  match wal with
  | none => .ok ∅
  | some bytes =>
    if bytes.length < headerLen then .ok ∅
    else match WalHeader.parse bytes with
      | .error e => .error (.wal e)
      | .ok header =>
        if header.pageSize ≠ pageSize then .error (.wal (.invalidPageSize header.pageSize))
        else .ok (committedPages header bytes).1

/-- mirrors pager/mod.rs:403-458 -/
def Pager.open (disk : Disk) (pageSize : UInt32) : Except PagerError Conn :=
  match openOps disk.files with
  | .error e => .error e
  | .ok ops =>
    let disk := disk.setFiles (runOps ops disk.files)
    match readWalPages disk.wal pageSize with
    | .error e => .error e
    | .ok walPages =>
      match readMain disk.main pageSize 1 with
      | .error e => .error e
      | .ok page1 => .ok ⟨disk,
          { txLockLevel := .shared
            walResume := none
            walPages := walPages
            dirty := ∅
            pageCache := .new defaultPageCacheCapacity
            pageSize := pageSize
            journalMode := journalModeFromPage1 page1
            synchronous := .full }⟩

/-- What is committed: what a fresh open reads. -/
def committedView (disk : Disk) (ps p : UInt32) : Except PagerError Bytes :=
  match readWalPages disk.wal ps with
  | .error e => .error e
  | .ok m => match m[p]? with
    | some c => .ok c
    | none => readMain disk.main ps p

/-! ## Reading and editing pages -/

def Conn.setCache (s : Conn) (c : PageCache) : Conn := { s with pager.pageCache := c }

/-- A read that missed the dirty pages and the overlay: the cache, then the
main file.
mirrors pager/mod.rs:1221-1244 -/
def Conn.readCached (p : UInt32) (s : Conn) : Except PagerError Bytes × Conn :=
  match s.pager.pageCache.get p with
  | (some cached, c) => (.ok cached, s.setCache c)
  | (none, c) =>
    let c := c.evictOneIfFull.2
    match readMain s.disk.main s.pager.pageSize p with
    | .error e => (.error e, s.setCache c)
    | .ok bytes => (.ok bytes, s.setCache (c.insert p bytes))

/-- mirrors pager/mod.rs:1213-1245 -/
def Conn.readPage (p : UInt32) (s : Conn) : Except PagerError Bytes × Conn :=
  match s.pager.dirty[p]? with
  | some page => (.ok page, s)
  | none =>
    match s.pager.walPages[p]? with
    | some page => (.ok page, s)
    | none => s.readCached p

/-- mirrors pager/mod.rs:1154-1163 -/
def Conn.readCommitted (s : Conn) (p : UInt32) : Except PagerError Bytes :=
  match s.pager.walPages[p]? with
  | some page => .ok page
  | none => readMain s.disk.main s.pager.pageSize p

def Conn.setDirty (s : Conn) (p : UInt32) (bytes : Bytes) : Conn :=
  { s with pager.dirty := s.pager.dirty.insert p bytes }

/-- mirrors pager/mod.rs:464-477 -/
def Conn.getPageMut (p : UInt32) (s : Conn) : Except PagerError Bytes × Conn :=
  let s := s.setCache (s.pager.pageCache.invalidate p)
  match s.pager.dirty[p]? with
  | some page => (.ok page, s)
  | none =>
    match s.readCommitted p with
    | .error e => (.error e, s)
    | .ok page => (.ok page, s.setDirty p page)

/-- The pager as the state of the allocation routines. -/
def connOps (pageSize : UInt32) : PageOps Conn where
  pageSize := pageSize
  readPage p := Action.ofFn (Conn.readPage p)
  getPageMut p := Action.ofFn (Conn.getPageMut p)
  putPage p bytes := Action.ofFn fun s => (.ok (), s.setDirty p bytes)
  insertPage p bytes := Action.ofFn fun s => (.ok (), s.setDirty p bytes)

/-! ## Committing -/

def Conn.setTxLock (s : Conn) (l : LockLevel) : Conn := { s with pager.txLockLevel := l }

/-- Runs the commit plan of the rollback journal.
mirrors pager/mod.rs:582-636 -/
def Conn.flushLegacy (nonce : UInt32) (s : Conn) : Except PagerError Unit × Conn :=
  let plan := flushLocked s.pager.pageSize s.pager.synchronous nonce s.disk.main s.pager.dirty
  let s := { s with disk := s.disk.setFiles (runOps plan.ops s.disk.files) }
  match plan.error with
  | some e => (.error e, s)
  | none => (.ok (), { s with pager.dirty := ∅ })

/-- The frames of a commit: every dirty page, the last one with the page
count.
mirrors pager/mod.rs:715-728 -/
def commitFrames (count : UInt32) : List (UInt32 × Bytes) → List Frame
  | [] => []
  | [w] => [⟨w.1, count, w.2⟩]
  | w :: ws => ⟨w.1, 0, w.2⟩ :: commitFrames count ws

/-- mirrors pager/mod.rs:855-860,893-897 -/
def freshHeader (pageSize : UInt32) (salts : UInt32 × UInt32) : WalHeader :=
  WalHeader.new true pageSize salts.1 (salts.2 ^^^ 0x5A5A5A5A) 1

/-- A new header over whatever the `-wal` file holds, and a new `-shm`.
mirrors pager/mod.rs:850-881,886-921 -/
def Disk.createWal (d : Disk) (header : WalHeader) : Disk × WalWriter :=
  let (wal, writer) := WalWriter.create d.wal header
  ({ d with wal := some wal, shm := some 0 }, writer)

/-- The writer of a commit: the existing file's, or a new file's when it has
vanished.
mirrors pager/mod.rs:696-713 -/
def Conn.openWriter (salts : UInt32 × UInt32) (s : Conn) : Except PagerError WalWriter × Conn :=
  match WalWriter.openExisting s.disk.wal s.pager.pageSize s.pager.walResume with
  | .ok writer => (.ok writer, s)
  | .error .notFound =>
    let (disk, writer) := s.disk.createWal (freshHeader s.pager.pageSize salts)
    (.ok writer, { s with disk := disk, pager.walResume := none })
  | .error e => (.error (.wal e), s)

/-- The overlay with the dirty pages folded in.
mirrors pager/mod.rs:758-763 -/
def Pager.overlayDirty (pager : Pager) : PageMap := overlay pager.walPages pager.dirty.toList

/-- Appends the frames; only `Full` syncs the writer.
mirrors pager/mod.rs:715-763 -/
def Conn.commitWal (count : UInt32) (writer : WalWriter) (s : Conn) : Conn :=
  let writer := writer.appendFrames (commitFrames count s.pager.dirty.toList)
  let (wal, writer) :=
    if s.pager.synchronous = .full then
      let (wal, writer) := writer.sync (s.disk.wal.getD [])
      (some wal, writer)
    else (s.disk.wal, writer)
  { disk := { s.disk with wal := wal }
    pager := { s.pager with
      walResume := some writer.resumeHint
      walPages := s.pager.overlayDirty
      dirty := ∅ } }

/-- mirrors pager/mod.rs:662-765 -/
def Conn.flushWalLocked (salts : UInt32 × UInt32) (s : Conn) : Except PagerError Unit × Conn :=
  match s.readPage 1 with
  | (.error e, s) => (.error e, s)
  | (.ok page1, s) =>
    match readBeU32 page1 pageCountOffset with
    | .error e => (.error (.freelist e), s)
    | .ok count =>
      match s.openWriter salts with
      | (.error e, s) => (.error e, s)
      | (.ok writer, s) => (.ok (), s.commitWal count writer)

/-- mirrors pager/mod.rs:489-537 and release_tx_lock, 573-580 -/
def Conn.flush (nonce : UInt32) (salts : UInt32 × UInt32) (s : Conn) : Except PagerError Unit × Conn :=
  if s.pager.dirty.isEmpty then (.ok (), s.setTxLock .shared)
  else
    match s.pager.journalMode with
    | .wal => ((s.flushWalLocked salts).1, (s.flushWalLocked salts).2.setTxLock .shared)
    | .legacy => ((s.flushLegacy nonce).1, (s.flushLegacy nonce).2.setTxLock .shared)

/-- mirrors pager/mod.rs:777-780 -/
def Conn.rollback (s : Conn) : Conn := { s with pager.dirty := ∅ }.setTxLock .shared

/-! ## Switching the journal mode -/

/-- mirrors pager/mod.rs:884-920 -/
def Conn.switchJournalToWal (salts : UInt32 × UInt32) (s : Conn) : Conn :=
  let (disk, _) := s.disk.createWal (freshHeader s.pager.pageSize salts)
  { disk := disk, pager := { s.pager with walResume := none } }

/-- One pass; this connection has dropped its reader mark before.
mirrors checkpoint.rs:59-192 -/
def Disk.checkpoint (d : Disk) (pageSize : UInt32) : Except PagerError (CheckpointResult × Disk) :=
  match checkpointPassive d.main d.wal [] d.nBackfill pageSize with
  | .error e => .error (.wal e)
  | .ok (r, main, n) => .ok (r, { d with main := main, shm := if d.walIndex then n else d.shm })

/-- mirrors pager/mod.rs:952-964 -/
def Disk.checkpointAll (pageSize : UInt32) : Nat → Disk → Except PagerError Unit × Disk
  | 0, d => (.error .checkpointIncomplete, d)
  | n + 1, d =>
    match d.checkpoint pageSize with
    | .error e => (.error e, d)
    | .ok (r, d) => if r.checkpointComplete then (.ok (), d) else checkpointAll pageSize n d

def maxPasses : Nat := 1000

/-- mirrors pager/mod.rs:940-976 -/
def Conn.switchWalToJournal (s : Conn) : Except PagerError Unit × Conn :=
  match s.disk.checkpointAll s.pager.pageSize maxPasses with
  | (.error e, disk) => (.error e, { s with disk := disk })
  | (.ok _, disk) =>
    (.ok (), { disk := { disk with wal := none, shm := none }
               pager := { s.pager with walPages := ∅, walResume := none } })

/-- mirrors pager/mod.rs:1090-1101 -/
def patchJournalModeBytes (page1 value : Bytes) : Except PagerError Bytes :=
  if 20 ≤ page1.length then .ok (writeAt page1 value 18)
  else .error (.page (.shortRead 1 20 page1.length))

/-- The version bytes on page 1 of the main file.
mirrors pager/mod.rs:811-827 -/
def Conn.writeVersion (mode : JournalMode) (s : Conn) : Except PagerError Unit × Conn :=
  match readMain s.disk.main s.pager.pageSize 1 with
  | .error e => (.error e, s)
  | .ok page1 =>
    match patchJournalModeBytes page1 (if mode = .wal then [2, 2] else [1, 1]) with
    | .error e => (.error e, s)
    | .ok page1 =>
      match writePage s.disk.main s.pager.pageSize 1 page1 with
      | .error e => (.error (.page e), s)
      | .ok main =>
        (.ok (), { s with disk.main := main }.setCache (s.pager.pageCache.invalidate 1))

/-- mirrors pager/mod.rs:802-805 -/
def Conn.switchTo (mode : JournalMode) (salts : UInt32 × UInt32) (s : Conn) :
    Except PagerError Unit × Conn :=
  match mode with
  | .wal => (.ok (), s.switchJournalToWal salts)
  | .legacy => s.switchWalToJournal

/-- mirrors pager/mod.rs:793-826 -/
def Conn.setJournalMode (mode : JournalMode) (salts : UInt32 × UInt32) (s : Conn) :
    Except PagerError Unit × Conn :=
  if !s.pager.dirty.isEmpty || s.pager.txLockLevel.aboveShared then
    (.error .pendingTransaction, s)
  else if s.pager.journalMode = mode then (.ok (), s)
  else
    match s.switchTo mode salts with
    | (.error e, s) => (.error e, s)
    | (.ok _, s) => { s with pager.journalMode := mode }.writeVersion mode

/-! ## What reads return -/

/-- The cache holds pages of the main file that the overlay does not shadow. -/
def CacheOk (s : Conn) : Prop :=
  ∀ p c, s.pager.pageCache.content p = some c →
    s.pager.walPages[p]? = none ∧ readMain s.disk.main s.pager.pageSize p = .ok c

theorem CacheOk.sub {s : Conn} {c : PageCache} (h : CacheOk s) (hc : c.Sub s.pager.pageCache) :
    CacheOk (s.setCache c) := fun p b hb => h p b (hc p b hb)

variable {s : Conn}

theorem readCached_eq (h : CacheOk s) (p : UInt32) :
    (s.readCached p).1 = readMain s.disk.main s.pager.pageSize p := by
  have hg := (s.pager.pageCache.content_get p).1
  unfold Conn.readCached
  rcases hget : s.pager.pageCache.get p with ⟨_ | cached, c⟩
  · cases hr : readMain s.disk.main s.pager.pageSize p <;> rfl
  · rw [hget] at hg
    exact (h p cached hg.symm).2.symm

theorem readCached_cache (h : CacheOk s) {p : UInt32} (hp : s.pager.walPages[p]? = none) :
    ∃ c, (s.readCached p).2 = s.setCache c ∧ CacheOk (s.setCache c) := by
  have hg := (s.pager.pageCache.content_get p).2
  unfold Conn.readCached
  rcases hget : s.pager.pageCache.get p with ⟨_ | cached, c⟩
  · rw [hget] at hg
    have hsub : c.evictOneIfFull.2.Sub s.pager.pageCache :=
      fun q b hb => hg q ▸ c.content_evict q b hb
    cases hr : readMain s.disk.main s.pager.pageSize p with
    | error e => exact ⟨_, rfl, h.sub hsub⟩
    | ok bytes =>
      refine ⟨_, rfl, fun q b hb => ?_⟩
      rcases PageCache.content_insert _ _ _ hb with ⟨rfl, rfl⟩ | hb
      · exact ⟨hp, hr⟩
      · exact h q b (hsub q b hb)
  · rw [hget] at hg
    exact ⟨_, rfl, h.sub fun q b hb => hg q ▸ hb⟩

/-- A read caches at most the page it reads. -/
theorem readCached_content {p q : UInt32} {b : Bytes}
    (h : (s.readCached p).2.pager.pageCache.content q = some b) :
    q = p ∨ s.pager.pageCache.content q = some b := by
  have hg := (s.pager.pageCache.content_get p).2
  unfold Conn.readCached at h
  rcases hget : s.pager.pageCache.get p with ⟨_ | cached, c⟩
  · rw [hget] at h hg
    have hsub : c.evictOneIfFull.2.Sub s.pager.pageCache :=
      fun q b hb => hg q ▸ c.content_evict q b hb
    cases hr : readMain s.disk.main s.pager.pageSize p with
    | error e => rw [hr] at h; exact .inr (hsub q b h)
    | ok bytes =>
      rw [hr] at h
      rcases PageCache.content_insert _ _ _ h with ⟨rfl, -⟩ | h
      · exact .inl rfl
      · exact .inr (hsub q b h)
  · rw [hget] at h hg
    exact .inr (hg q ▸ h)

/-- A dirty page that is not cached is not cached by a read. -/
theorem readPage_uncached {q : UInt32} {d : Bytes} (hd : s.pager.dirty[q]? = some d)
    (hq : s.pager.pageCache.content q = none) (p : UInt32) :
    (s.readPage p).2.pager.pageCache.content q = none := by
  unfold Conn.readPage
  cases hp : s.pager.dirty[p]? with
  | some page => exact hq
  | none =>
    cases s.pager.walPages[p]? with
    | some page => exact hq
    | none =>
      refine Option.eq_none_iff_forall_ne_some.2 fun b hb => ?_
      rcases readCached_content hb with rfl | h
      · rw [hd] at hp; cases hp
      · rw [hq] at h; cases h

/-- A read returns the dirty page, or the committed one. -/
theorem readPage_eq (h : CacheOk s) (p : UInt32) :
    (s.readPage p).1 = match s.pager.dirty[p]? with
      | some page => .ok page
      | none => s.readCommitted p := by
  unfold Conn.readPage Conn.readCommitted
  cases s.pager.dirty[p]? with
  | some page => rfl
  | none =>
    cases s.pager.walPages[p]? with
    | some page => rfl
    | none => exact readCached_eq h p

theorem readPage_clean (h : CacheOk s) (hd : s.pager.dirty = ∅) (p : UInt32) :
    (s.readPage p).1 = s.readCommitted p := by
  rw [readPage_eq h, hd]
  simp only [ExtTreeMap.getElem?_empty]

/-- A read changes the cache only, and keeps it right. -/
theorem readPage_cached (h : CacheOk s) (p : UInt32) :
    ∃ c, (s.readPage p).2 = s.setCache c ∧ CacheOk (s.setCache c) := by
  unfold Conn.readPage
  cases s.pager.dirty[p]? with
  | some page => exact ⟨_, rfl, h⟩
  | none =>
    cases hw : s.pager.walPages[p]? with
    | some page => exact ⟨_, rfl, h⟩
    | none => exact readCached_cache h hw

end DbStorage.Pager
