import DbStorage.Pager.Crash
import DbStorage.Pager.Reopen

/-!
# A flush that fails (`pager/mod.rs`)

A file operation inside `Pager::flush` may return an error while the process
lives on. The flush then returns the error, the files keep what the
operations before it did, and `rollback` drops the dirty pages in memory.
`faulty` runs one connection in either journal mode with such flushes; the
operation that fails has no effect.

`content` records what every page read as after the last flush that
returned `Ok` (or after the open).

Results: `rollback_restores` (in every run in which no flush fails after its
first write to the main file, or of frames to the `-wal` file, a rollback
brings back `content`, on this connection and for one opened afterwards) and
`half_committed` (a flush that fails later).
-/
namespace DbStorage.Pager
open Bytes Vfs Wal Std List

/-! ## The file operations of a WAL flush -/

/-- The operations of `flush_wal_locked` in order; what the code does in
memory right after one of them is part of it. `resume` is in memory only. -/
inductive WalOp where
  | readPage1
  | createWal
  | writeHeader (h : WalHeader)
  | createShm
  | openShm
  | writeFrames (data : Bytes) (offset : Nat)
  | syncWal
  | resume (hint : WalResumeHint)
  | publishMxFrame

def WalOp.apply (s : Conn) : WalOp → Conn
  | .readPage1 => (s.readPage 1).2
  | .createWal => { s with disk.wal := some (s.disk.wal.getD []) }
  | .writeHeader h => { s with disk.wal := some (writeAt (s.disk.wal.getD []) h.serialize 0) }
  | .createShm => { s with disk.shm := some 0 }
  | .openShm => { s with pager.walResume := none }
  | .writeFrames data offset => { s with disk.wal := some (writeAt (s.disk.wal.getD []) data offset) }
  | .syncWal => s
  | .resume hint => { s with pager.walResume := some hint }
  | .publishMxFrame => { s with pager.walPages := s.pager.overlayDirty, pager.dirty := ∅ }

def runWal (ops : List WalOp) (s : Conn) : Conn := ops.foldl WalOp.apply s

/-- From the first frame on.
mirrors pager/mod.rs:715-763 -/
def commitOps (count : UInt32) (writer : WalWriter) (s : Conn) : List WalOp :=
  let w := writer.appendFrames (commitFrames count s.pager.dirty.toList)
  if s.pager.synchronous = .full then
    (match w.pendingOffset with
      | some offset => [.writeFrames w.pending offset]
      | none => []) ++ [.syncWal, .resume (w.sync []).2.resumeHint, .publishMxFrame]
  else [.resume w.resumeHint, .publishMxFrame]

/-- mirrors pager/mod.rs:850-881 -/
def createOps (h : WalHeader) : List WalOp := [.createWal, .writeHeader h, .createShm, .openShm]

/-- mirrors pager/mod.rs:662-765 -/
def Conn.walOps (salts : UInt32 × UInt32) (s : Conn) : List WalOp :=
  match s.readPage 1 with
  | (.error _, _) => [.readPage1]
  | (.ok page1, s) =>
    match readBeU32 page1 pageCountOffset with
    | .error _ => [.readPage1]
    | .ok count =>
      match WalWriter.openExisting s.disk.wal s.pager.pageSize s.pager.walResume with
      | .ok writer => .readPage1 :: commitOps count writer s
      | .error .notFound =>
        let h := freshHeader s.pager.pageSize salts
        .readPage1 :: (createOps h ++ commitOps count (WalWriter.create s.disk.wal h).2 s)
      | .error _ => [.readPage1]

/-! ## Failing -/

/-- `flush` when the file operation behind the first `k` fails.
mirrors pager/mod.rs:490-539 -/
def Conn.flushFails (nonce : UInt32) (salts : UInt32 × UInt32) (k : Nat) (s : Conn) : Conn :=
  match s.pager.journalMode with
  | .wal => (runWal ((s.walOps salts).take k) s).setTxLock .shared
  | .legacy =>
    let plan := flushLocked s.pager.pageSize s.pager.synchronous nonce s.disk.main s.pager.dirty
    { s with disk := s.disk.setFiles (runOps (plan.ops.take k) s.disk.files) }.setTxLock .shared

def WalOp.isFileOp : WalOp → Bool
  | .resume _ => false
  | _ => true

/-- Whether there is an operation behind the first `k`; reads in front of
the first operation fail like it. -/
def Conn.canFail (nonce : UInt32) (salts : UInt32 × UInt32) (k : Nat) (s : Conn) : Bool :=
  !s.pager.dirty.isEmpty && match s.pager.journalMode with
    | .wal => (s.walOps salts)[k]?.any WalOp.isFileOp
    | .legacy => k = 0 ||
        k < (flushLocked s.pager.pageSize s.pager.synchronous nonce s.disk.main s.pager.dirty).ops.length

structure FaultRun where
  conn : Conn
  nonces : List UInt32
  content : UInt32 → Except PagerError Bytes

inductive FaultOp where
  | call (op : PagerOp)
  | flushFails (nonce : UInt32) (salts : UInt32 × UInt32) (k : Nat)

def PagerOp.nonces : PagerOp → List UInt32
  | .flush nonce _ => [nonce]
  | _ => []

def FaultRun.next (t : FaultRun) : FaultOp → FaultRun
  | .call op =>
    let r := t.conn.run op
    ⟨r.2, op.nonces ++ t.nonces, if op.isFlush && r.1 then fun p => (r.2.readPage p).1 else t.content⟩
  | .flushFails nonce salts k => ⟨t.conn.flushFails nonce salts k, nonce :: t.nonces, t.content⟩

theorem FaultRun.next_call (t : FaultRun) (op : PagerOp) : (t.next (.call op)).conn = (t.conn.run op).2 := rfl

/-- The journal mode stays as it is. -/
def FaultRun.allows (t : FaultRun) : FaultOp → Bool
  | .call (.setJournalMode _ _) => false
  | .call _ => true
  | .flushFails nonce salts k => t.conn.canFail nonce salts k

/-- One connection, opened on any files; `nonces` has those of the records
that a journal left behind. -/
def faulty (ps : UInt32) : LTS FaultRun FaultOp where
  init t := (∃ disk, Pager.open disk ps = .ok t.conn) ∧ (t.content = fun p => (t.conn.readPage p).1) ∧
    ∀ j, t.conn.disk.journal = some j → OlderRecords ps ps t.nonces j
  step t l t' := t.allows l = true ∧ t' = t.next l

/-! ## The condition -/

def FileOp.early : FileOp → Bool
  | .createJournal | .writeJournal _ _ | .syncJournal => true
  | _ => false

def WalOp.early : WalOp → Bool
  | .readPage1 | .createWal | .writeHeader _ | .createShm | .openShm => true
  | _ => false

/-- A flush that goes through is sound, and deletes a hot journal of a failed
one. A flush that fails does so before it writes to the main file, or frames
to the `-wal` file; if it has begun to journal, then for a database whose
header has the right page count, with a new nonce and pages that it could
have written. -/
def FailsEarly (ps : UInt32) (t : FaultRun) : FaultOp → Prop
  | .call (.flush _ _) => t.conn.pager.dirty.isEmpty = true ∨ FlushSound ps t.conn ∧
      (t.conn.pager.journalMode = .legacy → (∃ j, t.conn.disk.journal = some j ∧ journalIsHot j = true) →
        ∀ count, headerPageCount t.conn.disk.main ps = .ok count → toJournal count t.conn.pager.dirty ≠ [])
  | .call _ => True
  | .flushFails nonce salts k =>
    match t.conn.pager.journalMode with
    | .wal => ∀ op ∈ (t.conn.walOps salts).take k, op.early = true
    | .legacy =>
      let plan := flushLocked ps t.conn.pager.synchronous nonce t.conn.disk.main t.conn.pager.dirty
      k = 0 ∨ CountOk ps t.conn.disk.main ∧ nonce ∉ t.nonces ∧ plan.error = none ∧
        ∀ op ∈ plan.ops.take k, op.early = true

variable {ps : UInt32} {s : Conn}

/-! ## The operations are those of the flush -/

theorem sync_writer (w : WalWriter) (file : Bytes) : (w.sync file).2 = (w.sync []).2 := by
  unfold WalWriter.sync
  cases w.pendingOffset <;> rfl

theorem runWal_commitOps (count : UInt32) (writer : WalWriter) {wal : Bytes} (hw : s.disk.wal = some wal) :
    runWal (commitOps count writer s) s = s.commitWal count writer := by
  unfold commitOps Conn.commitWal
  by_cases hfull : s.pager.synchronous = .full
  · simp only [hfull, if_true, sync_writer _ (s.disk.wal.getD [])]
    unfold WalWriter.sync
    cases (writer.appendFrames (commitFrames count s.pager.dirty.toList)).pendingOffset with
    | none =>
      simp only [nil_append, runWal, foldl_cons, foldl_nil, WalOp.apply, Pager.overlayDirty, hw,
        Option.getD_some, hfull]
      rw [← hw]
    | some offset =>
      simp only [cons_append, nil_append, runWal, foldl_cons, foldl_nil, WalOp.apply,
        Pager.overlayDirty, hfull]
  · simp only [hfull, if_false, runWal, foldl_cons, foldl_nil, WalOp.apply, Pager.overlayDirty]

/-- All of them together are the flush. -/
theorem runWal_walOps (salts : UInt32 × UInt32) (h : (s.flushWalLocked salts).1 = .ok ()) :
    runWal (s.walOps salts) s = (s.flushWalLocked salts).2 := by
  unfold Conn.flushWalLocked at h ⊢
  unfold Conn.walOps
  rcases hr : s.readPage 1 with ⟨e | page1, s₁⟩
  · rw [hr] at h; cases h
  simp only [hr] at h ⊢
  cases hc : readBeU32 page1 pageCountOffset with
  | error e => rw [hc] at h; cases h
  | ok count =>
    simp only [hc] at h ⊢
    have hs₁ : (s.readPage 1).2 = s₁ := by rw [hr]
    unfold Conn.openWriter at h ⊢
    cases ho : WalWriter.openExisting s₁.disk.wal s₁.pager.pageSize s₁.pager.walResume with
    | ok writer =>
      simp only [runWal, foldl_cons, WalOp.apply, hs₁]
      cases hw : s₁.disk.wal with
      | none => rw [hw] at ho; cases ho
      | some wal => exact runWal_commitOps count writer hw
    | error e =>
      cases e with
      | notFound =>
        simp only [runWal, foldl_cons, foldl_append, createOps, foldl_nil, WalOp.apply, hs₁,
          Disk.createWal, WalWriter.create, Option.getD_some]
        exact runWal_commitOps (s := ⟨_, _⟩) count _ rfl
      | _ => rw [ho] at h; cases h

/-! ## What the files keep -/

def Conn.dropJournal (s : Conn) : Conn := { s with disk.journal := none }

/-- What a `-journal` file holds: records of older journals, and if it is hot
then pre-images that the main file still has. -/
structure JournalKept (ps : UInt32) (nonces : List UInt32) (main j : Bytes) : Prop where
  older : OlderRecords ps ps nonces j
  undo : journalIsHot j = true → ∃ h, JournalHeader.parse j = .ok h ∧ h.pageSize = ps ∧
    h.initialPageCount.toNat * ps.toNat = main.length ∧ Undoes ps main (replay h j) main

/-- The files hold what the connection has committed, whether or not a
failed flush has left its journal behind. -/
structure Kept (ps : UInt32) (nonces : List UInt32) (s : Conn) : Prop where
  files : Synced ps s.dropJournal
  journal : ∀ j, s.disk.journal = some j → JournalKept ps nonces s.disk.main j
  hint : s.disk.wal = none → s.pager.walResume = none

variable {nonces : List UInt32} {nonce : UInt32} {k : Nat} {salts : UInt32 × UInt32} {t : FaultRun}

theorem Kept.cached (h : Kept ps nonces s) : CacheOk s := h.files.cached

theorem Kept.synced (h : Kept ps nonces s) (hcold : ∀ j, s.disk.journal = some j → journalIsHot j = false) :
    Synced ps s :=
  ⟨h.files.size, hcold, h.files.page1, h.files.overlay, h.files.cached, h.files.hint⟩

theorem Synced.dropJournal (h : Synced ps s) : Synced ps s.dropJournal :=
  ⟨h.size, nofun, h.page1, h.overlay, h.cached, h.hint⟩

variable {nonces' : List UInt32} {sync : SynchronousMode} {dirty : DirtyPages}

theorem JournalKept.mono {main j : Bytes} (h : JournalKept ps nonces main j) (hsub : ∀ n ∈ nonces, n ∈ nonces') :
    JournalKept ps nonces' main j := by
  refine ⟨fun i p d ck hr => ?_, h.undo⟩
  obtain ⟨n, hn, hck⟩ := h.older i p d ck hr
  exact ⟨n, hsub n hn, hck⟩

/-- An open of kept files gives back the main file as it is. -/
theorem Kept.open (h : Kept ps nonces s) (hs : 0 < ps.toNat) :
    ∃ ops, openOps s.disk.files = .ok ops ∧ (runOps ops s.disk.files).main = s.disk.main := by
  unfold openOps
  cases hj : s.disk.journal with
  | none => exact ⟨[], by simp only [Disk.files, hj], rfl⟩
  | some j =>
    cases hot : journalIsHot j with
    | false => exact ⟨[], by simp only [Disk.files, hj, hot]; rfl, rfl⟩
    | true =>
      obtain ⟨hd, hp, hps, hlen, hu⟩ := (h.journal j hj).undo hot
      have hsafe : Safe ps nonces s.disk.main s.disk.main s.disk.files _ :=
        safe_recover hs hlen.symm hj hot hp hps hlen hu
      refine ⟨_, ?_, hsafe.main⟩
      simp only [Disk.files, hj, hot, if_true, recoverHotJournal, hp, hps, hlen]
      rfl

theorem Kept.reopen (h : Kept ps nonces s) (hs : 0 < ps.toNat) {fresh : Conn} (hopen : Pager.open s.disk ps = .ok fresh)
    (p : UInt32) : (fresh.readPage p).1 = s.readCommitted p := by
  obtain ⟨hf, hd⟩ := Synced.open hopen
  obtain ⟨ops, hops, hmain⟩ := h.open hs
  have hwal : readWalPages s.disk.wal ps = .ok s.pager.walPages := h.files.overlay
  have hsize : s.pager.pageSize = ps := h.files.size
  simp only [Pager.open, hops, Disk.setFiles, hwal] at hopen
  split at hopen
  · cases hopen
  · cases hopen
    rw [readPage_eq hf.cached]
    simp only [ExtTreeMap.getElem?_empty, Conn.readCommitted, hmain, hsize]

/-! ## A flush to the main file fails -/

/-- The journal of a flush, with the first `k` of its records. -/
theorem JournalKept.begun {count n : UInt32} {main j region : Bytes} {R : List (UInt32 × Bytes)} (k : Nat)
    (hreg : headerRegion ⟨n, nonce, count, ps, ps⟩ = .ok region) (hold : OlderRecords ps ps nonces j)
    (hnew : nonce ∉ nonces) (hl : main.length = count.toNat * ps.toNat) (hn : R.length = n.toNat)
    (hR : ∀ w ∈ R, w.1 ≠ 0 ∧ readPage main ps w.1 = .ok w.2) :
    JournalKept ps (nonce :: nonces) main (writeRecords nonce ps ps (writeAt j region 0) 0 (R.take k)) := by
  have hRlen : ∀ w ∈ R, w.2.length = ps.toNat := fun w hw => readPage_length (hR w hw).2
  obtain ⟨-, hp, hreplay⟩ := hot_journal k hreg hold hnew hRlen hn
  refine ⟨fun i p d ck hr => ?_, fun _ => ⟨_, hp, rfl, hl.symm, ?_⟩⟩
  · have hrl := (headerRegion_length hreg).1
    have h0 : recordOffset ps ps 0 = ps.toNat := by simp [recordOffset]
    obtain ⟨-, h2, h3⟩ := @writeRecords_slots nonce ps ps (R.take k) (writeAt j region 0) 0
      (fun w hw => hRlen w (mem_of_mem_take hw)) (by rw [writeAt_length, h0]; simp only at hrl; omega)
    rcases Nat.lt_or_ge i (R.take k).length with hi | hi
    · have := h2 i _ (List.getElem?_eq_getElem hi)
      rw [Nat.zero_add, hr] at this
      cases this
      exact ⟨nonce, mem_cons_self, rfl⟩
    · have hoff := recordOffset_mono ps ps (Nat.zero_le i)
      rw [h3 i (by omega), recordAt_writeAt_after _ _ (by simp only at hrl; omega)] at hr
      obtain ⟨m, hm, hck⟩ := hold i p d ck hr
      exact ⟨m, mem_cons_of_mem _ hm, hck⟩
  · rw [hreplay]
    exact ⟨fun w hw => hR w (mem_of_mem_take hw), fun _ _ hq _ => hq⟩

theorem runOps_early {ops : List FileOp} (h : ∀ op ∈ ops, op.early = true) (f : Files) :
    (runOps ops f).main = f.main := by
  induction ops generalizing f with
  | nil => rfl
  | cons op ops ih =>
    rw [runOps_cons, ih fun o ho => h o (mem_cons_of_mem _ ho)]
    have := h op mem_cons_self
    cases op <;> first | rfl | cases this

/-- Behind the records the only early operation is the sync of the journal. -/
theorem runOps_behind {rest : List FileOp} (hrest : ∀ op ∈ rest, op.early = true → op = .syncJournal) {m : Nat}
    (hearly : ∀ op ∈ rest.take m, op.early = true) (g : Files) : runOps (rest.take m) g = g := by
  have hall : ∀ op ∈ rest.take m, op = .syncJournal :=
    fun op hop => hrest op (mem_of_mem_take hop) (hearly op hop)
  generalize rest.take m = ops at hall
  induction ops with
  | nil => rfl
  | cons op ops ih =>
    rw [runOps_cons, hall op mem_cons_self]
    exact ih fun o ho => hall o (mem_cons_of_mem _ ho)

theorem late_ops (last : List FileOp) (hlast : ∀ op ∈ last, op = .deleteJournal) :
    ∀ op ∈ mainWrites ps dirty.toList ++ ((if sync = .full then [FileOp.syncMain] else []) ++ last),
      op.early = false := by
  intro op hop
  simp only [mem_append] at hop
  obtain hop | hop | hop := hop
  · obtain ⟨w, -, rfl⟩ := mem_map.1 hop
    rfl
  · split at hop
    · rw [mem_singleton.1 hop]; rfl
    · cases hop
  · rw [hlast op hop]; rfl

/-- A flush that has begun to journal and fails before it writes to the main
file. -/
theorem flushLocked_early {f : Files} (hcount : CountOk ps f.main) (hnew : nonce ∉ nonces)
    (herr : (flushLocked ps sync nonce f.main dirty).error = none)
    (hearly : ∀ op ∈ (flushLocked ps sync nonce f.main dirty).ops.take k, op.early = true)
    (hj : ∀ j, f.journal = some j → JournalKept ps nonces f.main j) :
    ∀ j, (runOps ((flushLocked ps sync nonce f.main dirty).ops.take k) f).journal = some j →
      JournalKept ps (nonce :: nonces) f.main j := by
  obtain ⟨count, hc, hl⟩ := hcount
  have hs : 0 < ps.toNat := CountOk.pos ⟨count, hc, hl⟩
  have hmono : ∀ j, f.journal = some j → JournalKept ps (nonce :: nonces) f.main j :=
    fun j hjo => (hj j hjo).mono fun n hn => mem_cons_of_mem _ hn
  by_cases hto : toJournal count dirty = []
  · -- nothing is journaled, so no operation is early
    have hfold : dirty.keys.filter (· ≤ count) = [] := hto
    simp only [flushLocked, hc, hfold, journalPart, if_true] at herr hearly ⊢
    have hwf := writeDirty_error (andThen_error (andThen_error herr).1).2
    rw [writeDirty_eq hwf, andThen_ops rfl, andThen_ops rfl] at hearly ⊢
    simp only [nil_append] at hearly ⊢
    rw [runOps_behind (fun op hop he => ?_) hearly]
    · exact hmono
    · rw [late_ops [] (fun op h => by cases h) op hop] at he
      cases he
  obtain ⟨region, hreg, hwf, hops⟩ := flushLocked_ops hc hl herr hto
  have hold : OlderRecords ps ps nonces (f.journal.getD []) := by
    cases hjo : f.journal with
    | none => exact olderRecords_nil
    | some j => exact (hj j hjo).older
  rw [hops] at hearly ⊢
  obtain ⟨hnat, hRval⟩ := preImages_toJournal hs hl hwf
  generalize preImages f.main ps (toJournal count dirty) = R at *
  have hbegun : ∀ m, JournalKept ps (nonce :: nonces) f.main
      (writeRecords nonce ps ps (writeAt (f.journal.getD []) region 0) 0 (R.take m)) :=
    fun m => .begun m hreg hold hnew hl hnat hRval
  obtain _ | _ | k := k
  · exact hmono
  · intro j hjo
    cases hjo
    cases hjo : f.journal with
    | none => exact ⟨olderRecords_nil, fun hot => by cases hot⟩
    | some j => exact hmono j hjo
  · simp only [cons_append, nil_append, take_succ_cons, runOps_cons, FileOp.apply,
      Option.getD_some] at hearly ⊢
    generalize hrest : (if sync ≠ .off then [FileOp.syncJournal] else []) ++ (mainWrites ps dirty.toList ++
      ((if sync = .full then [FileOp.syncMain] else []) ++ [.deleteJournal])) = rest at hearly ⊢
    have hsync : ∀ op ∈ rest, op.early = true → op = .syncJournal := by
      intro op hop he
      rw [← hrest] at hop
      obtain hop | hop := mem_append.1 hop
      · split at hop
        · exact mem_singleton.1 hop
        · cases hop
      · rw [late_ops _ (fun op hop => mem_singleton.1 hop) op hop] at he
        cases he
    rw [take_append] at hearly ⊢
    rw [runOps_append, runOps_recordOps, runOps_behind hsync fun op hop => hearly op ?_]
    · intro j hjo
      cases hjo
      exact hbegun k
    · exact mem_cons_of_mem _ (mem_cons_of_mem _ (mem_append_right _ hop))

theorem Kept.failsLegacy (h : Kept ps nonces s) (salts : UInt32 × UInt32) (hm : s.pager.journalMode = .legacy)
    (hearly : k = 0 ∨ CountOk ps s.disk.main ∧ nonce ∉ nonces ∧
      (flushLocked ps s.pager.synchronous nonce s.disk.main s.pager.dirty).error = none ∧
      ∀ op ∈ (flushLocked ps s.pager.synchronous nonce s.disk.main s.pager.dirty).ops.take k, op.early = true) :
    Kept ps (nonce :: nonces) (s.flushFails nonce salts k) ∧
      ∀ p, (s.flushFails nonce salts k).readCommitted p = s.readCommitted p := by
  have hsize : s.pager.pageSize = ps := h.files.size
  have hmain : (runOps ((flushLocked ps s.pager.synchronous nonce s.disk.main s.pager.dirty).ops.take k)
      s.disk.files).main = s.disk.main := by
    obtain rfl | ⟨-, -, -, hops⟩ := hearly
    · rfl
    · exact runOps_early hops _
  have hjournal : ∀ j, (runOps ((flushLocked ps s.pager.synchronous nonce s.disk.main s.pager.dirty).ops.take k)
      s.disk.files).journal = some j → JournalKept ps (nonce :: nonces) s.disk.main j := by
    obtain rfl | ⟨hcount, hnew, herr, hops⟩ := hearly
    · exact fun j hj => (h.journal j hj).mono fun n hn => mem_cons_of_mem _ hn
    · exact flushLocked_early (f := s.disk.files) hcount hnew herr hops h.journal
  simp only [Conn.flushFails, hm, hsize]
  refine ⟨⟨?_, fun j hj => ?_, h.hint⟩, fun p => ?_⟩
  · refine h.files.congr ?_ rfl rfl rfl fun _ _ hc => hc
    simp only [Conn.dropJournal, Conn.setTxLock, Disk.setFiles, hmain]
  · have := hjournal j hj
    simp only [Conn.setTxLock, Disk.setFiles, hmain]
    exact this
  · simp only [Conn.readCommitted, Conn.setTxLock, Disk.setFiles, hmain]

/-! ## A flush to the WAL fails -/

theorem Kept.setCache (h : Kept ps nonces s) {c : PageCache} (hc : CacheOk (s.setCache c)) :
    Kept ps nonces (s.setCache c) :=
  ⟨⟨h.files.size, nofun, h.files.page1, h.files.overlay, hc, h.files.hint⟩, h.journal, h.hint⟩

theorem Kept.setTxLock (h : Kept ps nonces s) (l : LockLevel) :
    Kept ps nonces (s.setTxLock l) :=
  ⟨h.files.congr rfl rfl rfl rfl fun _ _ hc => hc, h.journal, h.hint⟩

/-- A new `-wal` file, still empty or with its header only. -/
theorem Kept.newWal (h : Kept ps nonces s) (hps : validPageSize ps) (hw : s.disk.wal = none) (salts : UInt32 × UInt32)
    {wal : Bytes} (hwal : wal = [] ∨ wal = walOf (freshHeader ps salts) []) (shm : Option UInt32) :
    Kept ps nonces { s with disk.wal := some wal, disk.shm := shm } := by
  have hnone : s.pager.walPages = ∅ := by
    have hov : readWalPages s.disk.wal ps = .ok s.pager.walPages := h.files.overlay
    rw [hw] at hov
    exact (Except.ok.inj hov).symm
  have hov : readWalPages (some wal) ps = .ok ∅ := by
    obtain rfl | rfl := hwal
    · rfl
    · have hp : WalHeader.parse (walOf (freshHeader ps salts) []) = .ok (freshHeader ps salts) :=
        parse_walOf true ps salts.1 (salts.2 ^^^ 0x5A5A5A5A) 1 [] hps
      have hr := readWalPages_ok hp
      rw [committedPages_eq, (@frames_walOf (freshHeader ps salts) [] (by simp)).1] at hr
      exact hr
  refine ⟨⟨h.files.size, nofun, h.files.page1, ?_, h.files.cached, fun x w hd hx => ?_⟩, h.journal, nofun⟩
  · exact hov.trans (by rw [← hnone]; rfl)
  · cases hx.symm.trans (h.hint hw)

theorem take_early {a b : List WalOp} (hb : ∀ op ∈ b, op.early = false) (h : ∀ op ∈ (a ++ b).take k, op.early = true) :
    (a ++ b).take k = a.take k := by
  rw [take_append] at h ⊢
  cases hrest : b.take (k - a.length) with
  | nil => exact append_nil _
  | cons op rest =>
    have hmem : op ∈ b.take (k - a.length) := by rw [hrest]; exact mem_cons_self
    have := h op (mem_append_right _ hmem)
    rw [hb op (mem_of_mem_take hmem)] at this
    cases this

theorem commitOps_late (count : UInt32) (writer : WalWriter) : ∀ op ∈ commitOps count writer s, op.early = false := by
  simp only [commitOps]
  split
  · split <;> simp [WalOp.early]
  · simp [WalOp.early]

theorem openExisting_notFound (h : Kept ps nonces s)
    (ho : WalWriter.openExisting s.disk.wal s.pager.pageSize s.pager.walResume = .error .notFound) :
    s.disk.wal = none := by
  have hsize : s.pager.pageSize = ps := h.files.size
  have hov : readWalPages s.disk.wal ps = .ok s.pager.walPages := h.files.overlay
  cases hw : s.disk.wal with
  | none => rfl
  | some wal =>
    rw [hw] at hov
    rw [hw, hsize] at ho
    obtain hl | ⟨hd, hp, hps, -⟩ := readWalPages_some hov
    · rw [openExisting_short hl] at ho
      cases ho
    · have hhint : ∀ x, s.pager.walResume = some x → HintOk hd wal x :=
        fun x hx => h.files.hint x wal hd hx hw hp
      rw [← hps, openExisting_ok _ hp hhint] at ho
      cases ho

/-- What the operations in front of the frames are: a read of page 1, and a
new file where there is none. -/
theorem walOps_early (h : Kept ps nonces s) (hearly : ∀ op ∈ (s.walOps salts).take k, op.early = true) :
    (s.walOps salts).take k = [WalOp.readPage1].take k ∨
      s.disk.wal = none ∧ (s.walOps salts).take k = (.readPage1 :: createOps (freshHeader ps salts)).take k := by
  obtain ⟨c, hc, hcok⟩ := readPage_cached h.cached 1
  unfold Conn.walOps at hearly ⊢
  rcases hr : s.readPage 1 with ⟨e | page1, s₁⟩
  · exact .inl rfl
  rw [hr] at hc
  simp only at hc
  subst hc
  simp only [hr] at hearly ⊢
  cases hcount : readBeU32 page1 pageCountOffset with
  | error e => exact .inl rfl
  | ok count =>
    simp only [hcount] at hearly ⊢
    cases ho : WalWriter.openExisting (s.setCache c).disk.wal (s.setCache c).pager.pageSize
        (s.setCache c).pager.walResume with
    | ok writer =>
      simp only [ho] at hearly ⊢
      exact .inl (take_early (a := [.readPage1]) (commitOps_late count writer) hearly)
    | error e =>
      cases e with
      | notFound =>
        have hsize : (s.setCache c).pager.pageSize = ps := h.files.size
        simp only [ho] at hearly ⊢
        rw [hsize] at hearly ⊢
        exact .inr ⟨openExisting_notFound h ho,
          take_early (a := .readPage1 :: createOps (freshHeader ps salts)) (commitOps_late count _) hearly⟩
      | _ => exact .inl rfl

/-- The files after the first operations of a flush that makes a new file. -/
theorem runWal_createOps {hd : WalHeader} (h : Kept ps nonces s) (hw : s.disk.wal = none)
    (hempty : Kept ps nonces { s with disk.wal := some [] })
    (hnew : ∀ shm, Kept ps nonces { s with disk.wal := some (writeAt [] hd.serialize 0), disk.shm := shm }) (k : Nat) :
    Kept ps nonces (runWal ((createOps hd).take k) s) := by
  match k with
  | 0 => exact h
  | 1 =>
    simp only [createOps, take_succ_cons, take_zero, runWal, foldl_cons, foldl_nil,
      WalOp.apply, hw, Option.getD_none]
    exact hempty
  | 2 =>
    simp only [createOps, take_succ_cons, take_zero, runWal, foldl_cons, foldl_nil,
      WalOp.apply, hw, Option.getD_none, Option.getD_some]
    exact hnew s.disk.shm
  | 3 =>
    simp only [createOps, take_succ_cons, take_zero, runWal, foldl_cons, foldl_nil,
      WalOp.apply, hw, Option.getD_none, Option.getD_some]
    exact hnew (some 0)
  | k + 4 =>
    simp only [createOps, take_succ_cons, take_nil, runWal, foldl_cons, foldl_nil,
      WalOp.apply, hw, Option.getD_none, Option.getD_some]
    exact ⟨(hnew (some 0)).files.congr rfl rfl rfl (h.hint hw).symm fun _ _ hc => hc, (hnew none).journal, nofun⟩

theorem writeAt_empty (data : Bytes) : writeAt [] data 0 = data := by
  simp [writeAt]

theorem walOf_nil (hd : WalHeader) : walOf hd [] = hd.serialize := append_nil _

theorem Kept.failsWal (h : Kept ps nonces s) (hps : validPageSize ps) (hm : s.pager.journalMode = .wal)
    (hearly : ∀ op ∈ (s.walOps salts).take k, op.early = true) : Kept ps nonces (s.flushFails nonce salts k) := by
  obtain ⟨c, hc, hcok⟩ := readPage_cached h.cached 1
  have h1 := h.setCache hcok
  simp only [Conn.flushFails, hm]
  refine Kept.setTxLock ?_ _
  obtain hops | ⟨hw, hops⟩ := walOps_early h hearly
  · rw [hops]
    cases k with
    | zero => exact h
    | succ k =>
      rw [take_succ_cons, take_nil]
      show Kept ps nonces (s.readPage 1).2
      rw [hc]
      exact h1
  · rw [hops]
    cases k with
    | zero => exact h
    | succ k =>
      rw [take_succ_cons]
      show Kept ps nonces (runWal _ (s.readPage 1).2)
      rw [hc]
      have hser : writeAt [] (freshHeader ps salts).serialize 0 = walOf (freshHeader ps salts) [] := by
        rw [writeAt_empty, walOf_nil]
      exact runWal_createOps h1 hw (h1.newWal hps hw salts (.inl rfl) s.disk.shm)
        (h1.newWal hps hw salts (.inr hser)) k

theorem readPage_setCache (s : Conn) (p : UInt32) : ∃ c, (s.readPage p).2 = s.setCache c := by
  unfold Conn.readPage
  split
  · exact ⟨_, rfl⟩
  split
  · exact ⟨_, rfl⟩
  unfold Conn.readCached
  split
  · exact ⟨_, rfl⟩
  · simp only
    split <;> exact ⟨_, rfl⟩

/-- Early operations leave the main file, the journal and the overlay alone. -/
theorem runWal_early {ops : List WalOp} (h : ∀ op ∈ ops, op.early = true) (s : Conn) :
    (runWal ops s).disk.main = s.disk.main ∧ (runWal ops s).disk.journal = s.disk.journal ∧
      (runWal ops s).pager.walPages = s.pager.walPages ∧ (runWal ops s).pager.pageSize = s.pager.pageSize ∧
      (runWal ops s).pager.journalMode = s.pager.journalMode := by
  induction ops generalizing s with
  | nil => exact ⟨rfl, rfl, rfl, rfl, rfl⟩
  | cons op ops ih =>
    have hrest := ih (fun o ho => h o (mem_cons_of_mem _ ho)) (op.apply s)
    have hop := h op mem_cons_self
    have hcons : runWal (op :: ops) s = runWal ops (op.apply s) := rfl
    rw [hcons]
    cases op with
    | readPage1 =>
      obtain ⟨c, hc⟩ := readPage_setCache s 1
      simp only [WalOp.apply, hc] at hrest ⊢
      exact hrest
    | createWal => exact hrest
    | writeHeader hd => exact hrest
    | createShm => exact hrest
    | openShm => exact hrest
    | _ => cases hop

/-! ## A flush that goes through -/

/-- A flush to the main file, over the journal of a failed one or none. -/
theorem Kept.flushLegacy (h : Kept ps nonces s) (hps : 0 < ps.toNat) (hf : FlushSound ps s)
    (hm : s.pager.journalMode = .legacy)
    (hhot : (∃ j, s.disk.journal = some j ∧ journalIsHot j = true) →
      ∀ count, headerPageCount s.disk.main ps = .ok count → toJournal count s.pager.dirty ≠ [])
    (nonce : UInt32) :
    Kept ps (nonce :: nonces) (s.flushLegacy nonce).2 ∧
      ((s.flushLegacy nonce).1 = .ok () → (s.flushLegacy nonce).2.pager.dirty = ∅) ∧
      ((s.flushLegacy nonce).1.isOk = false →
        ∀ p, (s.flushLegacy nonce).2.readCommitted p = s.readCommitted p) := by
  have hmono : ∀ j, s.disk.journal = some j → JournalKept ps (nonce :: nonces) s.disk.main j :=
    fun j hj => (h.journal j hj).mono fun n hn => mem_cons_of_mem _ hn
  have hsize : s.pager.pageSize = ps := h.files.size
  obtain ⟨e, heq⟩ | ⟨e, heq⟩ | ⟨count, j, hc, hj, heq⟩ := Conn.flushLegacy_cases hsize hf hm nonce
  · rw [heq]
    exact ⟨⟨h.files, hmono, h.hint⟩, nofun, fun _ _ => rfl⟩
  · rw [heq]
    refine ⟨⟨h.files, fun j' hj' => ?_, h.hint⟩, nofun, fun _ _ => rfl⟩
    cases hj'
    cases hjo : s.disk.journal with
    | none => exact ⟨olderRecords_nil, nofun⟩
    | some j => exact hmono j hjo
  · rw [heq]
    refine ⟨⟨?_, fun j' hj' => ?_, h.hint⟩, fun _ => rfl, nofun⟩
    · have hw := h.files.writePages (d := ⟨Vfs.writePages s.disk.main ps s.pager.dirty.toList, none,
        s.disk.wal, s.disk.shm, s.disk.walIndex⟩) hps (fun w hw => ⟨(hf.pages w hw).1, (hf.pages w hw).2.1⟩)
        (fun w hw => (hf.pages w hw).2.2) rfl rfl nofun
      exact hw.congr rfl rfl rfl rfl fun _ _ hc => hc
    · obtain rfl | ⟨rfl, hto⟩ := hj
      · cases hj'
      · -- nothing was journaled, so the journal that is still there is cold
        refine ⟨(hmono j' hj').older, fun hot => ?_⟩
        exact absurd hto (hhot ⟨j', hj', hot⟩ count hc)

theorem flushLegacy_mode (nonce : UInt32) :
    (s.flushLegacy nonce).2.pager.journalMode = s.pager.journalMode := by
  simp only [Conn.flushLegacy]
  split <;> rfl

theorem Kept.mono (h : Kept ps nonces s) (hsub : ∀ n ∈ nonces, n ∈ nonces') :
    Kept ps nonces' s := ⟨h.files, fun j hj => (h.journal j hj).mono hsub, h.hint⟩

theorem Kept.unchanged {t : Conn} (h : Kept ps nonces s) (hu : Unchanged s t) : Kept ps nonces t := by
  refine ⟨⟨hu.size.trans h.files.size, nofun, ?_, ?_, hu.cached, ?_⟩, ?_, ?_⟩
  · simp only [Conn.dropJournal, hu.disk]; exact h.files.page1
  · simp only [Conn.dropJournal, hu.disk, hu.pages]; exact h.files.overlay
  · simp only [Conn.dropJournal, hu.disk, hu.resume]; exact h.files.hint
  · rw [hu.disk]; exact h.journal
  · rw [hu.disk, hu.resume]; exact h.hint

theorem Unchanged.readCommitted {t : Conn} (hu : Unchanged s t) (p : UInt32) :
    t.readCommitted p = s.readCommitted p := by
  simp only [Conn.readCommitted, hu.disk, hu.pages, hu.size]

theorem Kept.flushWal (h : Kept ps nonces s) (hcold : ∀ j, s.disk.journal = some j → journalIsHot j = false)
    (hps : validPageSize ps) (hf : FlushSound ps s) (hm : s.pager.journalMode = .wal) (hne : s.pager.dirty.toList ≠ [])
    (salts : UInt32 × UInt32) :
    Kept ps nonces (s.flushWalLocked salts).2 ∧
      (s.flushWalLocked salts).2.disk.journal = s.disk.journal ∧
      (s.flushWalLocked salts).2.pager.journalMode = s.pager.journalMode ∧
      ((s.flushWalLocked salts).1 = .ok () → (s.flushWalLocked salts).2.pager.dirty = ∅) ∧
      ((s.flushWalLocked salts).1.isOk = false →
        ∀ p, (s.flushWalLocked salts).2.readCommitted p = s.readCommitted p) := by
  have hsync := h.synced hcold
  obtain ⟨hall, hclean⟩ := hsync.flushWal hps hf hm hne salts
  obtain ⟨e, c, hr, hcok⟩ | ⟨t, wal, hd, page1, count, hr, -, -, hc⟩ :=
    flushWalLocked_cases hsync hps (hf.wal hm).1 hne salts
  · rw [hr] at hall hclean ⊢
    exact ⟨h.setCache hcok, rfl, rfl, hclean, fun _ _ => rfl⟩
  · rw [hr] at hall hclean ⊢
    obtain ⟨c, l, hpager, -⟩ := hc.pager
    refine ⟨⟨hall.dropJournal, fun j hj => ?_, fun hw => ?_⟩, hc.journal, by rw [hpager], hclean, nofun⟩
    · rw [hc.main]
      exact h.journal j (hc.journal ▸ hj)
    · rw [hc.written] at hw
      cases hw

/-! ## Whole runs -/

/-- The files hold the committed state, which is `content`; only a
connection to the main file leaves a hot journal. -/
structure FaultInv (ps : UInt32) (t : FaultRun) : Prop where
  kept : Kept ps t.nonces t.conn
  cold : t.conn.pager.journalMode = .wal → ∀ j, t.conn.disk.journal = some j → journalIsHot j = false
  content : ∀ p, t.conn.readCommitted p = t.content p

theorem FaultInv.open (h : (faulty ps).init t) : FaultInv ps t := by
  obtain ⟨⟨disk, hopen⟩, hcontent, hold⟩ := h
  obtain ⟨hs, hd⟩ := Synced.open hopen
  refine ⟨⟨hs.dropJournal, fun j hj => ⟨hold j hj, fun hot => ?_⟩, fun _ => ?_⟩, fun _ => hs.cold, fun p => ?_⟩
  · rw [hs.cold j hj] at hot
    cases hot
  · exact (open_fresh hopen).1
  · rw [hcontent]
    exact (readPage_clean hs.cached hd p).symm

/-- What a call that leaves the committed state alone keeps. -/
theorem FaultInv.unchanged {conn : Conn} (h : FaultInv ps t) (hu : Unchanged t.conn conn) :
    FaultInv ps { t with conn := conn } := by
  refine ⟨h.kept.unchanged hu, fun hm => ?_, fun p => (hu.readCommitted p).trans (h.content p)⟩
  rw [hu.disk]
  exact h.cold (hu.mode ▸ hm)

theorem FaultInv.flush (h : FaultInv ps t) (hps : validPageSize ps) (hc : FailsEarly ps t (.call (.flush nonce salts))) :
    FaultInv ps (t.next (.call (.flush nonce salts))) := by
  have hmono : ∀ n ∈ t.nonces, n ∈ nonce :: t.nonces := fun n hn => mem_cons_of_mem _ hn
  -- it is enough to say what is dirty, or committed, after it
  suffices hall : Kept ps (nonce :: t.nonces) (t.conn.flush nonce salts).2 ∧
      ((t.conn.flush nonce salts).2.pager.journalMode = .wal →
        ∀ j, (t.conn.flush nonce salts).2.disk.journal = some j → journalIsHot j = false) ∧
      ((t.conn.flush nonce salts).1 = .ok () → (t.conn.flush nonce salts).2.pager.dirty = ∅) ∧
      ((t.conn.flush nonce salts).1.isOk = false →
        ∀ p, (t.conn.flush nonce salts).2.readCommitted p = t.conn.readCommitted p) by
    obtain ⟨hk, hcold, hclean, hfail⟩ := hall
    refine ⟨hk, hcold, fun p => ?_⟩
    simp only [FaultRun.next, Conn.run, PagerOp.isFlush, Bool.true_and]
    cases hr : (t.conn.flush nonce salts).1 with
    | ok u => exact (readPage_clean hk.cached (hclean hr) p).symm
    | error e => exact (hfail (by rw [hr]; rfl) p).trans (h.content p)
  unfold Conn.flush
  split
  · rename_i he
    exact ⟨(h.kept.mono hmono).setTxLock _, h.cold, fun _ => ExtTreeMap.isEmpty_iff.1 he, nofun⟩
  · rename_i he
    obtain ⟨hf, hhot⟩ := hc.resolve_left he
    split
    · rename_i hm
      have hne : t.conn.pager.dirty.toList ≠ [] := by
        intro hnil
        exact he (by rw [← ExtTreeMap.isEmpty_toList, hnil]; rfl)
      obtain ⟨hk, hj, -, hclean, hfail⟩ := h.kept.flushWal (h.cold hm) hps hf hm hne salts
      refine ⟨(hk.mono hmono).setTxLock _, fun _ j hjo => ?_, hclean, hfail⟩
      exact h.cold hm j (hj ▸ hjo)
    · rename_i hm
      obtain ⟨hk, hclean, hfail⟩ := h.kept.flushLegacy hps.pos hf hm (hhot hm) nonce
      refine ⟨hk.setTxLock _, fun hw => ?_, hclean, hfail⟩
      rw [show ((t.conn.flushLegacy nonce).2.setTxLock .shared).pager.journalMode = .legacy from
        (flushLegacy_mode nonce).trans hm] at hw
      cases hw

theorem FaultInv.flushFails (h : FaultInv ps t) (hps : validPageSize ps)
    (hc : FailsEarly ps t (.flushFails nonce salts k)) : FaultInv ps (t.next (.flushFails nonce salts k)) := by
  simp only [FailsEarly] at hc
  cases hm : t.conn.pager.journalMode with
  | wal =>
    rw [hm] at hc
    obtain ⟨hmain, hj, hpages, hsize, -⟩ := runWal_early hc t.conn
    refine ⟨(h.kept.failsWal hps hm hc).mono fun n hn => mem_cons_of_mem _ hn, fun _ j hjo => ?_,
      fun p => ?_⟩
    · simp only [FaultRun.next, Conn.flushFails, hm, Conn.setTxLock, hj] at hjo
      exact h.cold hm j hjo
    · refine Eq.trans ?_ (h.content p)
      simp only [FaultRun.next, Conn.flushFails, hm, Conn.setTxLock, Conn.readCommitted, hmain, hpages, hsize]
  | legacy =>
    rw [hm] at hc
    obtain ⟨hk, hread⟩ := h.kept.failsLegacy salts hm hc
    refine ⟨hk, fun hw => ?_, fun p => (hread p).trans (h.content p)⟩
    simp only [FaultRun.next, Conn.flushFails, hm, Conn.setTxLock] at hw
    cases hw

theorem faulty_inductive (hps : validPageSize ps) :
    ((faulty ps).restrict (FailsEarly ps)).Inductive (FaultInv ps) where
  init t ht := .open ht
  step t l t' h hs := by
    obtain ⟨⟨hallow, rfl⟩, hc⟩ := hs
    cases l with
    | flushFails nonce salts k => exact h.flushFails hps hc
    | call op =>
      by_cases he : op.isEdit = true
      · have hu := h.unchanged (run_unchanged h.kept.cached he)
        cases op with
        | setSynchronous mode => cases he
        | flush nonce salts => cases he
        | setJournalMode mode salts => cases he
        | _ => exact hu
      · cases op with
        | setSynchronous mode =>
          exact ⟨⟨h.kept.files.congr rfl rfl rfl rfl fun _ _ hc => hc, h.kept.journal, h.kept.hint⟩, h.cold,
            h.content⟩
        | flush nonce salts => exact h.flush hps hc
        | setJournalMode mode salts => cases hallow
        | _ => exact absurd rfl he

/-- **A rollback after a failed flush.** In every run of one connection, in
either journal mode, in which single file operations of a flush may fail,
and whose steps meet `FailsEarly`: after a rollback every page reads as it
did after the last flush that returned `Ok`, on this connection and on one
opened on the files it leaves. -/
theorem rollback_restores (ps : UInt32) (hps : validPageSize ps) (t : FaultRun)
    (hreach : ((faulty ps).restrict (FailsEarly ps)).Reachable t) :
    (∀ p, (t.conn.rollback.readPage p).1 = t.content p) ∧
      ∀ fresh, Pager.open t.conn.rollback.disk ps = .ok fresh → ∀ p, (fresh.readPage p).1 = t.content p := by
  have hi := (faulty_inductive hps).reachable t hreach
  have hback := hi.unchanged (run_unchanged hi.kept.cached (rfl : PagerOp.rollback.isEdit = true))
  constructor
  · intro p
    exact (readPage_clean (s := t.conn.rollback) hback.kept.cached rfl p).trans (hback.content p)
  · intro fresh hopen p
    exact (hback.kept.reopen hps.pos hopen p).trans (hback.content p)

/-! ## A flush that fails behind its first write

The one-page database of the crash model. -/

def onePageConn : Conn :=
  ⟨⟨onePage 7, none, none, none, true⟩,
    ⟨.shared, none, ∅, ∅, .new defaultPageCacheCapacity, 512, .legacy, .full⟩⟩

theorem open_onePageConn : Pager.open ⟨onePage 7, none, none, none, true⟩ 512 = .ok onePageConn := by
  have h1 : readMain (onePage 7) 512 1 = .ok (onePage 7) := by decide +kernel
  have hm : journalModeFromPage1 (onePage 7) = .legacy := by decide +kernel
  simp only [Pager.open, openOps, Disk.files, runOps_nil, Disk.setFiles, readWalPages, h1, hm]
  rfl

/-- The connection has changed page 1. -/
def faultEdited : FaultRun :=
  FaultRun.next ⟨onePageConn, [], fun p => (onePageConn.readPage p).1⟩ (.call (.editPage 1 (onePage 9)))

/-- The flush fails behind its first `k` operations. -/
def faultAt (k : Nat) : FaultRun := faultEdited.next (.flushFails 5 (0, 0) k)

theorem faultAt_reachable {P : FaultRun → FaultOp → Prop} (hedit : ∀ t p b, P t (.call (.editPage p b)))
    (hfail : P faultEdited (.flushFails 5 (0, 0) k)) (hcan : faultEdited.conn.canFail 5 (0, 0) k = true) :
    ((faulty 512).restrict P).Reachable (faultAt k) := by
  have hstart : ((faulty 512).restrict P).Reachable ⟨onePageConn, [], fun p => (onePageConn.readPage p).1⟩ :=
    ⟨_, [], ⟨⟨_, open_onePageConn⟩, rfl, fun j hj => by cases hj⟩, .nil _⟩
  have hedited : ((faulty 512).restrict P).Reachable faultEdited :=
    hstart.step (l := .call (.editPage 1 (onePage 9))) ⟨⟨rfl, rfl⟩, hedit _ _ _⟩
  exact hedited.step (l := .flushFails 5 (0, 0) k) ⟨⟨hcan, rfl⟩, hfail⟩

/-- **Counterexample**: the sync of the main file fails, and after the
rollback the connection reads the page of the transaction that it has
rolled back. -/
theorem half_committed :
    (faulty 512).Reachable (faultAt 5) ∧ (faultAt 5).content 1 = .ok (onePage 7) ∧
      ((faultAt 5).conn.rollback.readPage 1).1 = .ok (onePage 9) := by
  refine ⟨?_, by decide +kernel, by decide +kernel⟩
  exact (faultAt_reachable (P := fun _ _ => True) (fun _ _ _ => trivial) trivial (by decide +kernel)).of_restrict

/-- The write of the page fails. -/
theorem journal_undone :
    (∀ p, ((faultAt 4).conn.rollback.readPage p).1 = (faultAt 4).content p) ∧
      ∀ fresh, Pager.open (faultAt 4).conn.rollback.disk 512 = .ok fresh →
        ∀ p, (fresh.readPage p).1 = (faultAt 4).content p := by
  refine rollback_restores 512 (by decide) _ (faultAt_reachable (fun _ _ _ => trivial) ?_ (by decide +kernel))
  have hcount : headerPageCount (onePage 7) 512 = .ok 1 ∧ (onePage 7).length = (1 : UInt32).toNat * 512 := by
    decide +kernel
  have hearly : (flushLocked 512 .full 5 (onePage 7) faultEdited.conn.pager.dirty).error = none ∧
      ∀ op ∈ (flushLocked 512 .full 5 (onePage 7) faultEdited.conn.pager.dirty).ops.take 4, op.early = true := by
    decide +kernel
  have hu : Unchanged onePageConn faultEdited.conn := by
    rw [faultEdited, FaultRun.next_call]
    exact run_unchanged (Synced.open open_onePageConn).1.cached rfl
  have hmode : faultEdited.conn.pager.journalMode = .legacy := hu.mode
  have hlevel : faultEdited.conn.pager.synchronous = .full := hu.level
  have hdisk : faultEdited.conn.disk.main = onePage 7 := congrArg Disk.main hu.disk
  simp only [FailsEarly, hmode, hlevel, hdisk]
  exact .inr ⟨⟨1, hcount.1, hcount.2⟩, not_mem_nil, hearly⟩

end DbStorage.Pager
