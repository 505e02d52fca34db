import DbStorage.Pager.Connection

/-!
# What a fresh open reads after a commit

The system `sessions` is one connection, opened on any files, that reads,
edits, allocates and frees pages, commits, rolls back and switches the
journal mode in any order. `Synced` says that the files hold all the
connection has committed: its overlay is the one a fresh open would read,
and its cache holds pages of the main file.

Results: `reopen_reads` (a fresh open of synced files reads what the
connection reads) and `flush_reopens`: in every run whose steps meet
`Reopens`, after a flush that returns `Ok` a fresh open succeeds and reads
every page as the connection does. `normal_commit_lost` shows a WAL commit
at `synchronous = Normal` that is in no file: the writer buffers its frames
and only `Full` writes them.
-/
namespace DbStorage.Pager
open Bytes Vfs Wal Std

variable {ps : UInt32} {s : Conn}

/-- The files hold what the connection has committed. -/
structure Synced (ps : UInt32) (s : Conn) : Prop where
  size : s.pager.pageSize = ps
  cold : ∀ j, s.disk.journal = some j → journalIsHot j = false
  page1 : ∃ c, readMain s.disk.main ps 1 = .ok c
  overlay : readWalPages s.disk.wal ps = .ok s.pager.walPages
  cached : CacheOk s
  hint : ∀ x wal h, s.pager.walResume = some x → s.disk.wal = some wal →
    WalHeader.parse wal = .ok h → HintOk h wal x

/-! ## Opening -/

theorem openOps_cold {f : Files} (h : ∀ j, f.journal = some j → journalIsHot j = false) :
    openOps f = .ok [] := by
  unfold openOps
  split
  · rfl
  · rename_i j hj
    rw [h j hj]
    rfl

/-- After an open there is no hot journal. -/
theorem openOps_journal {f : Files} {ops : List FileOp} (h : openOps f = .ok ops) (j : Bytes)
    (hj : (runOps ops f).journal = some j) : journalIsHot j = false := by
  unfold openOps at h
  split at h
  · rename_i hn
    cases h
    rw [runOps_nil, hn] at hj
    cases hj
  · rename_i j₀ hj₀
    split at h
    · unfold recoverHotJournal at h
      split at h
      · cases h
      · cases h
        rw [runOps_append] at hj
        cases hj
    · rename_i hcold
      cases h
      rw [runOps_nil, hj₀] at hj
      cases hj
      exact Bool.not_eq_true _ ▸ hcold

theorem Synced.open {disk : Disk} (h : Pager.open disk ps = .ok s) :
    Synced ps s ∧ s.pager.dirty = ∅ := by
  unfold Pager.open at h
  split at h
  · cases h
  · rename_i ops hops
    simp only at h
    split at h
    · cases h
    · rename_i walPages hwal
      split at h
      · cases h
      · rename_i page1 h1
        cases h
        refine ⟨⟨rfl, openOps_journal hops, ⟨page1, h1⟩, hwal, ?_, by simp⟩, rfl⟩
        intro p c hc
        rw [PageCache.content_new] at hc
        cases hc

theorem open_fresh {disk : Disk} (h : Pager.open disk ps = .ok s) :
    s.pager.walResume = none ∧ s.pager.pageCache = .new defaultPageCacheCapacity := by
  unfold Pager.open at h
  split at h
  · cases h
  · simp only at h
    split at h
    · cases h
    · split at h
      · cases h
      · cases h
        exact ⟨rfl, rfl⟩

/-- A fresh open of synced files reads what a connection without dirty pages
reads. -/
theorem reopen_reads (h : Synced ps s) (hd : s.pager.dirty = ∅) :
    ∃ fresh, Pager.open s.disk ps = .ok fresh ∧ ∀ p, (fresh.readPage p).1 = (s.readPage p).1 := by
  obtain ⟨page1, h1⟩ := h.page1
  have hfiles : s.disk.setFiles s.disk.files = s.disk := rfl
  have hopen : ∃ fresh, Pager.open s.disk ps = .ok fresh ∧ fresh.disk = s.disk ∧
      fresh.pager.walPages = s.pager.walPages := by
    unfold Pager.open
    rw [openOps_cold h.cold]
    simp only [runOps_nil, hfiles, h.overlay, h1]
    exact ⟨_, rfl, rfl, rfl⟩
  obtain ⟨fresh, hopen, hdisk, hpages⟩ := hopen
  obtain ⟨hs, hd'⟩ := Synced.open hopen
  refine ⟨fresh, hopen, fun p => ?_⟩
  rw [readPage_eq hs.cached, readPage_eq h.cached, hd, hd']
  simp only [ExtTreeMap.getElem?_empty, Conn.readCommitted, hpages, hdisk, hs.size, h.size]

/-! ## Reading and editing -/

variable {t : Conn} {wal : Bytes} {hd : WalHeader} {d : Disk} {op : PagerOp}

/-- Dirty pages, the transaction's lock and the synchronous level are no part
of it. -/
theorem Synced.congr (h : Synced ps s) (hdisk : t.disk = s.disk) (hsize : t.pager.pageSize = s.pager.pageSize)
    (hpages : t.pager.walPages = s.pager.walPages) (hresume : t.pager.walResume = s.pager.walResume)
    (hcache : t.pager.pageCache.Sub s.pager.pageCache) : Synced ps t where
  size := hsize.trans h.size
  cold := by rw [hdisk]; exact h.cold
  page1 := by rw [hdisk]; exact h.page1
  overlay := by rw [hdisk, hpages]; exact h.overlay
  cached p c hc := by rw [hpages, hdisk, hsize]; exact h.cached p c (hcache p c hc)
  hint := by rw [hresume, hdisk]; exact h.hint

/-- `t` differs from `s` in its dirty pages, its cache and its lock only, and
its cache is right. -/
structure Unchanged (s t : Conn) : Prop where
  disk : t.disk = s.disk
  size : t.pager.pageSize = s.pager.pageSize
  pages : t.pager.walPages = s.pager.walPages
  resume : t.pager.walResume = s.pager.walResume
  mode : t.pager.journalMode = s.pager.journalMode
  level : t.pager.synchronous = s.pager.synchronous
  cached : CacheOk t

theorem Unchanged.refl (h : CacheOk s) : Unchanged s s := ⟨rfl, rfl, rfl, rfl, rfl, rfl, h⟩

theorem Unchanged.setCache {c : PageCache} (h : Unchanged s t) (hc : CacheOk (t.setCache c)) :
    Unchanged s (t.setCache c) := ⟨h.disk, h.size, h.pages, h.resume, h.mode, h.level, hc⟩

theorem Unchanged.readPage (h : Unchanged s t) (p : UInt32) : Unchanged s (t.readPage p).2 := by
  obtain ⟨c, hc, hok⟩ := readPage_cached h.cached p
  rw [hc]
  exact h.setCache hok

theorem Unchanged.setDirty (h : Unchanged s t) (p : UInt32) (bytes : Bytes) :
    Unchanged s (t.setDirty p bytes) := ⟨h.disk, h.size, h.pages, h.resume, h.mode, h.level, h.cached⟩

theorem Unchanged.setTxLock (h : Unchanged s t) (l : LockLevel) :
    Unchanged s (t.setTxLock l) := ⟨h.disk, h.size, h.pages, h.resume, h.mode, h.level, h.cached⟩

theorem Unchanged.getPageMut (h : Unchanged s t) (p : UInt32) : Unchanged s (t.getPageMut p).2 := by
  have hi := h.setCache (h.cached.sub (t.pager.pageCache.content_invalidate p).2)
  unfold Conn.getPageMut
  simp only
  split
  · exact hi
  · split
    · exact hi
    · exact hi.setDirty p _

theorem connOps_keeps (n : UInt32) : (connOps n).Keeps (Unchanged s) where
  readPage p _ h := h.readPage p
  getPageMut p _ h := h.getPageMut p
  putPage p b _ h := h.setDirty p b
  insertPage p b _ h := h.setDirty p b

theorem Synced.unchanged (h : Synced ps s) (hu : Unchanged s t) : Synced ps t where
  size := hu.size.trans h.size
  cold := by rw [hu.disk]; exact h.cold
  page1 := by rw [hu.disk]; exact h.page1
  overlay := by rw [hu.disk, hu.pages]; exact h.overlay
  cached := hu.cached
  hint := by rw [hu.resume, hu.disk]; exact h.hint

/-! ## Committing to the main file -/

/-- Page writes change no cached page, and page 1 stays readable. -/
theorem Synced.writePages {pages : List (UInt32 × Bytes)} {d : Disk} (h : Synced ps s)
    (hps : 0 < ps.toNat) (hw : ∀ w ∈ pages, w.1 ≠ 0 ∧ w.2.length = ps.toNat)
    (hfree : ∀ w ∈ pages, s.pager.pageCache.content w.1 = none)
    (hmain : d.main = Vfs.writePages s.disk.main ps pages) (hwal : d.wal = s.disk.wal)
    (hcold : ∀ j, d.journal = some j → journalIsHot j = false) :
    Synced ps { s with disk := d } := by
  have hpw := fun p => readPage_writePages s.disk.main p hps hw
  refine ⟨h.size, hcold, ?_, hwal ▸ h.overlay, fun p c hc => ⟨(h.cached p c hc).1, ?_⟩, hwal ▸ h.hint⟩
  · obtain ⟨c, hc⟩ := h.page1
    have := hpw 1
    simp only [hmain, readMain_ok]
    split at this
    · exact ⟨_, this⟩
    · exact ⟨c, this c (readMain_ok.1 hc)⟩
  · have hnone : lastWrite pages p = none := by
      rw [lastWrite_eq_none]
      rintro w hmem rfl
      rw [hfree w hmem] at hc
      cases hc
    have := hpw p
    rw [hnone] at this
    have hread := (h.cached p c hc).2
    rw [h.size] at hread ⊢
    simp only [hmain]
    exact readMain_ok.2 (this c (readMain_ok.1 hread))

/-- What a flush needs for the commit to be in the files: the dirty pages are
pages of the database that are no longer cached; a flush to the main file
finds the pages it journals; a flush to the WAL is synced, writes a commit
frame, and appends to a file without a tail that it would revive. -/
structure FlushSound (ps : UInt32) (s : Conn) : Prop where
  pages : ∀ w ∈ s.pager.dirty.toList,
    w.1 ≠ 0 ∧ w.2.length = ps.toNat ∧ s.pager.pageCache.content w.1 = none
  legacy : s.pager.journalMode = .legacy → ∀ count, headerPageCount s.disk.main ps = .ok count →
    ∀ p ∈ toJournal count s.pager.dirty, ∃ c, Vfs.readPage s.disk.main ps p = .ok c
  wal : s.pager.journalMode = .wal → s.pager.synchronous = .full ∧
    ∀ page1 count, (s.readPage 1).1 = .ok page1 → readBeU32 page1 pageCountOffset = .ok count →
      count ≠ 0 ∧ ∀ wal h, s.disk.wal = some wal → WalHeader.parse wal = .ok h →
        ResumesClean h wal (commitFrames count s.pager.dirty.toList)

/-- The outcomes of a commit with the rollback journal: the header cannot be
read, the journal's header cannot be written, or all dirty pages are written. -/
theorem Conn.flushLegacy_cases (hsize : s.pager.pageSize = ps) (hf : FlushSound ps s)
    (hm : s.pager.journalMode = .legacy) (nonce : UInt32) :
    (∃ e, s.flushLegacy nonce = (.error e, s)) ∨
      (∃ e, s.flushLegacy nonce = (.error e, { s with disk.journal := some (s.disk.journal.getD []) })) ∨
      ∃ count j, headerPageCount s.disk.main ps = .ok count ∧
        (j = none ∨ j = s.disk.journal ∧ toJournal count s.pager.dirty = []) ∧
        s.flushLegacy nonce = (.ok (), { s with
          disk := { s.disk with main := Vfs.writePages s.disk.main ps s.pager.dirty.toList, journal := j }
          pager.dirty := ∅ }) := by
  simp only [Conn.flushLegacy, hsize]
  cases hc : headerPageCount s.disk.main ps with
  | error e =>
    simp only [flushLocked, hc]
    exact .inl ⟨e, rfl⟩
  | ok count =>
    obtain ⟨herr, j, hrun, hj⟩ | ⟨herr, hrun⟩ := @runOps_flushLocked ps count nonce s.pager.synchronous
      s.pager.dirty s.disk.files hc (fun w hw => ⟨(hf.pages w hw).1, (hf.pages w hw).2.1⟩) (hf.legacy hm count hc)
    · simp only [Disk.files] at herr hrun
      simp only [Disk.files, herr, hrun]
      exact .inr (.inr ⟨count, j, rfl, hj, rfl⟩)
    · simp only [Disk.files] at herr hrun
      obtain ⟨e, he⟩ := Option.ne_none_iff_exists'.1 herr
      simp only [Disk.files, he, hrun]
      exact .inr (.inl ⟨e, rfl⟩)

theorem Synced.flushLegacy (h : Synced ps s) (hps : 0 < ps.toNat) (hf : FlushSound ps s)
    (hm : s.pager.journalMode = .legacy) (nonce : UInt32) :
    Synced ps (s.flushLegacy nonce).2 ∧
      ((s.flushLegacy nonce).1 = .ok () → (s.flushLegacy nonce).2.pager.dirty = ∅) := by
  obtain ⟨e, heq⟩ | ⟨e, heq⟩ | ⟨count, j, hc, hj, heq⟩ := Conn.flushLegacy_cases h.size hf hm nonce
  · rw [heq]
    exact ⟨h, nofun⟩
  · rw [heq]
    refine ⟨⟨h.size, fun j hj => ?_, h.page1, h.overlay, h.cached, h.hint⟩, nofun⟩
    cases hj
    cases hjo : s.disk.journal with
    | none => rfl
    | some j => exact h.cold j hjo
  · rw [heq]
    refine ⟨?_, fun _ => rfl⟩
    have hw := h.writePages (d := { s.disk with
        main := Vfs.writePages s.disk.main ps s.pager.dirty.toList, journal := j }) hps
      (fun w hw => ⟨(hf.pages w hw).1, (hf.pages w hw).2.1⟩) (fun w hw => (hf.pages w hw).2.2) rfl rfl fun j' hj' => ?_
    · exact hw.congr rfl rfl rfl rfl fun _ _ hc => hc
    · obtain rfl | ⟨rfl, -⟩ := hj
      · cases hj'
      · exact h.cold j' hj'

/-! ## Committing to the WAL -/

theorem writes_commitFrames (count : UInt32) (ws : List (UInt32 × Bytes)) :
    writes (commitFrames count ws) = ws := by
  fun_induction commitFrames count ws with
  | case1 => rfl
  | case2 w => rfl
  | case3 w ws _ ih => rw [writes, List.map_cons, ← writes, ih]

variable {ws : List (UInt32 × Bytes)} {count : UInt32} {r : CheckpointResult} {salts : UInt32 × UInt32}

theorem commitFrames_getLast (count : UInt32) (h : ws ≠ []) :
    ∃ f, (commitFrames count ws).getLast? = some f ∧ f.dbSize = count := by
  fun_induction commitFrames count ws with
  | case1 => exact absurd rfl h
  | case2 w => exact ⟨_, rfl, rfl⟩
  | case3 w ws hne ih =>
    have hws : ws ≠ [] := fun hnil => hne hnil
    obtain ⟨f, hf, hc⟩ := ih hws
    refine ⟨f, ?_, hc⟩
    rw [List.getLast?_cons, hf]
    rfl

theorem mem_commitFrames {f : Frame} (h : f ∈ commitFrames count ws) : (f.pageNumber, f.content) ∈ ws := by
  rw [← writes_commitFrames count ws]
  exact List.mem_map.2 ⟨f, h, rfl⟩

theorem parse_create (file : Option Bytes) (ps s1 s2 : UInt32) (hps : validPageSize ps) :
    WalHeader.parse (WalWriter.create file (WalHeader.new true ps s1 s2 1)).1 =
      .ok (WalHeader.new true ps s1 s2 1) := by
  rw [← parse_serialize true ps s1 s2 1 hps]
  have hl : (WalHeader.new true ps s1 s2 1).serialize.length = 32 := Wal.serialize_length _
  refine parse_congr ?_ (by omega) ?_
  · simp only [WalWriter.create, writeAt_length]; omega
  · simp only [WalWriter.create]
    rw [slice_writeAt_inside _ _ _ _ _ (Nat.le_refl _) (by omega)]

theorem readWalPages_some {m : PageMap} (h : readWalPages (some wal) ps = .ok m) :
    wal.length < headerLen ∨
      ∃ hd, WalHeader.parse wal = .ok hd ∧ hd.pageSize = ps ∧ (committedPages hd wal).1 = m := by
  unfold readWalPages at h
  simp only at h
  split at h
  · exact .inl ‹_›
  · right
    split at h
    · cases h
    · rename_i hd hp
      split at h
      · cases h
      · rename_i hsize
        cases h
        exact ⟨hd, hp, not_not.1 hsize, rfl⟩

theorem readWalPages_ok (hp : WalHeader.parse wal = .ok hd) :
    readWalPages (some wal) hd.pageSize = .ok (committedPages hd wal).1 := by
  have hl : ¬ wal.length < headerLen := Nat.not_lt.2 (parse_length hp)
  simp only [readWalPages, if_neg hl, hp, ne_eq, not_true, if_false]

/-- A file shorter than a header is not appended to. -/
theorem openExisting_short (hl : wal.length < headerLen) (x : Option WalResumeHint) :
    WalWriter.openExisting (some wal) ps x = .error (.headerTooShort wal.length) := by
  have hscan : WalWriter.openScan wal ps = .error (.headerTooShort wal.length) := by
    simp only [WalWriter.openScan, WalHeader.parse, if_pos hl, bind, Except.bind]
  have hre : rereadHeader wal = none := by
    rw [rereadHeader, if_neg (by rw [slice_length]; omega)]
  cases x with
  | none => exact hscan
  | some x => simp only [WalWriter.openExisting, hre, reduceCtorEq, and_false, if_false, hscan]

/-- The writer at the end of a file's chain. -/
def writerAt (h : WalHeader) (wal : Bytes) : WalWriter :=
  ⟨h, (lastValidFrameState h wal).2, (lastValidFrameState h wal).1, none, []⟩

theorem createWal_none (hw : d.wal = none) (h : WalHeader) :
    d.createWal h = ({ d with wal := some (walOf h []), shm := some 0 }, writerAt h (walOf h [])) := by
  have hf := @frames_walOf h [] (by simp)
  simp only [Disk.createWal, WalWriter.create, hw, Option.getD_none, writerAt, hf.2]
  simp [walOf, encodeFrames, writeAt, sumAfter]

/-- The writer of a commit stands at the end of the chain the overlay was read
from: of the file, or of a new one where there is none. -/
theorem openWriter_spec (h : Synced ps s) (hps : validPageSize ps) (salts : UInt32 × UInt32) :
    (∃ e, s.openWriter salts = (.error e, s)) ∨
      ∃ wal hd d r, s.openWriter salts = (.ok (writerAt hd wal), ⟨d, { s.pager with walResume := r }⟩) ∧
        d.main = s.disk.main ∧ d.journal = s.disk.journal ∧ d.wal = some wal ∧
        WalHeader.parse wal = .ok hd ∧ hd.pageSize = ps ∧
        (committedPages hd wal).1 = s.pager.walPages ∧
        (s.disk.wal = some wal ∨ s.disk.wal = none ∧ wal = walOf hd []) := by
  have hov := h.overlay
  unfold Conn.openWriter
  cases hw : s.disk.wal with
  | none =>
    right
    rw [hw] at hov
    have hf := @frames_walOf (freshHeader ps salts) [] (by simp)
    refine ⟨walOf (freshHeader ps salts) [], freshHeader ps salts,
      { s.disk with wal := some (walOf (freshHeader ps salts) []), shm := some 0 }, none, ?_, rfl, rfl, rfl,
      parse_walOf _ _ _ _ _ _ hps, rfl, ?_, .inr ⟨rfl, rfl⟩⟩
    · simp only [WalWriter.openExisting, h.size, createWal_none hw]
    · rw [committedPages_eq, hf.1]
      exact Except.ok.inj hov
  | some wal =>
    rw [hw] at hov
    rcases readWalPages_some hov with hl | ⟨hd, hp, hsize, hpages⟩
    · left
      rw [openExisting_short hl]
      exact ⟨_, rfl⟩
    · right
      refine ⟨wal, hd, s.disk, s.pager.walResume, ?_, rfl, rfl, hw, hp, hsize, hpages, .inl rfl⟩
      rw [h.size, ← hsize, openExisting_ok _ hp fun x hx => h.hint x wal hd hx hw hp]
      rfl

/-- A synced commit appends the dirty pages to the chain. -/
theorem commitWal_full {wal : Bytes} {hd : WalHeader} {count : UInt32} (hw : s.disk.wal = some wal)
    (hfull : s.pager.synchronous = .full) (hne : commitFrames count s.pager.dirty.toList ≠ []) :
    s.commitWal count (writerAt hd wal) =
      ⟨{ s.disk with wal := some (commitBytes hd wal (commitFrames count s.pager.dirty.toList)) },
        { s.pager with
          walResume := some (commitWriter hd wal (commitFrames count s.pager.dirty.toList)).resumeHint
          walPages := Pager.overlayDirty s.pager
          dirty := ∅ }⟩ := by
  have hsync := @sync_appendFrames _ (writerAt hd wal) wal rfl rfl hne
  simp only [Conn.commitWal, hfull, if_true, hw, Option.getD_some, hsync]
  rfl

/-- What a synced commit of `s` leaves: `t` has appended `txn` to the file, or
to a new one where there was none. -/
structure WalCommit (s t : Conn) (wal : Bytes) (hd : WalHeader) (txn : List Frame) : Prop where
  main : t.disk.main = s.disk.main
  journal : t.disk.journal = s.disk.journal
  written : t.disk.wal = some (commitBytes hd wal txn)
  source : s.disk.wal = some wal ∨ s.disk.wal = none ∧ wal = walOf hd []
  parse : WalHeader.parse wal = .ok hd
  size : hd.pageSize = s.pager.pageSize
  pages : (committedPages hd wal).1 = s.pager.walPages
  pager : ∃ c l, t.pager = { s.pager with
    txLockLevel := l
    pageCache := c
    walResume := some (commitWriter hd wal txn).resumeHint
    walPages := Pager.overlayDirty s.pager
    dirty := ∅ } ∧ CacheOk (s.setCache c) ∧
      ∀ q d, s.pager.dirty[q]? = some d → s.pager.pageCache.content q = none → c.content q = none

theorem WalCommit.setTxLock {txn : List Frame} (h : WalCommit s t wal hd txn) (l : LockLevel) :
    WalCommit s (t.setTxLock l) wal hd txn := by
  obtain ⟨c, l', hpager, hc⟩ := h.pager
  refine ⟨h.main, h.journal, h.written, h.source, h.parse, h.size, h.pages, c, l, ?_, hc⟩
  simp only [Conn.setTxLock, hpager]

theorem flushWalLocked_cases (h : Synced ps s) (hps : validPageSize ps)
    (hfull : s.pager.synchronous = .full) (hne : s.pager.dirty.toList ≠ []) (salts : UInt32 × UInt32) :
    (∃ e c, s.flushWalLocked salts = (.error e, s.setCache c) ∧ CacheOk (s.setCache c)) ∨
      ∃ t wal hd page1 count, s.flushWalLocked salts = (.ok (), t) ∧ (s.readPage 1).1 = .ok page1 ∧
        readBeU32 page1 pageCountOffset = .ok count ∧
        WalCommit s t wal hd (commitFrames count s.pager.dirty.toList) := by
  have h1 := h.unchanged ((Unchanged.refl h.cached).readPage 1)
  obtain ⟨c, hc, hcok⟩ := readPage_cached h.cached 1
  have hunc := fun q d hd hq => @readPage_uncached s q d hd hq 1
  unfold Conn.flushWalLocked
  rcases hr : s.readPage 1 with ⟨e | page1, s₁⟩ <;> rw [hr] at h1 hc hunc <;> simp only at hc hunc <;>
    subst hc
  · exact .inl ⟨e, c, rfl, hcok⟩
  · simp only
    cases hcount : readBeU32 page1 pageCountOffset with
    | error e => exact .inl ⟨_, c, rfl, hcok⟩
    | ok count =>
      rcases openWriter_spec h1 hps salts with ⟨e, he⟩ | ⟨wal, hd, d, r, ho, hmain, hj, hdw, hp, hsize,
        hpages, hfrom⟩
      · simp only [he]
        exact .inl ⟨e, c, rfl, hcok⟩
      · refine .inr ⟨Conn.commitWal count (writerAt hd wal) ⟨d, { (s.setCache c).pager with walResume := r }⟩,
          wal, hd, page1, count, by simp only [ho], rfl, hcount, ?_⟩
        have hne' : commitFrames count s.pager.dirty.toList ≠ [] := by
          obtain ⟨last, hlast, -⟩ := commitFrames_getLast count hne
          intro hnil; rw [hnil] at hlast; cases hlast
        rw [@commitWal_full ⟨d, { (s.setCache c).pager with walResume := r }⟩ wal hd count hdw hfull hne']
        exact ⟨hmain, hj, rfl, hfrom, hp, hsize.trans h.size.symm, hpages, c, _, rfl, hcok, hunc⟩

/-- After a sound commit the overlay is again the one a fresh open reads. -/
theorem WalCommit.synced (hc : WalCommit s t wal hd (commitFrames count s.pager.dirty.toList)) (h : Synced ps s)
    (hne : s.pager.dirty.toList ≠ []) (hcount : count ≠ 0)
    (hdirty : ∀ w ∈ s.pager.dirty.toList, w.2.length = ps.toNat ∧ s.pager.pageCache.content w.1 = none)
    (hclean : ResumesClean hd wal (commitFrames count s.pager.dirty.toList)) : Synced ps t := by
  obtain ⟨last, hlast, hdb⟩ := commitFrames_getLast count hne
  obtain ⟨c, l, hpager, hcok, hunc⟩ := hc.pager
  have hps : hd.pageSize = ps := hc.size.trans h.size
  have hlen : ∀ f ∈ commitFrames count s.pager.dirty.toList, f.content.length = hd.pageSize.toNat :=
    fun f hf => hps ▸ (hdirty _ (mem_commitFrames hf)).1
  have hp' := parse_commitBytes (commitFrames count s.pager.dirty.toList) hc.parse
  have hnew := (committedPages_commitBytes_iff hc.parse hlen hlast (hdb ▸ hcount)).2 hclean
  refine ⟨by rw [hpager]; exact h.size, by rw [hc.journal]; exact h.cold, by rw [hc.main]; exact h.page1,
    ?_, fun p b hb => ?_, fun x wal' h' hx hw' hph' => ?_⟩
  · have hr := readWalPages_ok hp'
    rw [hps, hnew, hc.pages, writes_commitFrames] at hr
    rw [hc.written, hpager]
    exact hr
  · rw [hpager] at hb ⊢
    obtain ⟨hnone, hread⟩ := hcok p b hb
    refine ⟨?_, by rw [hc.main]; exact hread⟩
    have hl : lastWrite s.pager.dirty.toList p = none := by
      rw [lastWrite_eq_none]
      rintro w hmem rfl
      have := hunc w.1 w.2 (ExtTreeMap.mem_toList_iff_getElem?_eq_some.1 hmem) (hdirty w hmem).2
      rw [show c.content w.1 = some b from hb] at this
      cases this
    have hnone' : s.pager.walPages[p]? = none := hnone
    simp only [Pager.overlayDirty, getElem?_overlay, hl, hnone', Option.or_none]
  · rw [hpager] at hx
    rw [hc.written] at hw'
    cases hx
    cases hw'
    rw [hp'] at hph'
    cases hph'
    exact hintOk_commitWriter (parse_length hc.parse) hlen

theorem Synced.flushWal (h : Synced ps s) (hps : validPageSize ps) (hf : FlushSound ps s)
    (hm : s.pager.journalMode = .wal) (hne : s.pager.dirty.toList ≠ []) (salts : UInt32 × UInt32) :
    Synced ps (s.flushWalLocked salts).2 ∧
      ((s.flushWalLocked salts).1 = .ok () → (s.flushWalLocked salts).2.pager.dirty = ∅) := by
  obtain ⟨hfull, hwal⟩ := hf.wal hm
  rcases flushWalLocked_cases h hps hfull hne salts with
    ⟨e, c, hr, hcok⟩ | ⟨t, wal, hd, page1, count, hr, h1, hcount, hc⟩
  · rw [hr]
    exact ⟨⟨h.size, h.cold, h.page1, h.overlay, hcok, h.hint⟩, by simp⟩
  · obtain ⟨hcne, hclean⟩ := hwal page1 count h1 hcount
    rw [hr]
    refine ⟨hc.synced h hne hcne (fun w hw => (hf.pages w hw).2) ?_, fun _ => ?_⟩
    · rcases hc.source with hsome | ⟨-, rfl⟩
      · exact hclean wal hd hsome hc.parse
      · exact resumesClean_walOf (by simp) rfl _
    · obtain ⟨c, l, hpager, -⟩ := hc.pager
      rw [hpager]

/-! ## Switching the journal mode -/

/-- A committed page of a shortened WAL is a committed page of the WAL. -/
theorem committedPages_take {n : Nat} {p : UInt32} (h : (committedPages hd wal).1[p]? = none) :
    (committedPages hd (wal.take (headerLen + n * hd.frameSize))).1[p]? = none := by
  rw [committedPages_getElem?, lastWrite_eq_none] at h ⊢
  intro w hw
  refine h w (List.IsPrefix.subset ?_ hw)
  rw [frames_take]
  conv => rhs; rw [← List.take_append_drop n (frames hd wal)]
  exact List.IsPrefix.map _ (committed_mono _ _)

/-- A pass writes pages of the overlay only. -/
theorem checkpoint_pages {d' : Disk} {m : PageMap} (hov : readWalPages d.wal ps = .ok m)
    (h : d.checkpoint ps = .ok (r, d')) :
    d'.wal = d.wal ∧ d'.journal = d.journal ∧
      ∃ pages, d'.main = Vfs.writePages d.main ps pages ∧
        ∀ w ∈ pages, w.1 ≠ 0 ∧ w.2.length = ps.toNat ∧ m[w.1]? ≠ none := by
  unfold Disk.checkpoint at h
  split at h
  · cases h
  · rename_i r' main n hck
    cases h
    refine ⟨rfl, rfl, ?_⟩
    show ∃ pages, main = _ ∧ _
    cases hw : d.wal with
    | none =>
      rw [hw] at hck
      cases hck
      exact ⟨[], rfl, by simp⟩
    | some wal =>
      rw [hw] at hck hov
      unfold checkpointPassive at hck
      simp only at hck
      split at hck
      · cases hck
        exact ⟨[], rfl, by simp⟩
      · rename_i hl
        rcases readWalPages_some hov with hs | ⟨hd, hp, rfl, rfl⟩
        · exact absurd hs hl
        · simp only [hp, bind, Except.bind, ne_eq, not_true, if_false] at hck
          unfold planPass at hck
          simp only at hck
          split at hck
          · rename_i hplan
            cases hck
            exact ⟨[], rfl, by simp⟩
          · rename_i pages safe r₂ hplan
            cases hck
            refine ⟨pages, rfl, fun w hmem => ?_⟩
            have hpages : pages = backfillPages hd wal safe d.main.length := by
              split at hplan
              · cases hplan
              · split at hplan
                · cases hplan
                · split at hplan
                  · cases hplan
                  · cases hplan; rfl
            rw [hpages] at hmem
            obtain ⟨h0, hlen, hg⟩ := mem_backfillPages hmem
            refine ⟨h0, hlen, fun hnone => ?_⟩
            rw [committedPages_take hnone] at hg
            cases hg

theorem Synced.checkpoint (h : Synced ps s) (hps : 0 < ps.toNat) (hck : s.disk.checkpoint ps = .ok (r, d)) :
    Synced ps { s with disk := d } := by
  obtain ⟨hwal, hj, pages, hmain, hpages⟩ := checkpoint_pages h.overlay hck
  refine h.writePages hps (fun w hw => ⟨(hpages w hw).1, (hpages w hw).2.1⟩) (fun w hw => ?_) hmain hwal
    (hj ▸ h.cold)
  refine Option.eq_none_iff_forall_ne_some.2 fun c hc => ?_
  exact (hpages w hw).2.2 (h.cached w.1 c hc).1

theorem Synced.checkpointAll (n : Nat) (h : Synced ps s) (hps : 0 < ps.toNat) :
    Synced ps { s with disk := (s.disk.checkpointAll ps n).2 } := by
  induction n generalizing s with
  | zero => exact h
  | succ n ih =>
    unfold Disk.checkpointAll
    cases hck : s.disk.checkpoint ps with
    | error e => exact h
    | ok rd =>
      have h' := h.checkpoint (d := rd.2) (r := rd.1) hps hck
      simp only
      split
      · exact h'
      · exact ih h'

theorem Synced.switchWalToJournal (h : Synced ps s) (hps : 0 < ps.toNat) :
    Synced ps s.switchWalToJournal.2 := by
  have hall := h.checkpointAll maxPasses hps
  unfold Conn.switchWalToJournal
  rw [h.size]
  rcases hr : s.disk.checkpointAll ps maxPasses with ⟨e | _, d⟩
  · rw [hr] at hall
    exact hall
  · rw [hr] at hall
    exact ⟨hall.size, hall.cold, hall.page1, rfl, fun p c hc => ⟨by simp, (hall.cached p c hc).2⟩,
      by simp⟩

/-- The `-wal` file that a switch to WAL leaves. -/
def switchedWal (ps : UInt32) (salts : UInt32 × UInt32) (s : Conn) : Bytes :=
  (WalWriter.create s.disk.wal (freshHeader ps salts)).1

/-- A switch to WAL needs an empty overlay, and a `-wal` file whose frames, if
it has any, do not chain from the new header. -/
structure SwitchSound (ps : UInt32) (salts : UInt32 × UInt32) (s : Conn) : Prop where
  overlay : s.pager.walPages = ∅
  wal : (committedPages (freshHeader ps salts) (switchedWal ps salts s)).1 = ∅

theorem Synced.switchJournalToWal (h : Synced ps s) (hps : validPageSize ps) (hs : SwitchSound ps salts s) :
    Synced ps (s.switchJournalToWal salts) := by
  have hp : WalHeader.parse (switchedWal ps salts s) = .ok (freshHeader ps salts) :=
    parse_create _ _ _ _ hps
  have hr := readWalPages_ok hp
  rw [hs.wal] at hr
  unfold Conn.switchJournalToWal
  rw [h.size]
  exact ⟨h.size, h.cold, h.page1, by rw [hs.overlay]; exact hr, h.cached, by simp⟩

theorem Synced.writeVersion (h : Synced ps s) (hps : 0 < ps.toNat) (mode : JournalMode) :
    Synced ps (s.writeVersion mode).2 := by
  unfold Conn.writeVersion
  rw [h.size]
  split
  · exact h
  · rename_i page1 h1
    split
    · exact h
    · rename_i page1' hpatch
      split
      · exact h
      · rename_i main hw
        have hlen : page1'.length = ps.toNat := by
          unfold patchJournalModeBytes at hpatch
          split at hpatch
          · cases hpatch
            have := readPage_length (readMain_ok.1 h1)
            rw [writeAt_length, ← this]
            split <;> simp <;> omega
          · cases hpatch
        have hi : Synced ps (s.setCache (s.pager.pageCache.invalidate 1)) :=
          h.congr rfl rfl rfl rfl (s.pager.pageCache.content_invalidate 1).2
        rw [writePage_ok (by decide) hlen] at hw
        cases hw
        refine @Synced.writePages ps _ [(1, page1')] _ hi hps ?_ ?_ rfl rfl h.cold
        · simp [hlen]
        · intro w hw
          rw [List.mem_singleton.1 hw]
          exact (s.pager.pageCache.content_invalidate 1).1

theorem Synced.setJournalMode {mode : JournalMode} (h : Synced ps s) (hps : validPageSize ps)
    (hs : mode = .wal → s.pager.journalMode = .wal ∨ SwitchSound ps salts s) :
    Synced ps (s.setJournalMode mode salts).2 := by
  have hswitch : s.pager.journalMode ≠ mode → Synced ps (s.switchTo mode salts).2 := by
    intro hne
    cases mode with
    | wal => exact h.switchJournalToWal hps ((hs rfl).resolve_left hne)
    | legacy => exact h.switchWalToJournal hps.pos
  unfold Conn.setJournalMode
  split
  · exact h
  · split
    · exact h
    · rename_i hne
      have := hswitch hne
      rcases hr : s.switchTo mode salts with ⟨e | _, t⟩
      · rw [hr] at this
        exact this
      · rw [hr] at this
        exact (this.congr (t := { t with pager.journalMode := mode }) rfl rfl rfl rfl
          fun _ _ hc => hc).writeVersion hps.pos mode

/-! ## The system -/

inductive PagerOp where
  | readPage (p : UInt32)
  | editPage (p : UInt32) (bytes : Bytes)
  | allocatePage
  | deallocatePage (p : UInt32)
  | rollback
  | beginImmediate
  | beginExclusive
  | setSynchronous (mode : SynchronousMode)
  | flush (nonce : UInt32) (salts : UInt32 × UInt32)
  | setJournalMode (mode : JournalMode) (salts : UInt32 × UInt32)

def PagerOp.isFlush : PagerOp → Bool
  | .flush _ _ => true
  | _ => false

/-- Calls that work on pages and locks only. -/
def PagerOp.isEdit : PagerOp → Bool
  | .setSynchronous _ | .flush _ _ | .setJournalMode _ _ => false
  | _ => true

/-- One call: whether it returned `Ok`, and the connection afterwards.
`editPage` leaves `bytes` in the buffer of `get_page_mut`. -/
def Conn.run (s : Conn) : PagerOp → Bool × Conn
  | .readPage p => ((s.readPage p).1.isOk, (s.readPage p).2)
  | .editPage p bytes =>
    let r := Action.exec ((connOps s.pager.pageSize).edit p fun _ => .ok bytes) s
    (r.1.isOk, r.2)
  | .allocatePage =>
    let r := Action.exec (connOps s.pager.pageSize).allocatePage s
    (r.1.isOk, r.2)
  | .deallocatePage p =>
    let r := Action.exec ((connOps s.pager.pageSize).deallocatePage p) s
    (r.1.isOk, r.2)
  | .rollback => (true, s.rollback)
  | .beginImmediate => (true, s.setTxLock .reserved)
  | .beginExclusive => (true, s.setTxLock .exclusive)
  | .setSynchronous mode => (true, { s with pager.synchronous := mode })
  | .flush nonce salts => ((s.flush nonce salts).1.isOk, (s.flush nonce salts).2)
  | .setJournalMode mode salts => ((s.setJournalMode mode salts).1.isOk, (s.setJournalMode mode salts).2)

/-- Every call but a flush and the two that set a mode leaves what is
committed as it is. -/
theorem run_unchanged (h : CacheOk s) (hop : op.isEdit = true) : Unchanged s (s.run op).2 := by
  have hs := Unchanged.refl h
  have hkeep : (connOps s.pager.pageSize).Keeps (Unchanged s) := connOps_keeps _
  cases op with
  | readPage p => exact hs.readPage p
  | editPage p bytes => exact hkeep.edit p _ s hs
  | allocatePage => exact allocatePage_keeps hkeep s hs
  | deallocatePage p => exact deallocatePage_keeps hkeep p s hs
  | rollback => exact ⟨rfl, rfl, rfl, rfl, rfl, rfl, h⟩
  | beginImmediate => exact hs.setTxLock _
  | beginExclusive => exact hs.setTxLock _
  | setSynchronous mode => cases hop
  | flush nonce salts => cases hop
  | setJournalMode mode salts => cases hop

/-- A connection, and whether its last call was a flush that returned `Ok`. -/
structure Session where
  conn : Conn
  flushed : Bool

def Session.next (t : Session) (op : PagerOp) : Session :=
  ⟨(t.conn.run op).2, op.isFlush && (t.conn.run op).1⟩

/-- One connection, opened on any files with a page size. -/
def sessions (ps : UInt32) : LTS Session PagerOp where
  init t := t.flushed = false ∧ ∃ disk, Pager.open disk ps = .ok t.conn
  step t op t' := t' = t.next op

/-- The condition on a step: a flush of dirty pages is sound, and so is a
switch to WAL. -/
def Reopens (ps : UInt32) (t : Session) : PagerOp → Prop
  | .flush _ _ => t.conn.pager.dirty.isEmpty = true ∨ FlushSound ps t.conn
  | .setJournalMode .wal salts =>
    t.conn.pager.journalMode = .wal ∨ SwitchSound ps salts t.conn
  | _ => True

/-- The files are synced, and a flush that returned `Ok` left nothing dirty. -/
structure SessionInv (ps : UInt32) (t : Session) : Prop where
  synced : Synced ps t.conn
  clean : t.flushed = true → t.conn.pager.dirty = ∅

theorem Synced.flush (h : Synced ps s) (hps : validPageSize ps)
    (hf : s.pager.dirty.isEmpty = true ∨ FlushSound ps s) (nonce : UInt32) (salts : UInt32 × UInt32) :
    Synced ps (s.flush nonce salts).2 ∧
      ((s.flush nonce salts).1.isOk = true → (s.flush nonce salts).2.pager.dirty = ∅) := by
  have hlock : ∀ {t : Conn}, Synced ps t → Synced ps (t.setTxLock .shared) :=
    fun ht => ht.congr rfl rfl rfl rfl fun _ _ hc => hc
  have hok : ∀ {r : Except PagerError Unit}, r.isOk = true → r = .ok () := by
    intro r hr
    cases r with
    | ok _ => rfl
    | error e => cases hr
  unfold Conn.flush
  split
  · rename_i he
    exact ⟨hlock h, fun _ => ExtTreeMap.isEmpty_iff.1 he⟩
  · rename_i he
    have hf := hf.resolve_left he
    split
    · rename_i hm
      have hne : s.pager.dirty.toList ≠ [] := by
        intro hnil
        exact he (by rw [← ExtTreeMap.isEmpty_toList, hnil]; rfl)
      obtain ⟨h1, h2⟩ := h.flushWal hps hf hm hne salts
      exact ⟨hlock h1, fun hr => h2 (hok hr)⟩
    · rename_i hm
      obtain ⟨h1, h2⟩ := h.flushLegacy hps.pos hf hm nonce
      exact ⟨hlock h1, fun hr => h2 (hok hr)⟩

/-- Every call that meets the condition keeps the files synced. -/
theorem Synced.run {t : Session} (h : Synced ps t.conn) (hps : validPageSize ps) (hop : Reopens ps t op) :
    Synced ps (t.conn.run op).2 := by
  by_cases he : op.isEdit = true
  · exact h.unchanged (run_unchanged h.cached he)
  · cases op with
    | setSynchronous mode => exact h.congr rfl rfl rfl rfl fun _ _ hc => hc
    | flush nonce salts => exact (h.flush hps hop nonce salts).1
    | setJournalMode mode salts =>
      refine h.setJournalMode hps fun hm => ?_
      subst hm
      exact hop
    | _ => exact absurd rfl he

theorem sessions_inductive (hps : validPageSize ps) :
    ((sessions ps).restrict (Reopens ps)).Inductive (SessionInv ps) where
  init t ht := by
    obtain ⟨hf, disk, hopen⟩ := ht
    exact ⟨(Synced.open hopen).1, by simp [hf]⟩
  step t op t' hi hs := by
    obtain ⟨rfl, hop⟩ := hs
    refine ⟨hi.synced.run hps hop, fun hfl => ?_⟩
    cases op with
    | flush nonce salts => exact (hi.synced.flush hps hop nonce salts).2 hfl
    | _ => cases hfl

/-- **A committed transaction is in the files**: over every page size and any
files, in every run of one connection whose steps meet `Reopens`, after a
flush that returns `Ok` a fresh open succeeds and reads every page exactly
as the committing connection does. -/
theorem flush_reopens (ps : UInt32) (hps : validPageSize ps) (t : Session)
    (hreach : ((sessions ps).restrict (Reopens ps)).Reachable t) (hflushed : t.flushed = true) :
    ∃ fresh, Pager.open t.conn.disk ps = .ok fresh ∧
      ∀ p, (fresh.readPage p).1 = (t.conn.readPage p).1 := by
  have hi := (sessions_inductive hps).reachable t hreach
  exact reopen_reads hi.synced (hi.clean hflushed)

/-! ## A commit at `synchronous = Normal`

A database of one page in WAL mode, without a `-wal` file: the connection
changes page 1 and commits. -/

def walMain : Bytes :=
  List.replicate 18 0 ++ [2, 2] ++ List.replicate 8 0 ++ [0, 0, 0, 1] ++ List.replicate 480 0

def editedPage : Bytes :=
  List.replicate 18 0 ++ [2, 2] ++ List.replicate 8 0 ++ [0, 0, 0, 1] ++ List.replicate 480 7

/-- The database `walMain` with a WAL that has no frames. -/
def sharedDisk : Disk := ⟨walMain, none, some (walOf header512 []), some 0, true⟩

def walConn : Conn :=
  ⟨⟨walMain, none, none, none, true⟩,
    ⟨.shared, none, ∅, ∅, .new defaultPageCacheCapacity, 512, .wal, .full⟩⟩

theorem open_walConn : Pager.open ⟨walMain, none, none, none, true⟩ 512 = .ok walConn := by
  have h1 : readMain walMain 512 1 = .ok walMain := by decide +kernel
  have hm : journalModeFromPage1 walMain = .wal := by decide +kernel
  simp only [Pager.open, openOps, Disk.files, runOps_nil, Disk.setFiles, readWalPages, h1, hm]
  rfl

/-- The connection after it has set the synchronous level and changed page 1. -/
def walEdited (mode : SynchronousMode) : Session :=
  ((⟨walConn, false⟩ : Session).next (.setSynchronous mode)).next (.editPage 1 editedPage)

def walFlushed (mode : SynchronousMode) : Session := (walEdited mode).next (.flush 0 (0, 0))

variable {P : Session → PagerOp → Prop}

theorem reachable_next {t : Session} (h : ((sessions ps).restrict P).Reachable t) (hop : P t op) :
    ((sessions ps).restrict P).Reachable (t.next op) := h.step ⟨rfl, hop⟩

theorem walEdited_reachable (mode : SynchronousMode) (hset : ∀ t, P t (.setSynchronous mode))
    (hedit : ∀ t, P t (.editPage 1 editedPage)) :
    ((sessions 512).restrict P).Reachable (walEdited mode) :=
  reachable_next (reachable_next ⟨⟨walConn, false⟩, [], ⟨rfl, _, open_walConn⟩, .nil _⟩ (hset _)) (hedit _)

/-- Whether a fresh open reads page `p` as the connection does. -/
def sameOnReopen (s : Conn) (ps p : UInt32) : Bool :=
  match Pager.open s.disk ps with
  | .ok fresh => decide ((fresh.readPage p).1 = (s.readPage p).1)
  | .error _ => false

/-- **Counterexample**: at `Normal` the flush returns `Ok`, and a fresh open
reads the old page 1. -/
theorem normal_commit_lost :
    ∃ t, (sessions 512).Reachable t ∧ t.flushed = true ∧
      ¬ ∃ fresh, Pager.open t.conn.disk 512 = .ok fresh ∧
        ∀ p, (fresh.readPage p).1 = (t.conn.readPage p).1 := by
  have hreach : ((sessions 512).restrict fun _ _ => True).Reachable (walFlushed .normal) :=
    reachable_next (walEdited_reachable .normal (fun _ => trivial) fun _ => trivial) trivial
  refine ⟨walFlushed .normal, hreach.of_restrict, by decide +kernel, ?_⟩
  rintro ⟨fresh, hopen, hreads⟩
  have hdiff : sameOnReopen (walFlushed .normal).conn 512 1 = false := by decide +kernel
  unfold sameOnReopen at hdiff
  rw [hopen] at hdiff
  exact absurd (hreads 1) (of_decide_eq_false hdiff)

/-- A commit of page 1 alone, to a WAL of committed frames or to none. -/
theorem FlushSound.page1 {c : Conn} {page : Bytes} {count : UInt32}
    (hd : c.pager.dirty.toList = [(1, page)]) (hlen : page.length = ps.toNat)
    (hcache : c.pager.pageCache.content 1 = none) (hmode : c.pager.journalMode = .wal)
    (hsync : c.pager.synchronous = .full) (hread : (c.readPage 1).1 = .ok page)
    (hcount : readBeU32 page pageCountOffset = .ok count) (hpos : count ≠ 0)
    (hwal : ∀ wal h, c.disk.wal = some wal → WalHeader.parse wal = .ok h →
      ∃ fs, wal = walOf h fs ∧ (∀ f ∈ fs, f.content.length = h.pageSize.toNat) ∧ committed fs = fs) :
    FlushSound ps c := by
  refine ⟨fun w hw => ?_, fun hl => ?_, fun _ => ⟨hsync, fun page1 n h1 hn => ?_⟩⟩
  · rw [hd, List.mem_singleton] at hw
    subst hw
    exact ⟨by simp, hlen, hcache⟩
  · rw [hmode] at hl
    cases hl
  · rw [hread] at h1
    cases h1
    rw [hcount] at hn
    cases hn
    refine ⟨hpos, fun wal h hw hp => ?_⟩
    obtain ⟨fs, rfl, hf, hc⟩ := hwal wal h hw hp
    exact resumesClean_walOf hf hc _

theorem walEdited_sound : FlushSound 512 (walEdited .full).conn := by
  have hw : (walEdited .full).conn.disk.wal = none := by decide +kernel
  refine @FlushSound.page1 512 _ editedPage 1 (by decide +kernel) (by decide +kernel) (by decide +kernel)
    (by decide +kernel) (by decide +kernel) (by decide +kernel) (by decide +kernel) (by decide) fun wal h hwal => ?_
  rw [hw] at hwal
  cases hwal

theorem walFlushed_reachable : ((sessions 512).restrict (Reopens 512)).Reachable (walFlushed .full) :=
  reachable_next (walEdited_reachable .full (fun _ => trivial) fun _ => trivial) (.inr walEdited_sound)

theorem walFlushed_flushed : (walFlushed .full).flushed = true := by decide +kernel

/-- The same commit at `Full` meets the condition. -/
theorem full_commit_reopens :
    (walFlushed .full).flushed = true ∧
      ∃ fresh, Pager.open (walFlushed .full).conn.disk 512 = .ok fresh ∧
        ∀ p, (fresh.readPage p).1 = ((walFlushed .full).conn.readPage p).1 :=
  ⟨walFlushed_flushed,
    flush_reopens 512 (by decide) (walFlushed .full) walFlushed_reachable walFlushed_flushed⟩

end DbStorage.Pager
