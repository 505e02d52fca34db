import DbStorage.Pager.Crash
import DbStorage.Pager.Reopen

/-!
# Page handles and recycled buffers (`read_page` in `pager/mod.rs`)

`read_page` hands out `Rc<[u8]>` handles. A miss in a full cache evicts a
page and, if `Rc::get_mut` says that nobody else has a handle to its buffer,
reads the new page into that buffer. In `RcPager`, `mem` is what is in the
buffers, `slot` the buffer of each cached page, and `held` the handles that
callers keep, with the bytes they were handed out for.

The system `handles` is one connection, opened on any files in either
journal mode at `synchronous = Full`, whose callers read pages, keep and drop
handles, edit, allocate and free pages, roll back and flush. `committed` is
the content each page had at its last commit. The journal mode stays as it
is: what reads return after `set_journal_mode` is in `Pager.ModeSwitch`.

Results: `reads_last_commit` (in every run whose flushes meet `FlushClean`
every read returns the unflushed content of the page, or else that of its
last commit, and every handle still shows the bytes it was handed out for)
and `stale_after_extend` (a page past the header's page count was cached
when `allocate_page` took it).
-/
namespace DbStorage.Pager
open Bytes Vfs Wal Std

structure RcPager where
  conn : Conn
  slot : UInt32 → Nat
  mem : Nat → Bytes
  /-- No buffer from here on has been used. -/
  next : Nat
  held : List (Nat × Bytes)

namespace RcPager

def setConn (s : RcPager) (conn : Conn) : RcPager := { s with conn := conn }

/-- A buffer of its own. -/
def fresh (s : RcPager) (bytes : Bytes) : Except PagerError Nat × RcPager :=
  (.ok s.next, { s with mem := Function.update s.mem s.next bytes, next := s.next + 1 })

/-- Whether `Rc::get_mut` succeeds for the buffer of an evicted page; `cache`
has lost that page. -/
def unshared (s : RcPager) (cache : PageCache) (buf : Nat) : Bool :=
  s.held.all (fun h => h.1 != buf) && cache.entries.toList.all fun e => s.slot e.1 != buf

/-- The page that makes room for the next one. -/
def victim (cache : PageCache) : Option UInt32 :=
  if cache.entries.size < cache.capacity then none else cache.evictOne.1.map Prod.fst

/-- The buffer that the page read next goes into.
mirrors pager/mod.rs:1231-1241 -/
def target (s : RcPager) (cache : PageCache) : Nat :=
  match victim cache with
  | some q => if s.unshared cache.evictOneIfFull.2 (s.slot q) then s.slot q else s.next
  | none => s.next

/-- A recycled buffer of a read that fails is dropped with what is in it.
mirrors pager/mod.rs:1220-1244 -/
def readCached (p : UInt32) (s : RcPager) : Except PagerError Nat × RcPager :=
  match s.conn.pager.pageCache.get p with
  | (some _, c) => (.ok (s.slot p), s.setConn (s.conn.setCache c))
  | (none, c) =>
    match readMain s.conn.disk.main s.conn.pager.pageSize p with
    | .error e => (.error e, s.setConn (s.conn.setCache c.evictOneIfFull.2))
    | .ok bytes => (.ok (s.target c),
        { s with
          conn := s.conn.setCache (c.evictOneIfFull.2.insert p bytes)
          slot := Function.update s.slot p (s.target c)
          mem := Function.update s.mem (s.target c) bytes
          next := s.next + 1 })

/-- Dirty pages are copied; a page of the overlay is a buffer that is never
recycled.
mirrors pager/mod.rs:1212-1246 -/
def read (p : UInt32) (s : RcPager) : Except PagerError Nat × RcPager :=
  match s.conn.pager.dirty[p]? with
  | some page => s.fresh page
  | none =>
    match s.conn.pager.walPages[p]? with
    | some page => s.fresh page
    | none => s.readCached p

/-- The routines' own reads: they drop the handle. -/
def rcOps (pageSize : UInt32) : PageOps RcPager where
  pageSize := pageSize
  readPage p := Action.ofFn fun s => ((s.read p).1.map (s.read p).2.mem, (s.read p).2)
  getPageMut p := Action.ofFn fun s => ((s.conn.getPageMut p).1, s.setConn (s.conn.getPageMut p).2)
  putPage p bytes := Action.ofFn fun s => (.ok (), s.setConn (s.conn.setDirty p bytes))
  insertPage p bytes := Action.ofFn fun s => (.ok (), s.setConn (s.conn.setDirty p bytes))

/-- A flush to the WAL reads page 1 through the cache. -/
def flush (nonce : UInt32) (salts : UInt32 × UInt32) (s : RcPager) : RcPager :=
  (if !s.conn.pager.dirty.isEmpty && s.conn.pager.journalMode = .wal then (s.read 1).2 else s).setConn
    (s.conn.flush nonce salts).2

end RcPager

/-! ## The system -/

structure RcRun where
  pager : RcPager
  committed : UInt32 → Except PagerError Bytes

inductive RcOp where
  | read (p : UInt32)
  | drop (k : Nat)
  | editPage (p : UInt32) (bytes : Bytes)
  | allocatePage
  | deallocatePage (p : UInt32)
  | rollback
  | beginImmediate
  | beginExclusive
  | flush (nonce : UInt32) (salts : UInt32 × UInt32)

/-- What `read_page(p)` has to return. -/
def RcRun.expected (t : RcRun) (p : UInt32) : Except PagerError Bytes :=
  match t.pager.conn.pager.dirty[p]? with
  | some page => .ok page
  | none => t.committed p

def RcPager.run (s : RcPager) : RcOp → RcPager
  | .read p =>
    match s.read p with
    | (.ok buf, s) => { s with held := (buf, s.mem buf) :: s.held }
    | (.error _, s) => s
  | .drop k => { s with held := s.held.eraseIdx k }
  | .editPage p bytes => (Action.exec ((RcPager.rcOps s.conn.pager.pageSize).edit p fun _ => .ok bytes) s).2
  | .allocatePage => (Action.exec (RcPager.rcOps s.conn.pager.pageSize).allocatePage s).2
  | .deallocatePage p => (Action.exec ((RcPager.rcOps s.conn.pager.pageSize).deallocatePage p) s).2
  | .rollback => s.setConn s.conn.rollback
  | .beginImmediate => s.setConn (s.conn.setTxLock .reserved)
  | .beginExclusive => s.setConn (s.conn.setTxLock .exclusive)
  | .flush nonce salts => s.flush nonce salts

def RcRun.next (t : RcRun) (op : RcOp) : RcRun :=
  ⟨t.pager.run op, match op with
    | .flush nonce salts => if (t.pager.conn.flush nonce salts).1.isOk then t.expected else t.committed
    | _ => t.committed⟩

/-- One connection, opened on any files. -/
def handles (ps : UInt32) : LTS RcRun RcOp where
  init t := (∃ disk, Pager.open disk ps = .ok t.pager.conn) ∧ t.pager.held = [] ∧
    t.committed = t.pager.conn.readCommitted
  step t op t' := t' = t.next op

/-- The condition on a flush: it is sound, so that no dirty page is cached,
and one to the main file writes no page that the overlay shadows. -/
def FlushClean (ps : UInt32) (t : RcRun) : RcOp → Prop
  | .flush _ _ => t.pager.conn.pager.dirty.isEmpty = true ∨ FlushSound ps t.pager.conn ∧
      (t.pager.conn.pager.journalMode = .legacy →
        ∀ w ∈ t.pager.conn.pager.dirty.toList, t.pager.conn.pager.walPages[w.1]? = none)
  | _ => True

/-! ## Buffers -/

/-- Every cached page's buffer, and every buffer a caller has, holds the
right bytes. -/
structure Bufs (s : RcPager) : Prop where
  cached : ∀ p b, s.conn.pager.pageCache.content p = some b → s.slot p < s.next ∧ s.mem (s.slot p) = b
  held : ∀ h ∈ s.held, h.1 < s.next ∧ s.mem h.1 = h.2

variable {ps : UInt32} {s : RcPager}

/-- A cache that holds no more needs no other buffers. -/
theorem Bufs.setConn (h : Bufs s) {conn : Conn} (hsub : conn.pager.pageCache.Sub s.conn.pager.pageCache) :
    Bufs (s.setConn conn) := ⟨fun p b hb => h.cached p b (hsub p b hb), h.held⟩

theorem Bufs.fresh (h : Bufs s) (bytes : Bytes) : Bufs (s.fresh bytes).2 := by
  have hold : ∀ {buf : Nat}, buf < s.next →
      buf < s.next + 1 ∧ Function.update s.mem s.next bytes buf = s.mem buf := fun hlt =>
    ⟨Nat.lt_succ_of_lt hlt, Function.update_of_ne (Nat.ne_of_lt hlt) _ _⟩
  refine ⟨fun p b hb => ?_, fun x hx => ?_⟩
  · obtain ⟨hlt, hm⟩ := h.cached p b hb
    exact ⟨(hold hlt).1, (hold hlt).2.trans hm⟩
  · obtain ⟨hlt, hm⟩ := h.held x hx
    exact ⟨(hold hlt).1, (hold hlt).2.trans hm⟩

theorem evictLoop_page {heap : List (UInt64 × UInt32)} {c : PageCache} {q : UInt32} {b : Bytes}
    (h : (PageCache.evictLoop heap c).1 = some (q, b)) : c.content q = some b := by
  induction heap with
  | nil => cases h
  | cons x heap ih =>
    rw [PageCache.evictLoop] at h
    split at h
    · rename_i bytes current hentry
      split at h
      · cases h
        rw [PageCache.content, hentry]
        rfl
      · exact ih h
    · exact ih h

/-- Nobody has the buffer that a page is read into. -/
theorem target_unshared (h : Bufs s) {c : PageCache} (hc : c.Sub s.conn.pager.pageCache) :
    s.target c < s.next + 1 ∧ (∀ x ∈ s.held, x.1 ≠ s.target c) ∧
      ∀ q b, c.evictOneIfFull.2.content q = some b → s.slot q ≠ s.target c := by
  have hsub : ∀ q b, c.evictOneIfFull.2.content q = some b → s.slot q < s.next :=
    fun q b hq => (h.cached q b (hc q b (c.content_evict q b hq))).1
  -- a buffer that has not been used is nobody's
  have hnew : s.next < s.next + 1 ∧ (∀ x ∈ s.held, x.1 ≠ s.next) ∧
      ∀ q b, c.evictOneIfFull.2.content q = some b → s.slot q ≠ s.next :=
    ⟨Nat.lt_succ_self _, fun x hx => Nat.ne_of_lt (h.held x hx).1, fun q b hq => Nat.ne_of_lt (hsub q b hq)⟩
  unfold RcPager.target
  cases hv : RcPager.victim c with
  | none => exact hnew
  | some q =>
    simp only
    split
    · rename_i hun
      simp only [RcPager.unshared, Bool.and_eq_true, List.all_eq_true, bne_iff_ne] at hun
      refine ⟨?_, hun.1, fun q' b hq' => ?_⟩
      · unfold RcPager.victim at hv
        split at hv
        · cases hv
        · obtain ⟨⟨q', b⟩, hev, rfl⟩ := Option.map_eq_some_iff.1 hv
          exact Nat.lt_succ_of_lt (h.cached q' b (hc q' b (evictLoop_page hev))).1
      · obtain ⟨e, he, -⟩ := Option.map_eq_some_iff.1 hq'
        exact hun.2 (q', e) (ExtTreeMap.mem_toList_iff_getElem?_eq_some.2 he)
    · exact hnew

/-- What a read does to the buffers: it is the read of `Conn`, and nobody's
buffer changes. -/
structure ReadOk (s : RcPager) (r : Except PagerError Nat × RcPager) (v : Except PagerError Bytes × Conn) :
    Prop where
  conn : r.2.conn = v.2
  value : r.1.map r.2.mem = v.1
  bufs : Bufs r.2
  held : r.2.held = s.held
  used : ∀ buf, r.1 = .ok buf → buf < r.2.next

theorem Bufs.readCached (h : Bufs s) (p : UInt32) : ReadOk s (s.readCached p) (s.conn.readCached p) := by
  obtain ⟨hget, hsame⟩ := s.conn.pager.pageCache.content_get p
  unfold RcPager.readCached Conn.readCached
  rcases hg : s.conn.pager.pageCache.get p with ⟨r, c⟩
  rw [hg] at hget hsame
  have hsub : c.Sub s.conn.pager.pageCache := fun q b hq => (hsame q).symm.trans hq
  cases r with
  | some b =>
    obtain ⟨hlt, hm⟩ := h.cached p b hget.symm
    refine ⟨rfl, congrArg Except.ok hm, h.setConn hsub, rfl, fun buf hb => ?_⟩
    cases hb
    exact hlt
  | none =>
    simp only
    cases hread : readMain s.conn.disk.main s.conn.pager.pageSize p with
    | error e => exact ⟨rfl, rfl, h.setConn fun q b hq => hsub q b (c.content_evict q b hq), rfl, fun _ h => by cases h⟩
    | ok bytes =>
      obtain ⟨hlt, hheld, hcached⟩ := target_unshared h hsub
      refine ⟨rfl, congrArg Except.ok (Function.update_self ..), ⟨fun q b hq => ?_, fun x hx => ?_⟩, rfl,
        fun buf hb => ?_⟩
      · obtain ⟨rfl, rfl⟩ | hold := PageCache.content_insert _ _ _ hq
        · simp only [Function.update_self]
          exact ⟨hlt, trivial⟩
        · have hqc := hsub q b (c.content_evict q b hold)
          -- page `p` itself was not cached
          have hne : q ≠ p := by
            rintro rfl
            cases hget.trans hqc
          obtain ⟨hqlt, hm⟩ := h.cached q b hqc
          simp only [Function.update_of_ne hne, Function.update_of_ne (hcached q b hold)]
          exact ⟨Nat.lt_succ_of_lt hqlt, hm⟩
      · obtain ⟨hxlt, hm⟩ := h.held x hx
        simp only [Function.update_of_ne (hheld x hx)]
        exact ⟨Nat.lt_succ_of_lt hxlt, hm⟩
      · cases hb
        exact hlt

theorem Bufs.read (h : Bufs s) (p : UInt32) : ReadOk s (s.read p) (s.conn.readPage p) := by
  have hfresh : ∀ page, ReadOk s (s.fresh page) (.ok page, s.conn) := by
    intro page
    refine ⟨rfl, congrArg Except.ok (Function.update_self ..), h.fresh page, rfl, fun buf hb => ?_⟩
    cases hb
    exact Nat.lt_succ_self _
  unfold RcPager.read Conn.readPage
  cases s.conn.pager.dirty[p]? with
  | some page => exact hfresh page
  | none =>
    cases s.conn.pager.walPages[p]? with
    | some page => exact hfresh page
    | none => exact h.readCached p

/-! ## Calls that commit nothing -/

/-- The calls' page operations leave alone what is committed, and the
buffers. -/
theorem rcOps_keeps (n : UInt32) (conn : Conn) :
    (RcPager.rcOps n).Keeps fun s => Unchanged conn s.conn ∧ Bufs s where
  readPage p s h := by
    have hr := h.2.read p
    refine ⟨?_, hr.bufs⟩
    simp only [RcPager.rcOps, Action.exec_ofFn, hr.conn]
    exact h.1.readPage p
  getPageMut p s h := by
    refine ⟨h.1.getPageMut p, h.2.setConn ?_⟩
    unfold Conn.getPageMut
    simp only
    split
    · exact (s.conn.pager.pageCache.content_invalidate p).2
    · split
      · exact (s.conn.pager.pageCache.content_invalidate p).2
      · exact (s.conn.pager.pageCache.content_invalidate p).2
  putPage p b s h := ⟨h.1.setDirty p b, h.2.setConn fun _ _ hc => hc⟩
  insertPage p b s h := ⟨h.1.setDirty p b, h.2.setConn fun _ _ hc => hc⟩

/-! ## Flushes -/

section Flush
variable {c : Conn} {nonce : UInt32} {salts : UInt32 × UInt32}

/-- A flush to the WAL changes the cache by its read of page 1 only. -/
theorem flushWalLocked_cache (c : Conn) (salts : UInt32 × UInt32) :
    (c.flushWalLocked salts).2.pager.pageCache = (c.readPage 1).2.pager.pageCache := by
  unfold Conn.flushWalLocked
  rcases c.readPage 1 with ⟨e | page1, c₁⟩
  · rfl
  · simp only
    cases readBeU32 page1 pageCountOffset with
    | error e => rfl
    | ok count =>
      unfold Conn.openWriter
      cases WalWriter.openExisting c₁.disk.wal c₁.pager.pageSize c₁.pager.walResume with
      | ok writer => rfl
      | error e => cases e <;> rfl

theorem flushLegacy_cache (c : Conn) (nonce : UInt32) :
    (c.flushLegacy nonce).2.pager.pageCache = c.pager.pageCache := by
  simp only [Conn.flushLegacy]
  split <;> rfl

/-- What is committed after a flush: the dirty pages over what was, or what
was. -/
def Commits (c : Conn) (r : Except PagerError Unit × Conn) : Prop :=
  (r.1.isOk = true → ∀ p b, (match c.pager.dirty[p]? with
      | some page => .ok page
      | none => c.readCommitted p) = Except.ok b → r.2.readCommitted p = .ok b) ∧
    (r.1.isOk = false → ∀ p, r.2.readCommitted p = c.readCommitted p)

theorem commits_flushLegacy (h : Synced ps c) (hps : 0 < ps.toNat) (hf : FlushSound ps c)
    (hm : c.pager.journalMode = .legacy)
    (hshadow : ∀ w ∈ c.pager.dirty.toList, c.pager.walPages[w.1]? = none) :
    Commits c (c.flushLegacy nonce) := by
  unfold Commits
  obtain ⟨e, heq⟩ | ⟨e, heq⟩ | ⟨count, j, -, -, heq⟩ := Conn.flushLegacy_cases h.size hf hm nonce
  · rw [heq]
    exact ⟨nofun, fun _ _ => rfl⟩
  · rw [heq]
    exact ⟨nofun, fun _ _ => rfl⟩
  · rw [heq]
    refine ⟨fun _ p b hb => ?_, nofun⟩
    have hw := readPage_writePages c.disk.main p hps fun w hw => ⟨(hf.pages w hw).1, (hf.pages w hw).2.1⟩
    rw [lastWrite_toList] at hw
    simp only [Conn.readCommitted, h.size] at hb ⊢
    cases hd : c.pager.dirty[p]? with
    | some page =>
      simp only [hd] at hb hw
      cases hb
      rw [show c.pager.walPages[p]? = none from
        hshadow (p, b) (ExtTreeMap.mem_toList_iff_getElem?_eq_some.2 hd)]
      exact readMain_ok.2 hw
    | none =>
      simp only [hd] at hb hw
      cases ho : c.pager.walPages[p]? with
      | some page => simpa only [ho] using hb
      | none =>
        simp only [ho] at hb
        exact readMain_ok.2 (hw b (readMain_ok.1 hb))

theorem commits_flushWal (h : Synced ps c) (hps : validPageSize ps) (hf : FlushSound ps c)
    (hm : c.pager.journalMode = .wal) (hne : c.pager.dirty.toList ≠ []) : Commits c (c.flushWalLocked salts) := by
  obtain ⟨e, cache, hr, -⟩ | ⟨t, wal, hd, page1, count, hr, -, -, hc⟩ :=
    flushWalLocked_cases h hps (hf.wal hm).1 hne salts
  · rw [hr]
    exact ⟨nofun, fun _ _ => rfl⟩
  · rw [hr]
    obtain ⟨cache, l, hpager, -⟩ := hc.pager
    refine ⟨fun _ p b hb => ?_, nofun⟩
    simp only [Conn.readCommitted, hpager, Pager.overlayDirty, getElem?_overlay, lastWrite_toList, hc.main] at hb ⊢
    cases hd : c.pager.dirty[p]? with
    | some page => simpa only [hd, Option.some_or] using hb
    | none => simpa only [hd, Option.none_or] using hb

end Flush

theorem Bufs.flush (h : Bufs s) (nonce : UInt32) (salts : UInt32 × UInt32) : Bufs (s.flush nonce salts) := by
  have hr := h.read 1
  unfold RcPager.flush Conn.flush
  by_cases he : s.conn.pager.dirty.isEmpty = true
  · simp only [he, Bool.not_true, Bool.false_and, Bool.false_eq_true, if_false, if_true]
    exact h.setConn fun _ _ hc => hc
  · cases hm : s.conn.pager.journalMode with
    | wal =>
      simp only [he, Bool.not_false, decide_true, Bool.and_self, if_true, Bool.false_eq_true, if_false]
      refine hr.bufs.setConn ?_
      rw [hr.conn]
      exact fun q b hq => by
        rw [← flushWalLocked_cache s.conn salts]
        exact hq
    | legacy =>
      simp only [he, Bool.not_false, reduceCtorEq, decide_false, Bool.and_false, Bool.false_eq_true, if_false]
      exact h.setConn fun q b hq => by
        rw [← flushLegacy_cache s.conn nonce]
        exact hq

/-! ## Whole runs -/

structure RcInv (ps : UInt32) (t : RcRun) : Prop where
  synced : Synced ps t.pager.conn
  bufs : Bufs t.pager
  committed : ∀ p b, t.committed p = .ok b → t.pager.conn.readCommitted p = .ok b

theorem RcInv.unchanged {t : RcRun} {pager : RcPager} (h : RcInv ps t)
    (hu : Unchanged t.pager.conn pager.conn ∧ Bufs pager) : RcInv ps ⟨pager, t.committed⟩ := by
  refine ⟨h.synced.unchanged hu.1, hu.2, fun p b hb => ?_⟩
  simp only [Conn.readCommitted, hu.1.disk, hu.1.pages, hu.1.size]
  exact h.committed p b hb

theorem RcInv.flush {t : RcRun} {nonce : UInt32} {salts : UInt32 × UInt32} (h : RcInv ps t)
    (hps : validPageSize ps) (hc : FlushClean ps t (.flush nonce salts)) : RcInv ps (t.next (.flush nonce salts)) := by
  have hcommits : Commits t.pager.conn (t.pager.conn.flush nonce salts) := by
    unfold Conn.flush
    split
    · rename_i he
      refine ⟨fun _ p b hb => ?_, nofun⟩
      rw [ExtTreeMap.isEmpty_iff.1 he, ExtTreeMap.getElem?_empty] at hb
      exact hb
    · rename_i he
      obtain ⟨hf, hshadow⟩ := hc.resolve_left he
      split
      · rename_i hm
        refine commits_flushWal h.synced hps hf hm fun hnil => he ?_
        rw [← ExtTreeMap.isEmpty_toList, hnil]
        rfl
      · rename_i hm
        exact commits_flushLegacy h.synced hps.pos hf hm (hshadow hm)
  have hsound : t.pager.conn.pager.dirty.isEmpty = true ∨ FlushSound ps t.pager.conn := hc.imp_right And.left
  refine ⟨(h.synced.flush hps hsound nonce salts).1, h.bufs.flush nonce salts, fun p b hb => ?_⟩
  simp only [RcRun.next] at hb
  cases hok : (t.pager.conn.flush nonce salts).1.isOk with
  | true =>
    rw [hok, if_pos rfl, RcRun.expected] at hb
    refine hcommits.1 hok p b ?_
    cases hd : t.pager.conn.pager.dirty[p]? with
    | some page => simpa only [hd] using hb
    | none =>
      simp only [hd] at hb
      exact h.committed p b hb
  | false =>
    rw [hok, if_neg (by decide)] at hb
    exact (hcommits.2 hok p).trans (h.committed p b hb)

theorem handles_inductive (hps : validPageSize ps) :
    ((handles ps).restrict (FlushClean ps)).Inductive (RcInv ps) where
  init t ht := by
    obtain ⟨⟨disk, hopen⟩, hheld, hcommitted⟩ := ht
    obtain ⟨hs, -⟩ := Synced.open hopen
    refine ⟨hs, ⟨fun p b hb => ?_, by simp [hheld]⟩, fun p b hb => by rw [hcommitted] at hb; exact hb⟩
    rw [(open_fresh hopen).2, PageCache.content_new] at hb
    cases hb
  step t op t' h hs := by
    obtain ⟨rfl, hc⟩ := hs
    have hrefl : Unchanged t.pager.conn t.pager.conn ∧ Bufs t.pager := ⟨.refl h.synced.cached, h.bufs⟩
    have hkeeps := rcOps_keeps t.pager.conn.pager.pageSize t.pager.conn
    cases op with
    | read p =>
      have hr := h.bufs.read p
      have hu : Unchanged t.pager.conn (t.pager.read p).2.conn := by
        rw [hr.conn]
        exact hrefl.1.readPage p
      refine h.unchanged ?_
      simp only [RcPager.run]
      rcases hread : t.pager.read p with ⟨r, s⟩
      rw [hread] at hr hu
      cases r with
      | error e => exact ⟨hu, hr.bufs⟩
      | ok buf =>
        refine ⟨hu, hr.bufs.cached, fun x hx => ?_⟩
        obtain rfl | hx := List.mem_cons.1 hx
        · exact ⟨hr.used buf rfl, rfl⟩
        · exact hr.bufs.held x hx
    | drop k =>
      refine h.unchanged ⟨hrefl.1, h.bufs.cached, fun x hx => h.bufs.held x (List.mem_of_mem_eraseIdx hx)⟩
    | editPage p bytes => exact h.unchanged (hkeeps.edit p _ t.pager hrefl)
    | allocatePage => exact h.unchanged (allocatePage_keeps hkeeps t.pager hrefl)
    | deallocatePage p => exact h.unchanged (deallocatePage_keeps hkeeps p t.pager hrefl)
    | rollback =>
      exact h.unchanged ⟨⟨rfl, rfl, rfl, rfl, rfl, rfl, h.synced.cached⟩, h.bufs.setConn fun _ _ hc => hc⟩
    | beginImmediate => exact h.unchanged ⟨hrefl.1.setTxLock _, h.bufs.setConn fun _ _ hc => hc⟩
    | beginExclusive => exact h.unchanged ⟨hrefl.1.setTxLock _, h.bufs.setConn fun _ _ hc => hc⟩
    | flush nonce salts => exact h.flush hps hc

/-- **The cache is not observable.** In every run of one connection, on any
files and in either journal mode, whose flushes meet `FlushClean`: the
handle that `read_page(p)` returns shows the unflushed content of the page
if it has one, or else the content of its last commit, and every handle
that a caller has kept shows the bytes it was handed out for. -/
theorem reads_last_commit (ps : UInt32) (hps : validPageSize ps) (t : RcRun)
    (hreach : ((handles ps).restrict (FlushClean ps)).Reachable t) :
    (∀ p b, t.expected p = .ok b → (t.pager.read p).1.map (t.pager.read p).2.mem = .ok b) ∧
      ∀ x ∈ t.pager.held, t.pager.mem x.1 = x.2 := by
  have hi := (handles_inductive hps).reachable t hreach
  refine ⟨fun p b hb => ?_, fun x hx => (hi.bufs.held x hx).2⟩
  rw [(hi.bufs.read p).value, readPage_eq hi.synced.cached]
  unfold RcRun.expected at hb
  cases hd : t.pager.conn.pager.dirty[p]? with
  | some page => simpa only [hd] using hb
  | none =>
    simp only [hd] at hb
    exact hi.committed p b hb

/-! ## A page past the page count

The header says that the database has one page, and the file has two. The
caller reads page 2; then `allocate_page` extends the database by page 2,
without dropping it from the cache, and the flush writes it. -/

def longConn : Conn :=
  ⟨⟨onePage 7 ++ List.replicate 512 3, none, none, none, true⟩,
    ⟨.shared, none, ∅, ∅, .new defaultPageCacheCapacity, 512, .legacy, .full⟩⟩

theorem open_longConn : Pager.open longConn.disk 512 = .ok longConn := by
  have h1 : readMain (onePage 7 ++ List.replicate 512 3) 512 1 = .ok (onePage 7) := by decide +kernel
  have hm : journalModeFromPage1 (onePage 7) = .legacy := by decide +kernel
  simp only [Pager.open, openOps, longConn, Disk.files, runOps_nil, Disk.setFiles, readWalPages, h1, hm]

def longStart : RcRun := ⟨⟨longConn, fun _ => 0, fun _ => [], 0, []⟩, longConn.readCommitted⟩

theorem longStart_reachable {P : RcRun → RcOp → Prop} : ((handles 512).restrict P).Reachable longStart :=
  ⟨longStart, [], ⟨⟨longConn.disk, open_longConn⟩, rfl, rfl⟩, .nil _⟩

theorem reachable_rc {P : RcRun → RcOp → Prop} {t : RcRun} (h : ((handles ps).restrict P).Reachable t) (op : RcOp)
    (hop : P t op) : ((handles ps).restrict P).Reachable (t.next op) := h.step ⟨rfl, hop⟩

def extended : RcRun := ((longStart.next (.read 2)).next .allocatePage).next (.flush 5 (0, 0))

/-- **Counterexample**: page 2 was committed as zeros, and the read returns
what it was before. -/
theorem stale_after_extend :
    (handles 512).Reachable extended ∧ extended.expected 2 = .ok (List.replicate 512 0) ∧
      (extended.pager.read 2).1.map (extended.pager.read 2).2.mem = .ok (List.replicate 512 3) := by
  have hread : ((handles 512).restrict fun _ _ => True).Reachable (longStart.next (.read 2)) :=
    reachable_rc longStart_reachable _ trivial
  have hall : ((handles 512).restrict fun _ _ => True).Reachable extended :=
    reachable_rc (reachable_rc hread .allocatePage trivial) (.flush 5 (0, 0)) trivial
  exact ⟨hall.of_restrict, by decide +kernel⟩

/-! An edit of page 1 meets the condition. -/

def longEdited : RcRun := (longStart.next (.read 1)).next (.editPage 1 (onePage 9))

theorem longEdited_clean : FlushClean 512 longEdited (.flush 5 (0, 0)) := by
  have hstate : longEdited.pager.conn.pager.journalMode = .legacy ∧
      headerPageCount longEdited.pager.conn.disk.main 512 = .ok 1 ∧
      (∀ w ∈ longEdited.pager.conn.pager.dirty.toList, w.1 ≠ 0 ∧ w.2.length = 512 ∧
        longEdited.pager.conn.pager.pageCache.content w.1 = none) ∧
      ((toJournal 1 longEdited.pager.conn.pager.dirty).all fun p =>
        (Vfs.readPage longEdited.pager.conn.disk.main 512 p).isOk) = true ∧
      ∀ w ∈ longEdited.pager.conn.pager.dirty.toList, longEdited.pager.conn.pager.walPages[w.1]? = none := by
    decide +kernel
  obtain ⟨hm, hcount, hpages, hjournal, hshadow⟩ := hstate
  refine .inr ⟨⟨hpages, fun _ count hc p hp => ?_, fun hw => ?_⟩, fun _ => hshadow⟩
  · cases hcount.symm.trans hc
    have hok := List.all_eq_true.1 hjournal p hp
    cases hr : Vfs.readPage longEdited.pager.conn.disk.main 512 p with
    | ok c => exact ⟨c, rfl⟩
    | error e => rw [hr] at hok; cases hok
  · cases hm.symm.trans hw

theorem edit_reads_back :
    (∀ p b, (longEdited.next (.flush 5 (0, 0))).expected p = .ok b →
        ((longEdited.next (.flush 5 (0, 0))).pager.read p).1.map
          ((longEdited.next (.flush 5 (0, 0))).pager.read p).2.mem = .ok b) ∧
      ∀ x ∈ (longEdited.next (.flush 5 (0, 0))).pager.held,
        (longEdited.next (.flush 5 (0, 0))).pager.mem x.1 = x.2 := by
  have hedited : ((handles 512).restrict (FlushClean 512)).Reachable longEdited :=
    reachable_rc (reachable_rc longStart_reachable (.read 1) trivial) (.editPage 1 (onePage 9)) trivial
  exact reads_last_commit 512 (by decide) _ (reachable_rc hedited (.flush 5 (0, 0)) longEdited_clean)

end DbStorage.Pager
