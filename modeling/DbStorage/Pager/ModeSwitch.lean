import DbStorage.Pager.Cluster

/-!
# Leaving WAL mode next to another connection (`pager/mod.rs`)

`set_journal_mode(Legacy)` copies the WAL into the main file through a
handle of its own, deletes the WAL and drops the overlay. Of the page cache
it drops page 1 only. Here one connection of a `cluster` makes the call
after any interleaving of all connections; the call runs to its end before
another connection goes on, and no other connection's reader mark holds its
checkpoint back (if one does, the call returns an error).

Results: `switch_reads_committed` (if `SwitchClean` holds when the call is
made and it returns `Ok`, the connection reads every page as a fresh open
does, and as it was last committed) and `switch_reads_stale` (a page that
was cached before another connection committed it).
-/
namespace DbStorage.Pager
open Bytes Vfs Wal Std

variable {ps : UInt32} {s t : Conn}

/-- What the switch needs of the files and of this connection's cache: no
page but page 1 is cached that has a frame in the WAL; the WAL's pages are
pages of the committed database, in a file whose frames a `u32` counts; and
a mark that says all its frames are in the main file tells the truth. -/
structure SwitchClean (ps : UInt32) (s : Conn) : Prop where
  cache : ∀ m, readWalPages s.disk.wal ps = .ok m → ∀ p c, p ≠ 1 →
    s.pager.pageCache.content p = some c → m[p]? = none
  range : ∀ wal h, s.disk.wal = some wal → WalHeader.parse wal = .ok h →
    PagesInRange h wal ∧ slots h wal < 2 ^ 32
  mark : ∀ wal h, s.disk.wal = some wal → WalHeader.parse wal = .ok h →
    (s.disk.nBackfill.getD 0).toNat = slots h wal → Holds ps s.disk.main s.disk.main (committedPages h wal).1

/-! ## The checkpoint -/

theorem holds_empty (main : Bytes) : Holds ps main main ∅ where
  page p c hp := by
    rw [ExtTreeMap.getElem?_empty] at hp
    cases hp
  other _ _ _ h := h

variable {h : WalHeader} {wal : Bytes} {m : PageMap}

theorem holds_of_no_frames (hl : headerLen ≤ wal.length) (hs : slots h wal = 0) (main : Bytes) :
    Holds ps main main (committedPages h wal).1 := by
  have hnil : frames h wal = [] := List.length_eq_zero_iff.1 (Nat.le_zero.1 (hs ▸ frames_length_le hl))
  refine ⟨fun p c hp => ?_, fun _ _ _ hc => hc⟩
  rw [committedPages_getElem?, hnil] at hp
  cases hp

/-- A pass that copies nothing leaves the files as they are. -/
theorem Disk.republish (d : Disk) :
    { d with main := d.main, shm := if d.walIndex then d.nBackfill else d.shm } = d := by
  obtain ⟨main, journal, wal, shm, walIndex⟩ := d
  cases walIndex <;> rfl

variable {r : CheckpointResult} {salts : UInt32 × UInt32}

/-- A pass that copies all frames reports completion. -/
theorem planPass_complete {already safe : UInt32} {n : Nat} {pages : List (UInt32 × Bytes)} (hs : slots h wal < 2 ^ 32)
    (hp : planPass h wal [] already n = .copy pages safe r) (hsafe : safe.toNat = slots h wal) :
    r.checkpointComplete = true := by
  have htot : safe = totalFrames h wal := UInt32.toNat_inj.1 (hsafe.trans (totalFrames_toNat hs).symm)
  simp only [planPass] at hp
  split at hp
  · cases hp
  · split at hp
    · cases hp
    · split at hp <;> cases hp
      simp only [htot, beq_self_eq_true]

/-- One pass: it copies everything, or nothing and then says whether anything
was left to copy. -/
theorem checkpoint_pass {d : Disk} (hc : SwitchClean ps s) (hov : readWalPages s.disk.wal ps = .ok m)
    (h : s.disk.checkpoint ps = .ok (r, d)) :
    d.journal = s.disk.journal ∧
      (d = s.disk ∧ (r.checkpointComplete = true → Holds ps s.disk.main d.main m) ∨
        r.checkpointComplete = true ∧ Holds ps s.disk.main d.main m) := by
  unfold Disk.checkpoint at h
  cases hck : checkpointPassive s.disk.main s.disk.wal [] s.disk.nBackfill ps with
  | error e => rw [hck] at h; cases h
  | ok x =>
    rw [hck] at h
    cases h
    refine ⟨rfl, ?_⟩
    unfold checkpointPassive at hck
    cases hw : s.disk.wal with
    | none =>
      rw [hw] at hck hov
      cases hck
      cases hov
      rw [← hw]
      exact .inl ⟨s.disk.republish, fun _ => holds_empty _⟩
    | some wal =>
      rw [hw] at hck hov
      obtain hl | ⟨hd, hp, rfl, rfl⟩ := readWalPages_some hov
      · simp only [if_pos hl] at hck
        simp only [readWalPages, if_pos hl] at hov
        cases hck
        cases hov
        rw [← hw]
        exact .inl ⟨s.disk.republish, fun _ => holds_empty _⟩
      · have hlen := parse_length hp
        have hnl : ¬ wal.length < headerLen := Nat.not_lt.2 hlen
        obtain ⟨hrange, hslots⟩ := hc.range wal hd hw hp
        simp only [if_neg hnl, hp, bind, Except.bind, ne_eq, not_true, if_false] at hck
        obtain ⟨r', hplan, hcomp⟩ | ⟨safe, r', hplan, hsafe⟩ :=
          planPass_nil hd wal (s.disk.nBackfill.getD 0) s.disk.main.length hslots
        · rw [hplan] at hck
          cases hck
          rw [← hw]
          refine .inl ⟨s.disk.republish, fun hcompl => ?_⟩
          obtain h0 | hmark := hcomp hcompl
          · exact holds_of_no_frames hlen h0 _
          · exact hc.mark wal hd hw hp hmark
        · rw [hplan] at hck
          cases hck
          exact .inr ⟨planPass_complete hslots hplan hsafe,
            pass_copies hp hrange (Nat.le_of_eq hsafe.symm) fun _ _ _ hread => hread⟩

/-- The passes end with every committed page in the main file. -/
theorem checkpointAll_holds {d : Disk} {n : Nat} (hc : SwitchClean ps s) (hov : readWalPages s.disk.wal ps = .ok m)
    (h : s.disk.checkpointAll ps n = (.ok (), d)) : d.journal = s.disk.journal ∧ Holds ps s.disk.main d.main m := by
  induction n with
  | zero => cases h
  | succ n ih =>
    unfold Disk.checkpointAll at h
    cases hck : s.disk.checkpoint ps with
    | error e => rw [hck] at h; cases h
    | ok rd =>
      obtain ⟨r, d₁⟩ := rd
      obtain ⟨hj, hpass⟩ := checkpoint_pass hc hov hck
      simp only [hck] at h
      obtain ⟨rfl, hdone⟩ | ⟨hcomplete, hholds⟩ := hpass
      · split at h
        · cases h
          exact ⟨hj, hdone ‹_›⟩
        · exact ih h
      · rw [if_pos hcomplete] at h
        cases h
        exact ⟨hj, hholds⟩

/-! ## The whole call -/

/-- Page 1 with the version bytes of rollback-journal mode. -/
def legacyVersion (page1 : Bytes) : Bytes := writeAt page1 [1, 1] 18

theorem writeVersion_ok (hsize : s.pager.pageSize = ps) (h : s.writeVersion .legacy = (.ok (), t)) :
    ∃ page1, readMain s.disk.main ps 1 = .ok page1 ∧ (legacyVersion page1).length = ps.toNat ∧
      t = Conn.setCache ⟨{ s.disk with main := Vfs.writePages s.disk.main ps [(1, legacyVersion page1)] }, s.pager⟩
        (s.pager.pageCache.invalidate 1) := by
  unfold Conn.writeVersion at h
  rw [hsize] at h
  split at h
  · cases h
  rename_i page1 h1
  split at h
  · cases h
  rename_i page1' hpatch
  split at h
  · cases h
  rename_i main hw
  have hlen := readPage_length (readMain_ok.1 h1)
  unfold patchJournalModeBytes at hpatch
  split at hpatch
  · rename_i h20
    cases hpatch
    have hver : (legacyVersion page1).length = ps.toNat := by
      rw [legacyVersion, writeAt_length, ← hlen]
      simp only [List.length_cons, List.length_nil]
      omega
    simp only [reduceCtorEq, if_false] at hw
    rw [← legacyVersion, writePage_ok (by decide) hver] at hw
    cases hw
    cases h
    exact ⟨page1, h1, hver, rfl⟩
  · cases hpatch

theorem setJournalMode_legacy (hsize : s.pager.pageSize = ps) (hm : s.pager.journalMode = .wal)
    (h : s.setJournalMode .legacy salts = (.ok (), t)) :
    s.pager.dirty = ∅ ∧ ∃ d page1, s.disk.checkpointAll ps maxPasses = (.ok (), d) ∧
      readMain d.main ps 1 = .ok page1 ∧ (legacyVersion page1).length = ps.toNat ∧
      t = ⟨{ d with main := Vfs.writePages d.main ps [(1, legacyVersion page1)], wal := none, shm := none },
        { s.pager with
          walPages := ∅
          walResume := none
          journalMode := .legacy
          pageCache := s.pager.pageCache.invalidate 1 }⟩ := by
  subst hsize
  unfold Conn.setJournalMode at h
  split at h
  · cases h
  rename_i hpending
  rw [hm] at h
  simp only [reduceCtorEq, if_false, Conn.switchTo, Conn.switchWalToJournal] at h
  have hclean : s.pager.dirty = ∅ := by
    simp only [Bool.or_eq_true, Bool.not_eq_true', not_or, Bool.not_eq_false] at hpending
    exact ExtTreeMap.isEmpty_iff.1 hpending.1
  cases hall : s.disk.checkpointAll s.pager.pageSize maxPasses with
  | mk r d =>
    rw [hall] at h
    cases r with
    | error e => cases h
    | ok u =>
      simp only at h
      obtain ⟨page1, h1, hver, rfl⟩ := writeVersion_ok rfl h
      exact ⟨hclean, d, page1, rfl, h1, hver, rfl⟩

/-- After the call the connection is in step with the files, and every
committed page is in the main file. -/
theorem switched (hps : 0 < ps.toNat) (hsize : s.pager.pageSize = ps) (hm : s.pager.journalMode = .wal)
    (hcold : ∀ j, s.disk.journal = some j → journalIsHot j = false) (hcache : CacheOk s)
    (hov : readWalPages s.disk.wal ps = .ok m) (hc : SwitchClean ps s)
    (h : s.setJournalMode .legacy salts = (.ok (), t)) :
    Synced ps t ∧ t.pager.dirty = ∅ ∧ t.pager.walPages = ∅ ∧
      ∀ p c, (match m[p]? with
          | some c => .ok c
          | none => readMain s.disk.main ps p) = Except.ok (ε := PagerError) c →
        readMain t.disk.main ps p = .ok (if p = 1 then legacyVersion c else c) := by
  obtain ⟨hd, d, page1, hall, h1, hver, rfl⟩ := setJournalMode_legacy hsize hm h
  obtain ⟨hj, hholds⟩ := checkpointAll_holds hc hov hall
  have hw : ∀ w ∈ [((1 : UInt32), legacyVersion page1)], w.1 ≠ 0 ∧ w.2.length = ps.toNat := by
    intro w hw
    rw [List.mem_singleton.1 hw]
    exact ⟨fun h0 : (1 : UInt32) = 0 => absurd h0 (by decide), hver⟩
  -- the connection before the version bytes are written
  have hbefore : Synced ps ⟨{ d with wal := none, shm := none },
      { s.pager with
        walPages := ∅
        walResume := none
        journalMode := .legacy
        pageCache := s.pager.pageCache.invalidate 1 }⟩ := by
    refine ⟨hsize, hj ▸ hcold, ⟨page1, h1⟩, rfl, fun p c hp => ⟨ExtTreeMap.getElem?_empty, ?_⟩, nofun⟩
    obtain ⟨hinv, hsub⟩ := s.pager.pageCache.content_invalidate 1
    have hne : p ≠ 1 := by
      rintro rfl
      rw [hinv] at hp
      cases hp
    have hread := (hcache p c (hsub p c hp)).2
    rw [hsize] at hread ⊢
    exact readMain_ok.2 (hholds.other p c (hc.cache m hov p c hne (hsub p c hp)) (readMain_ok.1 hread))
  refine ⟨hbefore.writePages hps hw (fun w hw => ?_) rfl rfl (hj ▸ hcold), hd, rfl, fun p c hp => ?_⟩
  · rw [List.mem_singleton.1 hw]
    exact (s.pager.pageCache.content_invalidate 1).1
  · have hmain : readPage d.main ps p = .ok c := by
      cases hmp : m[p]? with
      | some c' =>
        rw [hmp] at hp
        cases hp
        exact hholds.page p c hmp
      | none =>
        rw [hmp] at hp
        exact hholds.other p c hmp (readMain_ok.1 hp)
    have hwrite := readPage_writePages d.main p hps hw
    rw [readMain_ok]
    by_cases hp1 : p = 1
    · subst hp1
      rw [readMain_ok.1 h1] at hmain
      cases hmain
      rw [if_pos rfl]
      exact hwrite
    · rw [if_neg hp1]
      have hnone : lastWrite [((1 : UInt32), legacyVersion page1)] p = none := by
        rw [lastWrite_eq_none]
        rintro w hw rfl
        exact hp1 (by rw [List.mem_singleton.1 hw])
      rw [hnone] at hwrite
      exact hwrite c hmain

/-! ## Whole runs -/

/-- A party that has made a call is as current as it was, whoever else is. -/
theorem Current.after {w : Cluster} {i : Nat} {pt : Party} (h : Current w i pt) (op : PagerOp) (pager : Pager) :
    Current (w.after i pt op) i ⟨pager, pt.base⟩ := by
  intro j u hb hj
  simp only [Cluster.after] at hj
  split at hj
  · rcases Nat.lt_or_ge j w.log.length with hlt | hge
    · rw [List.getElem?_append_left hlt] at hj
      exact h j u hb hj
    · rw [List.getElem?_append_right hge] at hj
      rw [List.mem_singleton.1 (List.mem_of_getElem? hj)]
  · exact h j u hb hj

/-- Once a connection is open, the WAL can be read. -/
theorem readable_inductive {disk₀ : Disk} (hps : validPageSize ps) :
    ((cluster ps disk₀).restrict (CurrentWriter ps)).Inductive fun w => ClusterInv ps disk₀ w ∧
      ((∃ i pt, w.parties i = some pt) → ∃ m, readWalPages w.disk.wal ps = .ok m) where
  init w hw := by
    refine ⟨(cluster_inductive hps).init w hw, ?_⟩
    obtain ⟨-, rfl⟩ := hw
    rintro ⟨i, pt, hpt⟩
    cases hpt
  step w op w' h hs := by
    have hinv := (cluster_inductive hps).step w op w' h.1 hs
    refine ⟨hinv, fun _ => ?_⟩
    obtain ⟨hstep, hop⟩ := hs
    cases op with
    | join i =>
      obtain ⟨-, c, hopen, rfl⟩ := hstep
      exact ⟨_, (Synced.open hopen).1.overlay⟩
    | call i op =>
      obtain ⟨hkind, pt, hpt, rfl⟩ := hstep
      have hbefore := h.2 ⟨i, pt, hpt⟩
      obtain hedit | hflush := hkind
      · have hdisk := (run_unchanged (h.1.party i pt hpt).cached hedit).disk
        simp only [Cluster.after, hdisk]
        exact hbefore
      · cases op with
        | flush nonce salts =>
          obtain hempty | ⟨hcur, -⟩ := hop pt hpt
          · simp only [Cluster.after, Conn.run, Conn.flush, hempty, if_true]
            exact hbefore
          · -- the party that flushed is current, so its overlay is the WAL's
            exact ⟨_, (hinv.party i _ (Function.update_self ..)).current (hcur.after _ _)⟩
        | _ => cases hflush

/-- **Leaving WAL mode.** In every run of any number of connections on one
database in WAL mode whose flushes meet `CurrentWriter`: if a connection for
which `SwitchClean` holds calls `set_journal_mode(Legacy)` and gets `Ok`, a
fresh open succeeds, the connection reads every page as it does, and every
page that was committed reads as it was last committed (page 1 with the
version bytes of rollback-journal mode). -/
theorem switch_reads_committed (ps : UInt32) (hps : validPageSize ps) (disk₀ : Disk) (w : Cluster)
    (hreach : ((cluster ps disk₀).restrict (CurrentWriter ps)).Reachable w) (i : Nat) (pt : Party)
    (hpt : w.parties i = some pt) (hclean : SwitchClean ps ⟨w.disk, pt.pager⟩) (salts : UInt32 × UInt32)
    (t : Conn) (hok : Conn.setJournalMode .legacy salts ⟨w.disk, pt.pager⟩ = (.ok (), t)) :
    (∃ fresh, Pager.open t.disk ps = .ok fresh ∧ ∀ p, (fresh.readPage p).1 = (t.readPage p).1) ∧
      ∀ p c, viewAfter (committedView disk₀ ps) w.log p = .ok c →
        (t.readPage p).1 = .ok (if p = 1 then legacyVersion c else c) := by
  obtain ⟨hi, hreadable⟩ := (readable_inductive hps).reachable w hreach
  have hparty := hi.party i pt hpt
  obtain ⟨m, hov⟩ := hreadable ⟨i, pt, hpt⟩
  obtain ⟨hs, hd, hpages, hread⟩ := switched hps.pos hparty.size hparty.mode hi.database.cold hparty.cached hov
    hclean hok
  refine ⟨reopen_reads hs hd, fun p c hc => ?_⟩
  have hview : committedView w.disk ps p = .ok c := (hi.history.final p).trans hc
  simp only [committedView, hov] at hview
  rw [readPage_clean hs.cached hd, Conn.readCommitted, hpages, hs.size]
  simp only [ExtTreeMap.getElem?_empty]
  exact hread p c hview

/-! ## A page cached before it was committed

A database of two pages. The first connection reads page 2, the second
changes it and commits, and the first leaves WAL mode. -/

def twoPages : Bytes :=
  List.replicate 18 0 ++ [2, 2] ++ List.replicate 8 0 ++ [0, 0, 0, 2] ++ List.replicate 480 0 ++
    List.replicate 512 7

def twoPageDisk : Disk := ⟨twoPages, none, some (walOf header512 []), some 0, true⟩

def twoJoined : Cluster := ((⟨twoPageDisk, fun _ => none, []⟩ : Cluster).joined 512 0).joined 512 1

def committedBehind : Cluster :=
  ((twoJoined.call 0 (.readPage 2)).call 1 (.editPage 2 (List.replicate 512 9))).call 1 (.flush 0 (0, 0))

theorem committedBehind_reachable : (cluster 512 twoPageDisk).Reachable committedBehind := by
  have hdb : WalDatabase 512 twoPageDisk := by
    refine ⟨fun j hj => ?_, twoPages.take 512, by decide +kernel, by decide +kernel⟩
    cases hj
  have h0 : ((cluster 512 twoPageDisk).restrict fun _ _ => True).Reachable ⟨twoPageDisk, fun _ => none, []⟩ :=
    ⟨_, [], ⟨hdb, rfl⟩, .nil _⟩
  have hfree : ((⟨twoPageDisk, fun _ => none, []⟩ : Cluster).joined 512 0).parties 1 = none := by
    unfold Cluster.joined
    split <;> rfl
  have hjoined : ((cluster 512 twoPageDisk).restrict fun _ _ => True).Reachable twoJoined :=
    reachable_joined (reachable_joined h0 rfl trivial) hfree trivial
  exact (reachable_call (reachable_call (reachable_call hjoined (.inl rfl) trivial) (.inl rfl) trivial)
    (.inr rfl) trivial).of_restrict

/-- **Counterexample**: the call returns `Ok`, and the connection still reads
page 2 as it was before the other one's commit. -/
theorem switch_reads_stale :
    ∃ w pt t, (cluster 512 twoPageDisk).Reachable w ∧ w.parties 0 = some pt ∧
      Conn.setJournalMode .legacy (0, 0) ⟨w.disk, pt.pager⟩ = (.ok (), t) ∧
      viewAfter (committedView twoPageDisk 512) w.log 2 = .ok (List.replicate 512 9) ∧
      (t.readPage 2).1 = .ok (List.replicate 512 7) := by
  have hrun : viewAfter (committedView twoPageDisk 512) committedBehind.log 2 = .ok (List.replicate 512 9) ∧
      ((committedBehind.parties 0).map fun pt =>
        let r := Conn.setJournalMode .legacy (0, 0) ⟨committedBehind.disk, pt.pager⟩
        (r.1.isOk, (r.2.readPage 2).1)) = some (true, .ok (List.replicate 512 7)) := by decide +kernel
  cases hpt : committedBehind.parties 0 with
  | none => rw [hpt] at hrun; cases hrun.2
  | some pt =>
    rw [hpt] at hrun
    have hread := Option.some.inj hrun.2
    cases hr : Conn.setJournalMode .legacy (0, 0) ⟨committedBehind.disk, pt.pager⟩ with
    | mk r t =>
      simp only [hr, Prod.mk.injEq] at hread
      cases r with
      | error e => cases hread.1
      | ok u => exact ⟨_, pt, t, committedBehind_reachable, hpt, hr, hrun.1, hread.2⟩

/-! The second connection of `firstCommitted` has cached nothing. -/

/-- A WAL with frames of page 1 only is clean for any connection. -/
theorem SwitchClean.page1_only {disk : Disk} (hw : disk.wal = some wal) (hp : WalHeader.parse wal = .ok h)
    (hsize : h.pageSize = ps) (hone : ∀ w ∈ (committedPages h wal).1.toList, w.1 = 1) (hrange : PagesInRange h wal)
    (hslots : slots h wal < 2 ^ 32) (hmark : (disk.nBackfill.getD 0).toNat ≠ slots h wal) (pager : Pager) :
    SwitchClean ps ⟨disk, pager⟩ where
  cache m hm p c hne _ := by
    rw [show readWalPages disk.wal ps = .ok (committedPages h wal).1 by rw [hw, ← hsize, readWalPages_ok hp]] at hm
    cases hm
    refine Option.eq_none_iff_forall_ne_some.2 fun b hb => hne ?_
    exact hone (p, b) (ExtTreeMap.mem_toList_iff_getElem?_eq_some.2 hb)
  range wal' h' hw' hp' := by
    cases hw.symm.trans hw'
    cases hp.symm.trans hp'
    exact ⟨hrange, hslots⟩
  mark wal' h' hw' hp' heq := by
    cases hw.symm.trans hw'
    cases hp.symm.trans hp'
    exact absurd heq hmark

theorem firstCommitted_clean (pager : Pager) : SwitchClean 512 ⟨firstCommitted.disk, pager⟩ := by
  have hwal : firstCommitted.disk.wal = some (firstCommitted.disk.wal.getD []) :=
    LTS.followed_getD (by decide +kernel)
  have hfile : WalHeader.parse (firstCommitted.disk.wal.getD []) = .ok header512 ∧
      (∀ w ∈ (committedPages header512 (firstCommitted.disk.wal.getD [])).1.toList, w.1 = 1) ∧
      (∀ f ∈ committed (frames header512 (firstCommitted.disk.wal.getD [])), f.pageNumber ≠ 0 ∧
        f.pageNumber ≤ lastSize (frames header512 (firstCommitted.disk.wal.getD []))) ∧
      slots header512 (firstCommitted.disk.wal.getD []) < 2 ^ 32 ∧
      (firstCommitted.disk.nBackfill.getD 0).toNat ≠ slots header512 (firstCommitted.disk.wal.getD []) := by
    decide +kernel
  obtain ⟨hp, hone, hrange, hslots, hmark⟩ := hfile
  exact .page1_only hwal hp rfl hone hrange hslots hmark pager

/-- It reads the first one's commit after the call. -/
theorem second_reads_commit :
    ∃ pt t, firstCommitted.parties 1 = some pt ∧
      Conn.setJournalMode .legacy (0, 0) ⟨firstCommitted.disk, pt.pager⟩ = (.ok (), t) ∧
      (∃ fresh, Pager.open t.disk 512 = .ok fresh ∧ ∀ p, (fresh.readPage p).1 = (t.readPage p).1) ∧
      ∀ p c, viewAfter (committedView sharedDisk 512) firstCommitted.log p = .ok c →
        (t.readPage p).1 = .ok (if p = 1 then legacyVersion c else c) := by
  have hrun : ((firstCommitted.parties 1).map fun pt =>
      (Conn.setJournalMode .legacy (0, 0) ⟨firstCommitted.disk, pt.pager⟩).1.isOk) = some true := by
    decide +kernel
  cases hpt : firstCommitted.parties 1 with
  | none => rw [hpt] at hrun; cases hrun
  | some pt =>
    rw [hpt] at hrun
    have hok := Option.some.inj hrun
    cases hr : Conn.setJournalMode .legacy (0, 0) ⟨firstCommitted.disk, pt.pager⟩ with
    | mk r t =>
      simp only [hr] at hok
      cases r with
      | error e => cases hok
      | ok u =>
        exact ⟨pt, t, rfl, hr, switch_reads_committed 512 (by decide) sharedDisk firstCommitted
          firstCommitted_reachable 1 pt hpt (firstCommitted_clean pt.pager) (0, 0) t hr⟩

end DbStorage.Pager
