import DbStorage.Pager.Reopen

/-!
# Several connections on one WAL database

The system `cluster` has any number of connections, each a process of its
own, on the files of one database in WAL mode. A connection takes its
snapshot when it opens; it reads, edits, allocates, rolls back and flushes,
in any interleaving with the others. A flush holds the WAL's write lock and
no other call writes, so calls are single steps.

The ghost `log` lists the committed transactions: the connection, how many
transactions its snapshot held, what it read of the pages it did not
change, and the pages it wrote.

Results: `committed_serially`: in every run in which each flush comes from
a connection that has seen all commits (`CurrentWriter`), the committed
states form one serial history. `stale_writer_commits` shows that
`flush_wal_locked` does not check this: a writer with an old snapshot
returns `Ok` and the transaction it never saw is gone.
-/
namespace DbStorage.Pager
open Bytes Vfs Wal Std

/-- A committed transaction. -/
structure Txn where
  conn : Nat
  /-- How many transactions its snapshot held. -/
  base : Nat
  /-- What the connection read of the pages it did not change. -/
  view : UInt32 → Except PagerError Bytes
  writes : List (UInt32 × Bytes)

/-- A connection, and how many transactions its snapshot holds. -/
structure Party where
  pager : Pager
  base : Nat

structure Cluster where
  disk : Disk
  parties : Nat → Option Party
  log : List Txn

/-- What a connection reads of the pages it has not changed. -/
def Conn.view (s : Conn) (p : UInt32) : Except PagerError Bytes :=
  (Conn.readPage p { s with pager.dirty := ∅ }).1

/-- Party `i` makes the call `op`; a flush of dirty pages that returns `Ok` is
logged. -/
def Cluster.after (s : Cluster) (i : Nat) (pt : Party) (op : PagerOp) : Cluster :=
  let c : Conn := ⟨s.disk, pt.pager⟩
  let r := c.run op
  { disk := r.2.disk
    parties := Function.update s.parties i (some ⟨r.2.pager, pt.base⟩)
    log := if op.isFlush && r.1 && !pt.pager.dirty.isEmpty then
        s.log ++ [⟨i, pt.base, c.view, pt.pager.dirty.toList⟩]
      else s.log }

inductive ClusterOp where
  | join (i : Nat)
  | call (i : Nat) (op : PagerOp)

/-- A database in WAL mode that no crashed commit has left a journal for. -/
structure WalDatabase (ps : UInt32) (disk : Disk) : Prop where
  cold : ∀ j, disk.journal = some j → journalIsHot j = false
  page1 : ∃ c, readMain disk.main ps 1 = .ok c ∧ journalModeFromPage1 c = .wal

/-- Connections in WAL mode at `synchronous = Full`: no call changes either. -/
def cluster (ps : UInt32) (disk₀ : Disk) : LTS Cluster ClusterOp where
  init s := WalDatabase ps disk₀ ∧ s = ⟨disk₀, fun _ => none, []⟩
  step s op s' := match op with
    | .join i => s.parties i = none ∧ ∃ c, Pager.open s.disk ps = .ok c ∧
        s' = ⟨c.disk, Function.update s.parties i (some ⟨c.pager, s.log.length⟩), s.log⟩
    | .call i op => (op.isEdit = true ∨ op.isFlush = true) ∧
        ∃ pt, s.parties i = some pt ∧ s' = s.after i pt op

/-! ## Serial histories -/

/-- The transactions of a log, one after the other, over `v`. -/
def viewAfter (v : UInt32 → Except PagerError Bytes) (log : List Txn) (p : UInt32) :
    Except PagerError Bytes :=
  match lastWrite (log.flatMap Txn.writes) p with
  | some c => .ok c
  | none => v p

/-- The committed states form one serial history over `v`. -/
structure SerialHistory (v : UInt32 → Except PagerError Bytes) (ps : UInt32) (s : Cluster) : Prop where
  /-- No other connection committed between a transaction's snapshot and its commit. -/
  serial : ∀ (k : Nat) (t : Txn), s.log[k]? = some t →
    ∀ (j : Nat) (u : Txn), t.base ≤ j → j < k → s.log[j]? = some u → u.conn = t.conn
  /-- A transaction read the state that the ones before it left. -/
  view : ∀ (k : Nat) (t : Txn), s.log[k]? = some t → ∀ p, t.view p = viewAfter v (s.log.take k) p
  /-- What is committed is what the transactions wrote, in order. -/
  final : ∀ p, committedView s.disk ps p = viewAfter v s.log p

/-- No other connection has committed since party `i` took its snapshot. -/
def Current (s : Cluster) (i : Nat) (pt : Party) : Prop :=
  ∀ (j : Nat) (u : Txn), pt.base ≤ j → s.log[j]? = some u → u.conn = i

/-- The condition on a step: a flush of dirty pages comes from a connection
that has seen all commits, and is sound. -/
def CurrentWriter (ps : UInt32) (s : Cluster) : ClusterOp → Prop
  | .call i (.flush _ _) => ∀ pt, s.parties i = some pt → pt.pager.dirty.isEmpty = true ∨
      Current s i pt ∧ FlushSound ps ⟨s.disk, pt.pager⟩
  | _ => True

theorem viewAfter_concat (v : UInt32 → Except PagerError Bytes) (log : List Txn) (t : Txn) (p : UInt32) :
    viewAfter v (log ++ [t]) p = match lastWrite t.writes p with
      | some c => .ok c
      | none => viewAfter v log p := by
  unfold viewAfter
  rw [List.flatMap_append, lastWrite_append]
  simp only [List.flatMap_cons, List.flatMap_nil, List.append_nil]
  cases lastWrite t.writes p <;> rfl

/-! ## The invariant -/

variable {ps : UInt32} {disk₀ : Disk} {s : Cluster}

/-- What holds of a party, whether or not others have committed. -/
structure PartyInv (ps : UInt32) (s : Cluster) (i : Nat) (pt : Party) : Prop where
  base : pt.base ≤ s.log.length
  size : pt.pager.pageSize = ps
  mode : pt.pager.journalMode = .wal
  level : pt.pager.synchronous = .full
  cached : CacheOk ⟨s.disk, pt.pager⟩
  hint : ∀ x wal h, pt.pager.walResume = some x → s.disk.wal = some wal →
    WalHeader.parse wal = .ok h → HintOk h wal x
  absent : s.disk.wal = none → pt.pager.walResume = none
  current : Current s i pt → readWalPages s.disk.wal ps = .ok pt.pager.walPages

structure ClusterInv (ps : UInt32) (disk₀ : Disk) (s : Cluster) : Prop where
  database : WalDatabase ps s.disk
  party : ∀ i pt, s.parties i = some pt → PartyInv ps s i pt
  history : SerialHistory (committedView disk₀ ps) ps s

variable {i : Nat} {pt : Party} {t : Conn} {P : Cluster → ClusterOp → Prop}

/-- A party that has seen all commits is in step with the files. -/
theorem PartyInv.synced (h : PartyInv ps s i pt) (hw : WalDatabase ps s.disk) (hc : Current s i pt) :
    Synced ps ⟨s.disk, pt.pager⟩ := by
  obtain ⟨c, h1, -⟩ := hw.page1
  exact ⟨h.size, hw.cold, ⟨c, h1⟩, h.current hc, h.cached, h.hint⟩

theorem Synced.view_eq {c : Conn} (h : Synced ps c) (p : UInt32) : c.view p = committedView c.disk ps p := by
  have hc : CacheOk { c with pager.dirty := ∅ } := h.cached
  have hread := readPage_eq hc p
  rw [show ({ c with pager.dirty := ∅ } : Conn).pager.dirty[p]? = none from ExtTreeMap.getElem?_empty]
    at hread
  refine hread.trans ?_
  unfold committedView
  rw [h.overlay, ← h.size]
  rfl

/-- A party's view of the log does not depend on the files. -/
theorem Current.congr {pt' : Party} {s' : Cluster} (hlog : s'.log = s.log) (hbase : pt'.base = pt.base)
    (h : Current s' i pt') : Current s i pt := by
  unfold Current at h
  rwa [hlog, hbase] at h

variable {v : UInt32 → Except PagerError Bytes} {hd : WalHeader} {txn : List Frame} {parties : Nat → Option Party}

theorem SerialHistory.congr {s' : Cluster} (h : SerialHistory v ps s) (hlog : s'.log = s.log) (hdisk : s'.disk = s.disk) :
    SerialHistory v ps s' := by
  refine ⟨?_, ?_, ?_⟩
  · rw [hlog]; exact h.serial
  · rw [hlog]; exact h.view
  · rw [hlog, hdisk]; exact h.final

theorem update_eq_some {α : Type} {f : Nat → Option α} {j : Nat} {pt qt : α}
    (h : Function.update f i (some pt) j = some qt) : (j = i ∧ qt = pt) ∨ (j ≠ i ∧ f j = some qt) := by
  rcases eq_or_ne j i with rfl | hne
  · rw [Function.update_self] at h
    exact .inl ⟨rfl, (Option.some.inj h).symm⟩
  · rw [Function.update_of_ne hne] at h
    exact .inr ⟨hne, h⟩

/-- A step that changes one party only, and nothing that is committed. -/
theorem ClusterInv.update (h : ClusterInv ps disk₀ s) (hpt : PartyInv ps s i pt) :
    ClusterInv ps disk₀ ⟨s.disk, Function.update s.parties i (some pt), s.log⟩ := by
  refine ⟨h.database, fun j qt hj => ?_, h.history.congr rfl rfl⟩
  have hq : PartyInv ps s j qt := by
    rcases update_eq_some hj with ⟨rfl, rfl⟩ | ⟨-, hj⟩
    · exact hpt
    · exact h.party j qt hj
  exact ⟨hq.base, hq.size, hq.mode, hq.level, hq.cached, hq.hint, hq.absent,
    fun hc => hq.current (hc.congr rfl rfl)⟩

theorem ClusterInv.opened {c : Conn} (h : ClusterInv ps disk₀ s) (hopen : Pager.open s.disk ps = .ok c) :
    ClusterInv ps disk₀ ⟨c.disk, Function.update s.parties i (some ⟨c.pager, s.log.length⟩), s.log⟩ := by
  obtain ⟨hs, -⟩ := Synced.open hopen
  have hdisk : c.disk = s.disk ∧ c.pager.walResume = none ∧ c.pager.synchronous = .full ∧
      ∀ page1, readMain s.disk.main ps 1 = .ok page1 →
        c.pager.journalMode = journalModeFromPage1 page1 := by
    unfold Pager.open at hopen
    rw [openOps_cold h.database.cold] at hopen
    simp only [runOps_nil] at hopen
    split at hopen
    · cases hopen
    · split at hopen
      · cases hopen
      · rename_i page1 h1
        cases hopen
        refine ⟨rfl, rfl, rfl, fun page1' h1' => ?_⟩
        rw [show (s.disk.setFiles s.disk.files).main = s.disk.main from rfl] at h1
        rw [h1] at h1'
        cases h1'
        rfl
  obtain ⟨hd, hr, hl, hmode⟩ := hdisk
  obtain ⟨page1, h1, hwal⟩ := h.database.page1
  rw [hd]
  have hcached : CacheOk ⟨s.disk, c.pager⟩ := by rw [← hd]; exact hs.cached
  have hov := hs.overlay
  rw [hd] at hov
  exact h.update ⟨Nat.le_refl _, hs.size, (hmode page1 h1).trans hwal, hl, hcached,
    by simp [hr], fun _ => hr, fun _ => hov⟩

theorem ClusterInv.unchanged (h : ClusterInv ps disk₀ s) (hpt : s.parties i = some pt)
    (hu : Unchanged ⟨s.disk, pt.pager⟩ t) :
    ClusterInv ps disk₀ ⟨t.disk, Function.update s.parties i (some ⟨t.pager, pt.base⟩), s.log⟩ := by
  have hi := h.party i pt hpt
  rw [hu.disk]
  refine h.update ⟨hi.base, hu.size.trans hi.size, hu.mode.trans hi.mode, hu.level.trans hi.level, ?_,
    ?_, fun hn => hu.resume.trans (hi.absent hn), fun hc => ?_⟩
  · have := hu.cached
    unfold CacheOk at this ⊢
    rwa [hu.disk] at this
  · rw [hu.resume]; exact hi.hint
  · rw [hu.pages]
    exact hi.current (hc.congr rfl rfl)

/-- The parties that did not commit keep what they had, and are not current
any more. -/
theorem PartyInv.other {j : Nat} {qt : Party} {wal : Bytes} {x : Txn} (hq : PartyInv ps s j qt) (hne : j ≠ i)
    (hc : WalCommit ⟨s.disk, pt.pager⟩ t wal hd txn) (hx : x.conn = i) :
    PartyInv ps ⟨t.disk, parties, s.log ++ [x]⟩ j qt := by
  refine ⟨Nat.le_trans hq.base (by simp), hq.size, hq.mode, hq.level, ?_, ?_, ?_, fun hcur => ?_⟩
  · have := hq.cached
    unfold CacheOk at this ⊢
    simp only [hc.main] at this ⊢
    exact this
  · intro y wal' h' hy hw' hp'
    rw [hc.written] at hw'
    cases hw'
    rw [parse_commitBytes txn hc.parse] at hp'
    cases hp'
    rcases hc.source with hsome | ⟨hnone, -⟩
    · exact (hq.hint y wal hd hy hsome hc.parse).commit txn hc.parse
    · rw [hq.absent hnone] at hy
      cases hy
  · intro hn
    rw [hc.written] at hn
    cases hn
  · -- the new transaction is another party's
    refine absurd (hcur s.log.length x hq.base (by simp)) ?_
    rw [hx]
    exact hne.symm

/-- A commit of a party that has seen all others extends the history. -/
theorem SerialHistory.commit (h : SerialHistory v ps s) (hcur : Current s i pt) (hs : Synced ps ⟨s.disk, pt.pager⟩)
    (ht : Synced ps t) (hmain : t.disk.main = s.disk.main) (hpages : t.pager.walPages = pt.pager.overlayDirty) :
    SerialHistory v ps ⟨t.disk, parties,
      s.log ++ [⟨i, pt.base, Conn.view ⟨s.disk, pt.pager⟩, pt.pager.dirty.toList⟩]⟩ := by
  have hlt : ∀ {k : Nat} {u x : Txn}, (s.log ++ [x])[k]? = some u →
      (k < s.log.length ∧ s.log[k]? = some u) ∨ (k = s.log.length ∧ u = x) := by
    intro k u x hk
    rcases Nat.lt_trichotomy k s.log.length with hlt | rfl | hgt
    · rw [List.getElem?_append_left hlt] at hk
      exact .inl ⟨hlt, hk⟩
    · rw [List.getElem?_concat_length] at hk
      exact .inr ⟨rfl, (Option.some.inj hk).symm⟩
    · rw [List.getElem?_eq_none (by simp; omega)] at hk
      cases hk
  refine ⟨fun k u hk j w hb hj hw => ?_, fun k u hk p => ?_, fun p => ?_⟩
  · rcases hlt hw with ⟨hjl, hw⟩ | ⟨rfl, rfl⟩
    · rcases hlt hk with ⟨-, hk⟩ | ⟨-, rfl⟩
      · exact h.serial k u hk j w hb hj hw
      · exact hcur j w hb hw
    · rcases hlt hk with ⟨hkl, -⟩ | ⟨rfl, -⟩ <;> omega
  · rcases hlt hk with ⟨hkl, hk⟩ | ⟨rfl, rfl⟩
    · rw [List.take_append_of_le_length (Nat.le_of_lt hkl)]
      exact h.view k u hk p
    · rw [List.take_append_of_le_length (Nat.le_refl _), List.take_length]
      exact (hs.view_eq p).trans (h.final p)
  · rw [viewAfter_concat, ← h.final p]
    unfold committedView
    rw [ht.overlay, hs.overlay, hpages, hmain]
    simp only [Pager.overlayDirty, getElem?_overlay]
    cases lastWrite pt.pager.dirty.toList p <;> rfl

theorem ClusterInv.commit {wal : Bytes} (h : ClusterInv ps disk₀ s) (hpt : s.parties i = some pt)
    (hcur : Current s i pt) (hc : WalCommit ⟨s.disk, pt.pager⟩ t wal hd txn) (ht : Synced ps t) :
    ClusterInv ps disk₀ ⟨t.disk, Function.update s.parties i (some ⟨t.pager, pt.base⟩),
      s.log ++ [⟨i, pt.base, Conn.view ⟨s.disk, pt.pager⟩, pt.pager.dirty.toList⟩]⟩ := by
  have hi := h.party i pt hpt
  obtain ⟨c, l, hpager, -⟩ := hc.pager
  refine ⟨⟨ht.cold, ?_⟩, fun j qt hj => ?_,
    h.history.commit hcur (hi.synced h.database hcur) ht hc.main (by rw [hpager])⟩
  · rw [hc.main]
    exact h.database.page1
  · rcases update_eq_some hj with ⟨rfl, rfl⟩ | ⟨hne, hj⟩
    · refine ⟨Nat.le_trans hi.base (by simp), ht.size, by rw [hpager]; exact hi.mode,
        by rw [hpager]; exact hi.level, ht.cached, ht.hint, fun hn => ?_, fun _ => ht.overlay⟩
      rw [hc.written] at hn
      cases hn
    · exact (h.party j qt hj).other hne hc rfl

/-- A flush under the condition commits for a current party, or nothing. -/
theorem ClusterInv.flush {nonce : UInt32} {salts : UInt32 × UInt32} (h : ClusterInv ps disk₀ s) (hps : validPageSize ps)
    (hpt : s.parties i = some pt)
    (hw : pt.pager.dirty.isEmpty = true ∨ Current s i pt ∧ FlushSound ps ⟨s.disk, pt.pager⟩) :
    ClusterInv ps disk₀ (s.after i pt (.flush nonce salts)) := by
  have hi := h.party i pt hpt
  unfold Cluster.after
  simp only [Conn.run, Conn.flush, PagerOp.isFlush, Bool.true_and]
  by_cases he : pt.pager.dirty.isEmpty = true
  · simp only [he, if_true, Bool.not_true, Bool.and_false, Bool.false_eq_true, if_false]
    exact h.unchanged hpt ((Unchanged.refl hi.cached).setTxLock _)
  · obtain ⟨hcur, hsound⟩ := hw.resolve_left he
    have hs := hi.synced h.database hcur
    have hne : pt.pager.dirty.toList ≠ [] := fun hnil =>
      he (by rw [← ExtTreeMap.isEmpty_toList, hnil]; rfl)
    simp only [he, Bool.false_eq_true, if_false, hi.mode]
    rcases flushWalLocked_cases hs hps hi.level hne salts with
      ⟨e, c, hr, hcok⟩ | ⟨t, wal, hd, page1, count, hr, h1, hcount, hc⟩
    · simp only [hr]
      exact h.unchanged hpt (((Unchanged.refl hi.cached).setCache hcok).setTxLock _)
    · obtain ⟨hcne, hclean⟩ := (hsound.wal hi.mode).2 page1 count h1 hcount
      have ht : Synced ps t := by
        refine hc.synced hs hne hcne (fun w hw => (hsound.pages w hw).2) ?_
        rcases hc.source with hsome | ⟨-, rfl⟩
        · exact hclean wal hd hsome hc.parse
        · exact resumesClean_walOf (by simp) rfl _
      simp only [hr]
      exact h.commit hpt hcur (hc.setTxLock _) (ht.congr rfl rfl rfl rfl fun _ _ hc => hc)

theorem cluster_inductive (hps : validPageSize ps) :
    ((cluster ps disk₀).restrict (CurrentWriter ps)).Inductive (ClusterInv ps disk₀) where
  init s hs := by
    obtain ⟨hd, rfl⟩ := hs
    refine ⟨hd, fun i pt hi => ?_, ⟨?_, ?_, fun p => rfl⟩⟩
    · cases hi
    · intro k t hk; cases hk
    · intro k t hk; cases hk
  step s op s' hi hs := by
    obtain ⟨hstep, hop⟩ := hs
    cases op with
    | join i =>
      obtain ⟨-, c, hopen, rfl⟩ := hstep
      exact hi.opened hopen
    | call i op =>
      obtain ⟨hkind, pt, hpt, rfl⟩ := hstep
      rcases hkind with hedit | hflush
      · have hf : op.isFlush = false := by cases op <;> first | rfl | cases hedit
        unfold Cluster.after
        simp only [hf, Bool.false_and, Bool.false_eq_true, if_false]
        exact hi.unchanged hpt (run_unchanged (hi.party i pt hpt).cached hedit)
      · cases op with
        | flush nonce salts => exact hi.flush hps hpt (hop pt hpt)
        | _ => cases hflush

/-- **Commits form one serial history**: over any database in WAL mode and
every page size, in every interleaving of any number of connections in
which each flush of dirty pages is sound and comes from a connection that
has seen every other connection's commits, each transaction was computed
from the state that the ones before it left, no transaction overwrites one
it has not seen, and what is committed is what the transactions wrote, in
order. -/
theorem committed_serially (ps : UInt32) (hps : validPageSize ps) (disk₀ : Disk) (s : Cluster)
    (hreach : ((cluster ps disk₀).restrict (CurrentWriter ps)).Reachable s) :
    SerialHistory (committedView disk₀ ps) ps s :=
  ((cluster_inductive hps).reachable s hreach).history

/-! ## A writer with an old snapshot

Two connections open the same database. The first changes page 1 and
commits; the second, which has read page 1 before, changes another byte of
it and commits. -/

def Cluster.joined (ps : UInt32) (s : Cluster) (i : Nat) : Cluster :=
  match Pager.open s.disk ps with
  | .ok c => ⟨c.disk, Function.update s.parties i (some ⟨c.pager, s.log.length⟩), s.log⟩
  | .error _ => s

def Cluster.call (s : Cluster) (i : Nat) (op : PagerOp) : Cluster :=
  match s.parties i with
  | some pt => s.after i pt op
  | none => s

theorem reachable_joined (h : ((cluster ps disk₀).restrict P).Reachable s) (hi : s.parties i = none)
    (hP : P s (.join i)) : ((cluster ps disk₀).restrict P).Reachable (s.joined ps i) := by
  unfold Cluster.joined
  split
  · rename_i c hopen
    exact h.step (l := .join i) ⟨⟨hi, c, hopen, rfl⟩, hP⟩
  · exact h

theorem reachable_call {op : PagerOp} (h : ((cluster ps disk₀).restrict P).Reachable s)
    (hop : op.isEdit = true ∨ op.isFlush = true) (hP : P s (.call i op)) :
    ((cluster ps disk₀).restrict P).Reachable (s.call i op) := by
  unfold Cluster.call
  split
  · rename_i pt hpt
    exact h.step (l := .call i op) ⟨⟨hop, pt, hpt, rfl⟩, hP⟩
  · exact h

def stalePage : Bytes :=
  List.replicate 18 0 ++ [2, 2] ++ List.replicate 8 0 ++ [0, 0, 0, 1] ++ List.replicate 479 0 ++ [9]

def bothJoined : Cluster := ((⟨sharedDisk, fun _ => none, []⟩ : Cluster).joined 512 0).joined 512 1

def firstEdited : Cluster := bothJoined.call 0 (.editPage 1 editedPage)

def firstCommitted : Cluster := firstEdited.call 0 (.flush 0 (0, 0))

def bothCommitted : Cluster := (firstCommitted.call 1 (.editPage 1 stalePage)).call 1 (.flush 0 (0, 0))

theorem sharedDisk_wal : WalDatabase 512 sharedDisk := by
  refine ⟨fun j hj => ?_, walMain, by decide +kernel, by decide +kernel⟩
  cases hj

theorem firstEdited_reachable (hjoin : ∀ s i, P s (.join i)) (hedit : ∀ s i p b, P s (.call i (.editPage p b))) :
    ((cluster 512 sharedDisk).restrict P).Reachable firstEdited := by
  have h0 : ((cluster 512 sharedDisk).restrict P).Reachable ⟨sharedDisk, fun _ => none, []⟩ :=
    ⟨_, [], ⟨sharedDisk_wal, rfl⟩, .nil _⟩
  have hfree : ((⟨sharedDisk, fun _ => none, []⟩ : Cluster).joined 512 0).parties 1 = none := by
    unfold Cluster.joined
    split <;> rfl
  exact reachable_call (reachable_joined (reachable_joined h0 rfl (hjoin _ _)) hfree (hjoin _ _))
    (.inl rfl) (hedit _ _ _ _)

/-- **Counterexample**: both flushes return `Ok`; the second connection's
snapshot does not hold the first one's transaction, and what is committed
of page 1 afterwards has lost it. -/
theorem stale_writer_commits :
    ∃ s, (cluster 512 sharedDisk).Reachable s ∧
      (s.log.map fun t => (t.conn, t.base)) = [(0, 0), (1, 0)] ∧
      committedView s.disk 512 1 = .ok stalePage ∧
      ¬ SerialHistory (committedView sharedDisk 512) 512 s := by
  have hreach : ((cluster 512 sharedDisk).restrict fun _ _ => True).Reachable bothCommitted :=
    reachable_call (reachable_call (reachable_call (firstEdited_reachable (fun _ _ => trivial)
      fun _ _ _ _ => trivial) (.inr rfl) trivial) (.inl rfl) trivial) (.inr rfl) trivial
  have hlog : (bothCommitted.log.map fun t => (t.conn, t.base)) = [(0, 0), (1, 0)] := by decide +kernel
  refine ⟨bothCommitted, hreach.of_restrict, hlog, by decide +kernel, fun h => ?_⟩
  have hget : ∀ k : Nat, (bothCommitted.log[k]?).map (fun t => (t.conn, t.base)) =
      [((0 : Nat), (0 : Nat)), (1, 0)][k]? := by
    intro k
    rw [← List.getElem?_map, hlog]
  have h0 := hget 0
  have h1 := hget 1
  cases hu : bothCommitted.log[0]? with
  | none => rw [hu] at h0; cases h0
  | some u =>
    cases ht : bothCommitted.log[1]? with
    | none => rw [ht] at h1; cases h1
    | some t =>
      rw [hu] at h0
      rw [ht] at h1
      have hu0 : (u.conn, u.base) = (0, 0) := Option.some.inj h0
      have ht1 : (t.conn, t.base) = (1, 0) := Option.some.inj h1
      have hbase : t.base ≤ 0 := Nat.le_of_eq (congrArg Prod.snd ht1)
      have hsame := h.serial 1 t ht 0 u hbase Nat.one_pos hu
      rw [show u.conn = 0 from congrArg Prod.fst hu0, show t.conn = 1 from congrArg Prod.fst ht1] at hsame
      cases hsame

/-! ## Two writers in turn

The first commit meets the condition, and so does one of a connection that
opens the database after it. -/

theorem party_sound {page : Bytes} {fs : List Frame} (hpt : s.parties i = some pt)
    (hdirty : (s.parties i).map (fun pt => pt.pager.dirty.toList) = some [(1, page)])
    (hcache : (s.parties i).map (fun pt => pt.pager.pageCache.content 1) = some none)
    (hmode : (s.parties i).map (fun pt => (pt.pager.journalMode, pt.pager.synchronous)) = some (.wal, .full))
    (hread : (s.parties i).map (fun pt => (Conn.readPage 1 ⟨s.disk, pt.pager⟩).1) = some (.ok page))
    (hlen : page.length = 512) (hcount : readBeU32 page pageCountOffset = .ok 1)
    (hwal : s.disk.wal = some (walOf header512 fs)) (hf : ∀ f ∈ fs, f.content.length = header512.pageSize.toNat)
    (hc : committed fs = fs) : FlushSound 512 ⟨s.disk, pt.pager⟩ := by
  rw [hpt] at hdirty hcache hmode hread
  obtain ⟨hmode, hsync⟩ := Prod.mk.inj (Option.some.inj hmode)
  refine FlushSound.page1 (Option.some.inj hdirty) hlen (Option.some.inj hcache) hmode hsync (Option.some.inj hread)
    hcount (by decide) fun wal h hw hp => ?_
  obtain rfl := Option.some.inj (hwal.symm.trans hw)
  rw [show WalHeader.parse (walOf header512 fs) = .ok header512 from parse_walOf _ _ _ _ _ _ (by decide)] at hp
  cases hp
  exact ⟨fs, rfl, hf, hc⟩

theorem firstCommitted_reachable :
    ((cluster 512 sharedDisk).restrict (CurrentWriter 512)).Reachable firstCommitted := by
  refine reachable_call (firstEdited_reachable (fun _ _ => trivial) fun _ _ _ _ => trivial) (.inr rfl) ?_
  intro pt hpt
  refine .inr ⟨fun j u _ hu => ?_, @party_sound _ _ _ editedPage [] hpt (by decide +kernel) (by decide +kernel)
    (by decide +kernel) (by decide +kernel) (by decide +kernel) (by decide +kernel) (by decide +kernel) (by simp) rfl⟩
  have hlen : firstEdited.log.length = 0 := by decide +kernel
  rw [List.length_eq_zero_iff.1 hlen] at hu
  cases hu

def lateEdited : Cluster := (firstCommitted.joined 512 2).call 2 (.editPage 1 stalePage)

def lateCommitted : Cluster := lateEdited.call 2 (.flush 0 (0, 0))

theorem lateCommitted_reachable :
    ((cluster 512 sharedDisk).restrict (CurrentWriter 512)).Reachable lateCommitted := by
  have hfree : (firstCommitted.parties 2).isNone = true := by decide +kernel
  refine reachable_call (reachable_call (reachable_joined firstCommitted_reachable (Option.isNone_iff_eq_none.1 hfree)
    trivial) (.inl rfl) trivial) (.inr rfl) ?_
  intro pt hpt
  refine .inr ⟨fun j u hj hu => ?_, @party_sound _ _ _ stalePage [⟨1, 1, editedPage⟩] hpt (by decide +kernel)
    (by decide +kernel) (by decide +kernel) (by decide +kernel) (by decide +kernel) (by decide +kernel)
    (by decide +kernel) ?_ ?_⟩
  · have hbase : (lateEdited.parties 2).map (fun pt => (pt.base, lateEdited.log.length)) = some (1, 1) := by
      decide +kernel
    rw [show lateEdited.parties 2 = some pt from hpt] at hbase
    simp only [Option.map_some, Option.some.injEq, Prod.mk.injEq] at hbase
    have := (List.getElem?_eq_some_iff.1 hu).1
    have hlen : lateEdited.log.length = 1 := hbase.2
    omega
  · intro f hf
    rw [List.mem_singleton.1 hf]
    decide +kernel
  · exact committed_concat_of_commit [] (by decide : (1 : UInt32) ≠ 0)

theorem late_commit_serial :
    (lateCommitted.log.map fun t => (t.conn, t.base)) = [(0, 0), (2, 1)] ∧
      committedView lateCommitted.disk 512 1 = .ok stalePage ∧
      SerialHistory (committedView sharedDisk 512) 512 lateCommitted :=
  ⟨by decide +kernel, by decide +kernel,
    committed_serially 512 (by decide) sharedDisk lateCommitted lateCommitted_reachable⟩

end DbStorage.Pager
