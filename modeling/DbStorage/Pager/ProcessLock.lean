import DbStorage.Pager.Reopen
import DbStorage.Vfs.FileLock

/-!
# The locks of a connection's process (`pager/mod.rs`, `vfs/unix.rs`)

POSIX record locks belong to the process: closing any descriptor of a file
drops all locks the process has on it. A `Pager` reads, writes and locks
the main file through one descriptor, and `set_journal_mode(Legacy)` runs
checkpoint passes that open the main file a second time and close it when
they have copied their pages.

`pagerLocks` runs the calls of one `Pager` together with the lock ladder of
its descriptor and what the operating system's table holds for the process.
Every `fcntl` call may fail; the outcomes are part of the label.

Results: `shared_lock_kept` (in every run without a checkpoint pass that
copies pages, the `SHARED` range is locked whenever the lock state says so)
and `checkpoint_drops_lock` (a run with one).
-/
namespace DbStorage.Pager
open Vfs RecordLock Wal Std

/-- The lock ladder of the descriptor, and the process's locks on the file. -/
structure ProcessLock where
  state : FileLockState
  held : Nat → Option Mode

/-- A descriptor that has locked nothing. -/
def ProcessLock.fresh : ProcessLock := ⟨⟨.unlocked, none⟩, fun _ => none⟩

/-- Runs the `fcntl` calls of a `set_level`: which of them are granted is
given, a call behind the end of the list fails. Returns the outcomes left. -/
def ProcessLock.fcntls : List Bool → ProcessLock → ProcessLock × List Bool
  | [], l => ({ l with state := l.state.failed }, [])
  | granted :: outcomes, l =>
    match l.state.call with
    | some ⟨_, r :: _, _⟩ =>
      if granted then fcntls outcomes ⟨l.state.granted, applyTo r l.held⟩
      else ({ l with state := l.state.failed }, outcomes)
    | _ => (l, granted :: outcomes)

/-- `set_level`: whether it returned `Ok`, the locks, and the outcomes left. -/
def ProcessLock.setLevel (target : LockLevel) (outcomes : List Bool) (l : ProcessLock) :
    Bool × ProcessLock × List Bool :=
  let r := ProcessLock.fcntls outcomes { l with state := l.state.setLevel target }
  (r.1.state.level == target, r.1, r.2)

/-- `close` of another descriptor of the file. -/
def ProcessLock.closeOther (l : ProcessLock) : ProcessLock := { l with held := fun _ => none }

/-- The lock part of `Pager::open`: `Shared`, and for a hot journal up to
`Exclusive` and back.
mirrors pager/mod.rs:417-430 -/
def ProcessLock.open (hot : Bool) (outcomes : List Bool) : Option ProcessLock :=
  let r := ProcessLock.fresh.setLevel .shared outcomes
  if r.1 then
    if hot then
      let up := r.2.1.setLevel .exclusive r.2.2
      if up.1 then
        let down := up.2.1.setLevel .shared up.2.2
        if down.1 then some down.2.1 else none
      else none
    else some r.2.1
  else none

/-- A connection and the locks of its process. -/
structure LockedPager where
  conn : Conn
  lock : ProcessLock

/-- mirrors pager/mod.rs:574-580 -/
def LockedPager.releaseTxLock (outcomes : List Bool) (s : LockedPager) : LockedPager :=
  if s.conn.pager.txLockLevel.aboveShared then
    let r := s.lock.setLevel .shared outcomes
    if r.1 then ⟨s.conn.setTxLock .shared, r.2.1⟩ else { s with lock := r.2.1 }
  else s

/-- mirrors pager/mod.rs:489-537 -/
def LockedPager.flush (nonce : UInt32) (salts : UInt32 × UInt32) (outcomes : List Bool) (s : LockedPager) :
    LockedPager :=
  if s.conn.pager.dirty.isEmpty then s.releaseTxLock outcomes
  else
    match s.conn.pager.journalMode with
    | .wal => { s with conn := (s.conn.flushWalLocked salts).2 }.releaseTxLock outcomes
    | .legacy =>
      let up := s.lock.setLevel .exclusive outcomes
      if up.1 then
        let conn := (s.conn.flushLegacy nonce).2
        let down := up.2.1.setLevel .shared up.2.2
        if down.1 then ⟨conn.setTxLock .shared, down.2.1⟩ else ⟨conn, down.2.1⟩
      else { s with lock := up.2.1 }

/-- mirrors pager/mod.rs:546-560 -/
def LockedPager.begin (level : LockLevel) (outcomes : List Bool) (s : LockedPager) : LockedPager :=
  let r := s.lock.setLevel level outcomes
  if r.1 then ⟨s.conn.setTxLock level, r.2.1⟩ else { s with lock := r.2.1 }

/-- Whether a checkpoint pass copies pages, for which it opens the main file
and closes it at its end.
mirrors checkpoint.rs:59-192 -/
def passOpensMain (d : Disk) (pageSize : UInt32) : Bool :=
  match d.wal with
  | none => false
  | some wal =>
    if wal.length < headerLen then false
    else match WalHeader.parse wal with
      | .error _ => false
      | .ok h =>
        if h.pageSize ≠ pageSize then false
        else match planPass h wal [] (d.nBackfill.getD 0) d.main.length with
          | .done _ => false
          | .copy _ _ _ => true

/-- The same for the passes of a switch to rollback-journal mode.
mirrors pager/mod.rs:952-964 -/
def passesOpenMain (pageSize : UInt32) : Nat → Disk → Bool
  | 0, _ => false
  | n + 1, d =>
    passOpensMain d pageSize || match d.checkpoint pageSize with
      | .error _ => false
      | .ok (r, d) => if r.checkpointComplete then false else passesOpenMain pageSize n d

/-- Whether `set_journal_mode` closes a second descriptor of the main file.
mirrors pager/mod.rs:793-805 -/
def closesOther (s : Conn) (mode : JournalMode) : Bool :=
  !(!s.pager.dirty.isEmpty || s.pager.txLockLevel.aboveShared) && s.pager.journalMode ≠ mode &&
    mode = .legacy && passesOpenMain s.pager.pageSize maxPasses s.disk

def LockedPager.setJournalMode (mode : JournalMode) (salts : UInt32 × UInt32) (s : LockedPager) :
    LockedPager :=
  ⟨(s.conn.setJournalMode mode salts).2, if closesOther s.conn mode then s.lock.closeOther else s.lock⟩

def LockedPager.next (s : LockedPager) (op : PagerOp) (outcomes : List Bool) : LockedPager :=
  match op with
  | .flush nonce salts => s.flush nonce salts outcomes
  | .rollback => { s with conn := { s.conn with pager.dirty := ∅ } }.releaseTxLock outcomes
  | .beginImmediate => s.begin .reserved outcomes
  | .beginExclusive => s.begin .exclusive outcomes
  | .setJournalMode mode salts => s.setJournalMode mode salts
  | op => { s with conn := (s.conn.run op).2 }

/-- One `Pager` in its process. -/
def pagerLocks (ps : UInt32) : LTS LockedPager (PagerOp × List Bool) where
  init s := ∃ disk outcomes, Pager.open disk ps = .ok s.conn ∧
    ProcessLock.open (disk.journal.any journalIsHot) outcomes = some s.lock
  step s l s' := s' = s.next l.1 l.2

/-! ## What the calls keep -/

/-- The process holds what the ladder says, and no `set_level` is under way. -/
structure LockOk (l : ProcessLock) : Prop where
  returned : l.state.call = none
  row : ∃ probe, HoldsRow l.state l.held probe

variable {l : ProcessLock} {s : LockedPager}

theorem LockOk.failed {probe : Bool} (h : HoldsRow l.state l.held probe) :
    LockOk { l with state := l.state.failed } := ⟨rfl, probe, h.failed⟩

/-- The induction is on the outcomes: a granted call leads to the next
stage, a failed one ends the call. -/
theorem fcntls_ok (outcomes : List Bool) (l : ProcessLock) (probe : Bool)
    (h : HoldsRow l.state l.held probe) : LockOk (ProcessLock.fcntls outcomes l).1 := by
  induction outcomes generalizing l probe with
  | nil => exact .failed h
  | cons granted outcomes ih =>
    unfold ProcessLock.fcntls
    split
    · rename_i target r rest dest hc
      split
      · obtain ⟨probe', hg⟩ := h.granted_cases hc rfl
        exact ih _ probe' (h.granted hg)
      · exact .failed h
    · rename_i hc
      refine ⟨?_, probe, h⟩
      cases hcall : l.state.call with
      | none => rfl
      | some c =>
        obtain ⟨target, todo, dest⟩ := c
        cases todo with
        | nil => exact absurd rfl (h.stage _ hcall).todo_ne_nil
        | cons r rest => exact absurd hcall (hc target r rest dest)

theorem LockOk.setLevel (h : LockOk l) (target : LockLevel) (outcomes : List Bool) :
    LockOk (l.setLevel target outcomes).2.1 := by
  obtain ⟨probe, hrow⟩ := h.row
  exact fcntls_ok _ _ probe (.loop hrow.held hrow.unlocked)

theorem LockOk.fresh : LockOk .fresh := by
  refine ⟨rfl, false, ?_, (by intro h; cases h), (by rintro c ⟨⟩)⟩
  funext b
  simp [ProcessLock.fresh, heldAt, LockLevel.rank]

theorem LockOk.open {hot : Bool} {outcomes : List Bool} (h : ProcessLock.open hot outcomes = some l) : LockOk l := by
  simp only [ProcessLock.open] at h
  split at h
  · split at h
    · split at h
      · split at h
        · cases h
          exact ((LockOk.fresh.setLevel _ _).setLevel _ _).setLevel _ _
        · cases h
      · cases h
    · cases h
      exact LockOk.fresh.setLevel _ _
  · cases h

theorem LockOk.releaseTxLock (h : LockOk l) (conn : Conn) (outcomes : List Bool) :
    LockOk (LockedPager.releaseTxLock outcomes ⟨conn, l⟩).lock := by
  simp only [LockedPager.releaseTxLock]
  split
  · split
    · exact h.setLevel _ _
    · exact h.setLevel _ _
  · exact h

theorem LockOk.begin (h : LockOk s.lock) (level : LockLevel) (outcomes : List Bool) :
    LockOk (s.begin level outcomes).lock := by
  simp only [LockedPager.begin]
  split
  · exact h.setLevel _ _
  · exact h.setLevel _ _

theorem LockOk.flush (h : LockOk s.lock) (nonce : UInt32) (salts : UInt32 × UInt32) (outcomes : List Bool) :
    LockOk (s.flush nonce salts outcomes).lock := by
  simp only [LockedPager.flush]
  split
  · exact h.releaseTxLock _ _
  split
  · exact h.releaseTxLock _ _
  · split
    · split
      · exact (h.setLevel _ _).setLevel _ _
      · exact (h.setLevel _ _).setLevel _ _
    · exact h.setLevel _ _

/-- A switch to rollback-journal mode finds nothing to copy. -/
def NothingToCopy (s : LockedPager) : PagerOp × List Bool → Prop
  | (.setJournalMode mode _, _) => closesOther s.conn mode = false
  | _ => True

theorem LockOk.next {op : PagerOp} {outcomes : List Bool} (h : LockOk s.lock) (hop : NothingToCopy s (op, outcomes)) :
    LockOk (s.next op outcomes).lock := by
  cases op with
  | flush nonce salts => exact h.flush _ _ _
  | rollback => exact h.releaseTxLock _ _
  | beginImmediate => exact h.begin _ _
  | beginExclusive => exact h.begin _ _
  | setJournalMode mode salts =>
    have hclose : closesOther s.conn mode = false := hop
    simp only [LockedPager.next, LockedPager.setJournalMode, hclose]
    exact h
  | _ => exact h

theorem pagerLocks_inductive (ps : UInt32) :
    ((pagerLocks ps).restrict NothingToCopy).Inductive fun s => LockOk s.lock where
  init := by
    rintro s ⟨disk, outcomes, -, hl⟩
    exact .open hl
  step := by
    rintro s ⟨op, outcomes⟩ s' h ⟨rfl, hop⟩
    exact h.next hop

/-- At `Shared` or above the process has the whole `SHARED` range locked. -/
def SharedHeld (s : LockedPager) : Prop :=
  s.lock.state.level ≠ .unlocked → ∀ b, sharedFirst ≤ b → b < sharedFirst + sharedSize → s.lock.held b ≠ none

/-- **The shared lock.** In every run of one `Pager` in which no checkpoint
pass of a switch to rollback-journal mode copies pages, whatever lock calls
fail, the process holds the read lock that its lock state says it holds. -/
theorem shared_lock_kept (ps : UInt32) (s : LockedPager)
    (h : ((pagerLocks ps).restrict NothingToCopy).Reachable s) : SharedHeld s := by
  obtain ⟨-, probe, hrow⟩ := (pagerLocks_inductive ps).reachable s h
  intro hl b h1 h2
  rw [hrow.held]
  have hp : b ≠ pendingByte := by simp only [sharedFirst] at h1; omega
  have hr : b ≠ reservedByte := by simp only [sharedFirst, reservedByte] at *; omega
  cases hlevel : s.lock.state.level with
  | unlocked => exact absurd hlevel hl
  | _ => simp [heldAt, hp, hr, h1, h2]

/-! ## A switch that copies pages -/

/-- The `WAL` database without a `-wal` file, opened at `Shared`. -/
def lockedWal : LockedPager := ⟨walConn, (ProcessLock.fresh.setLevel .shared [true, true, true]).2.1⟩

theorem lockedWal_reachable (Q : LockedPager → PagerOp × List Bool → Prop) :
    ((pagerLocks 512).restrict Q).Reachable lockedWal :=
  ⟨lockedWal, [], ⟨_, [true, true, true], open_walConn, rfl⟩, .nil _⟩

theorem reachable_locked {Q : LockedPager → PagerOp × List Bool → Prop} {ps : UInt32}
    (h : ((pagerLocks ps).restrict Q).Reachable s) (op : PagerOp) (outcomes : List Bool) (hop : Q s (op, outcomes)) :
    ((pagerLocks ps).restrict Q).Reachable (s.next op outcomes) :=
  h.step (l := (op, outcomes)) ⟨rfl, hop⟩

/-- A commit of page 1. -/
def committedWal : LockedPager :=
  (lockedWal.next (.editPage 1 editedPage) []).next (.flush 0 (0, 0)) []

theorem committedWal_reachable (Q : LockedPager → PagerOp × List Bool → Prop)
    (hedit : ∀ s, Q s (.editPage 1 editedPage, [])) (hflush : ∀ s, Q s (.flush 0 (0, 0), [])) :
    ((pagerLocks 512).restrict Q).Reachable committedWal :=
  reachable_locked (reachable_locked (lockedWal_reachable Q) _ _ (hedit _)) _ _ (hflush _)

def switchedLegacy : LockedPager := committedWal.next (.setJournalMode .legacy (0, 0)) []

/-- **Counterexample**: after the switch the lock state is at `Shared`, and
the process has no lock on the file. -/
theorem checkpoint_drops_lock :
    ∃ s, (pagerLocks 512).Reachable s ∧ s.lock.state.level = .shared ∧
      s.lock.held sharedFirst = none ∧ ¬ SharedHeld s := by
  have hreach : ((pagerLocks 512).restrict fun _ _ => True).Reachable switchedLegacy :=
    reachable_locked (committedWal_reachable _ (fun _ => trivial) fun _ => trivial) _ _ trivial
  have hlevel : switchedLegacy.lock.state.level = .shared := by decide +kernel
  have hheld : switchedLegacy.lock.held sharedFirst = none := by decide +kernel
  refine ⟨switchedLegacy, hreach.of_restrict, hlevel, hheld, fun h => ?_⟩
  exact h (by rw [hlevel]; decide) sharedFirst (Nat.le_refl _) (by decide) hheld

/-- A switch to rollback-journal mode with nothing to copy, and a commit. -/
def switchedCommitted : LockedPager :=
  ((lockedWal.next (.setJournalMode .legacy (0, 0)) []).next (.editPage 1 editedPage) []).next (.flush 0 (0, 0)) []

theorem commit_keeps_lock : switchedCommitted.conn.pager.journalMode = .legacy ∧
    switchedCommitted.lock.state.level = .shared ∧ SharedHeld switchedCommitted := by
  refine ⟨by decide +kernel, by decide +kernel, shared_lock_kept 512 switchedCommitted ?_⟩
  refine reachable_locked (reachable_locked (reachable_locked (lockedWal_reachable _) _ _ ?_) _ _ trivial) _ _ trivial
  show closesOther lockedWal.conn .legacy = false
  decide +kernel

end DbStorage.Pager
