import DbStorage.Pager.ProcessLock

/-!
# The lock level of a transaction (`pager/mod.rs`)

A `Pager` has two records of its lock: the level of the ladder on its
descriptor, and `tx_lock_level`, the level that the last successful
`begin_immediate` or `begin_exclusive` asked for. A refused call leaves the
ladder at the last level it reached; `release_tx_lock`, which `rollback`
calls, looks at `tx_lock_level` only.

`txLocks` runs the calls of one connection while other processes stand in
the way of its climbs: a label is a call and the number of steps of its
climb that are granted. Steps down the ladder meet nobody and are granted.

Results: `shared_between_transactions` (in every run in which a climb to
`EXCLUSIVE` outside a transaction is refused at its first step or not at
all, the connection is at `Shared` outside transactions and after every
rollback) and `climb_stops_midway` (a run with another refusal).
-/
namespace DbStorage.Pager
open Vfs RecordLock Wal Std

/-- The outcomes of the `fcntl` calls of a climb of which other processes
let `granted` steps through, and of the steps down behind it. Between two
levels from `Shared` on there is one call. -/
def grants (level target : LockLevel) (granted : Nat) : List Bool :=
  if target.rank ≤ level.rank + granted then List.replicate 8 true
  else List.replicate granted true ++ [false]

/-- The level a call climbs to. -/
def LockedPager.target (s : LockedPager) : PagerOp → LockLevel
  | .beginImmediate => .reserved
  | .beginExclusive => .exclusive
  | .flush _ _ =>
    if s.conn.pager.dirty.isEmpty then .shared
    else match s.conn.pager.journalMode with
      | .wal => .shared
      | .legacy => .exclusive
  | _ => .shared

def LockedPager.grants (s : LockedPager) (op : PagerOp) (granted : Nat) : List Bool :=
  Pager.grants s.lock.state.level (s.target op) granted

/-- Whether `release_tx_lock` returns `Ok`.
mirrors pager/mod.rs:573-580 -/
def LockedPager.releaseOk (outcomes : List Bool) (s : LockedPager) : Bool :=
  !s.conn.pager.txLockLevel.aboveShared || (s.lock.setLevel .shared outcomes).1

/-- Whether `flush` returns `Ok`.
mirrors pager/mod.rs:490-539 -/
def LockedPager.flushOk (nonce : UInt32) (salts : UInt32 × UInt32) (outcomes : List Bool) (s : LockedPager) :
    Bool :=
  if s.conn.pager.dirty.isEmpty then s.releaseOk outcomes
  else
    match s.conn.pager.journalMode with
    | .wal =>
      { s with conn := (s.conn.flushWalLocked salts).2 }.releaseOk outcomes &&
        (s.conn.flushWalLocked salts).1.isOk
    | .legacy =>
      let up := s.lock.setLevel .exclusive outcomes
      up.1 && (up.2.1.setLevel .shared up.2.2).1 && (s.conn.flushLegacy nonce).1.isOk

/-- A connection with its locks, and whether a begin call has returned `Ok`
since the last flush or rollback that did. -/
structure TxPager where
  pager : LockedPager
  begun : Bool

/-- mirrors pager/mod.rs:490-560,777-780 -/
def TxPager.nextBegun (t : TxPager) (op : PagerOp) (outcomes : List Bool) : Bool :=
  match op with
  | .beginImmediate => (t.pager.lock.setLevel .reserved outcomes).1 || t.begun
  | .beginExclusive => (t.pager.lock.setLevel .exclusive outcomes).1 || t.begun
  | .flush nonce salts => !t.pager.flushOk nonce salts outcomes && t.begun
  | .rollback => !t.pager.releaseOk outcomes && t.begun
  | _ => t.begun

def TxPager.next (t : TxPager) (op : PagerOp) (granted : Nat) : TxPager :=
  ⟨t.pager.next op (t.pager.grants op granted), t.nextBegun op (t.pager.grants op granted)⟩

def PagerOp.setsMode : PagerOp → Bool
  | .setJournalMode _ _ => true
  | _ => false

/-- The calls of one connection that leave the journal mode alone. -/
def txLocks (ps : UInt32) : LTS TxPager (PagerOp × Nat) where
  init t := (pagerLocks ps).init t.pager ∧ t.begun = false
  step t l t' := l.1.setsMode = false ∧ t' = t.next l.1 l.2

/-- At `Shared`, with the locks of that level and no others. -/
def AtShared (l : ProcessLock) : Prop := l.state.level = .shared ∧ l.held = levelLocks .shared

/-- The connection blocks nobody unless a begin call has succeeded. -/
def Quiet (t : TxPager) : Prop := t.begun = true ∨ AtShared t.pager.lock

/-- Outside a transaction that a begin call opened, a climb to `EXCLUSIVE`
is refused at its first step or goes through. -/
def RefusedAtOnce (t : TxPager) : PagerOp × Nat → Prop
  | (op, granted) => t.pager.conn.pager.txLockLevel.aboveShared = true ∨ t.pager.target op ≠ .exclusive ∨
      granted = 0 ∨ 3 ≤ granted

/-! ## Climbing and releasing -/

variable {granted : Nat} {outcomes : List Bool}

section ladder
variable {l : ProcessLock}

theorem LockOk.atShared (h : LockOk l) (hl : l.state.level = .shared) : AtShared l := by
  obtain ⟨probe, hrow⟩ := h.row
  cases probe with
  | true => cases hl.symm.trans (hrow.unlocked rfl)
  | false => exact ⟨hl, by rw [hrow.held, hl]; rfl⟩

/-- A climb that meets nobody reaches its level, and so does the descent
behind it. -/
theorem setLevel_through (hl : l.state.level ≠ .unlocked) {target : LockLevel} (ht : target ≠ .unlocked) :
    let r := l.setLevel target (List.replicate 8 true)
    r.1 = true ∧ (r.2.1.setLevel .shared r.2.2).1 = true := by
  obtain ⟨⟨level, call⟩, held⟩ := l
  cases level <;> cases target <;> first | exact absurd rfl ‹_› | exact ⟨rfl, rfl⟩

/-- A climb that is refused stays below its level, and where it was when it
is refused at its first step. -/
theorem setLevel_refused (hl : l.state.level ≠ .unlocked) {target : LockLevel}
    (hlt : l.state.level.rank + granted < target.rank) :
    let r := l.setLevel target (List.replicate granted true ++ [false])
    r.1 = false ∧ r.2.1.state.level ≠ .unlocked ∧ (granted = 0 → r.2.1.state.level = l.state.level) := by
  obtain ⟨⟨level, call⟩, held⟩ := l
  replace hlt : level.rank + granted < target.rank := hlt
  have h2 : granted < 3 := by
    cases level <;> cases target <;> first | exact absurd rfl hl | (simp only [LockLevel.rank] at hlt; omega)
  obtain rfl | rfl | rfl : granted = 0 ∨ granted = 1 ∨ granted = 2 := by omega
  all_goals
    cases level <;> cases target <;>
      first
      | exact absurd rfl hl
      | exact absurd hlt (by decide)
      | exact ⟨rfl, (fun h => by cases h), fun _ => rfl⟩
      | exact ⟨rfl, (fun h => by cases h), fun h => by cases h⟩

theorem setLevel_grants (hl : l.state.level ≠ .unlocked) {target : LockLevel} (ht : target ≠ .unlocked)
    (granted : Nat) :
    let r := l.setLevel target (grants l.state.level target granted)
    (r.1 = true ∧ (r.2.1.setLevel .shared r.2.2).1 = true) ∨
    (r.1 = false ∧ l.state.level.rank + granted < target.rank ∧ r.2.1.state.level ≠ .unlocked ∧
      (granted = 0 → r.2.1.state.level = l.state.level)) := by
  unfold grants
  split
  · exact .inl (setLevel_through hl ht)
  · rename_i hlt
    obtain ⟨h1, h2⟩ := setLevel_refused hl (Nat.lt_of_not_le hlt)
    exact .inr ⟨h1, Nat.lt_of_not_le hlt, h2⟩

theorem level_of_setLevel {target : LockLevel} (h : (l.setLevel target outcomes).1 = true) :
    (l.setLevel target outcomes).2.1.state.level = target :=
  eq_of_beq h

end ladder

/-! ## The transaction level -/

section level
variable {s : Conn} {level : LockLevel}

theorem connOps_txLockLevel (n : UInt32) : (connOps n).Keeps fun t => t.pager.txLockLevel = level where
  readPage p t h := by
    simp only [connOps, Action.exec_ofFn, Conn.readPage, Conn.readCached]
    repeat' split
    all_goals exact h
  getPageMut p t h := by
    simp only [connOps, Action.exec_ofFn, Conn.getPageMut]
    repeat' split
    all_goals exact h
  putPage _ _ _ h := h
  insertPage _ _ _ h := h

theorem openWriter_txLockLevel (salts : UInt32 × UInt32) :
    (s.openWriter salts).2.pager.txLockLevel = s.pager.txLockLevel := by
  unfold Conn.openWriter
  split <;> rfl

theorem flushWalLocked_txLockLevel (salts : UInt32 × UInt32) :
    (s.flushWalLocked salts).2.pager.txLockLevel = s.pager.txLockLevel := by
  have hread : (s.readPage 1).2.pager.txLockLevel = s.pager.txLockLevel :=
    (connOps_txLockLevel 0).readPage 1 s rfl
  unfold Conn.flushWalLocked
  rcases hr : s.readPage 1 with ⟨e | page1, s₁⟩ <;> rw [hr] at hread
  · exact hread
  · simp only
    split
    · exact hread
    · have hopen := @openWriter_txLockLevel s₁ salts
      rcases ho : s₁.openWriter salts with ⟨e | writer, s₂⟩ <;> rw [ho] at hopen
      · exact hopen.trans hread
      · exact hopen.trans hread

end level

/-! ## Runs -/

/-- The ladder is above `Shared` only while `tx_lock_level` is, and that is
so only after a begin call that succeeded. -/
structure TxInv (t : TxPager) : Prop where
  ok : LockOk t.pager.lock
  locked : t.pager.lock.state.level ≠ .unlocked
  above : t.pager.conn.pager.txLockLevel.aboveShared = true → t.begun = true
  below : t.pager.conn.pager.txLockLevel.aboveShared = false → t.pager.lock.state.level = .shared

section steps
variable {t : TxPager}

theorem TxInv.ofShared {s : LockedPager} (hok : LockOk s.lock) (hl : s.lock.state.level = .shared)
    (htx : s.conn.pager.txLockLevel.aboveShared = false) (begun : Bool) : TxInv ⟨s, begun⟩ where
  ok := hok
  locked := by rw [hl]; decide
  above h := by rw [htx] at h; cases h
  below _ := hl

theorem TxInv.setConn (h : TxInv t) (conn : Conn)
    (htx : conn.pager.txLockLevel = t.pager.conn.pager.txLockLevel) : TxInv ⟨⟨conn, t.pager.lock⟩, t.begun⟩ where
  ok := h.ok
  locked := h.locked
  above := by simp only [htx]; exact h.above
  below := by simp only [htx]; exact h.below

theorem TxInv.grants_release (h : TxInv t) (granted : Nat) :
    grants t.pager.lock.state.level .shared granted = List.replicate 8 true := by
  refine if_pos ?_
  have := h.locked
  cases hl : t.pager.lock.state.level <;> simp_all [LockLevel.rank] <;> omega

theorem TxInv.release (h : TxInv t) (granted : Nat) (begun : Bool) :
    let outcomes := grants t.pager.lock.state.level .shared granted
    t.pager.releaseOk outcomes = true ∧ TxInv ⟨t.pager.releaseTxLock outcomes, begun⟩ := by
  obtain ⟨hup, -⟩ := @setLevel_through t.pager.lock h.locked .shared nofun
  simp only [h.grants_release granted]
  refine ⟨by simp only [LockedPager.releaseOk, hup, Bool.or_true], ?_⟩
  simp only [LockedPager.releaseTxLock, hup]
  split
  · exact .ofShared (h.ok.setLevel _ _) (level_of_setLevel hup) rfl _
  · rename_i htx
    rw [Bool.not_eq_true] at htx
    exact .ofShared h.ok (h.below htx) htx _

/-- A climb that is refused at once, or inside a transaction. -/
theorem TxInv.refused (h : TxInv t) {target : LockLevel} (hlt : t.pager.lock.state.level.rank + granted < target.rank)
    (hlocked : (t.pager.lock.setLevel target outcomes).2.1.state.level ≠ .unlocked)
    (hstay : granted = 0 → (t.pager.lock.setLevel target outcomes).2.1.state.level = t.pager.lock.state.level)
    (hop : t.pager.conn.pager.txLockLevel.aboveShared = true ∨ target = .reserved ∨ granted = 0 ∨ 3 ≤ granted) :
    TxInv ⟨⟨t.pager.conn, (t.pager.lock.setLevel target outcomes).2.1⟩, t.begun⟩ := by
  refine ⟨h.ok.setLevel _ _, hlocked, h.above, fun htx => ?_⟩
  have hl := h.below htx
  have hg : granted = 0 := by
    rw [hl] at hlt
    obtain habove | rfl | h0 | h3 := hop
    · rw [habove] at htx; cases htx
    · simp only [LockLevel.rank] at hlt; omega
    · exact h0
    · cases target <;> simp only [LockLevel.rank] at hlt <;> omega
  exact (hstay hg).trans hl

theorem TxInv.begin (h : TxInv t) {target : LockLevel} (ht : target = .reserved ∨ target = .exclusive)
    (granted : Nat)
    (hop : t.pager.conn.pager.txLockLevel.aboveShared = true ∨ target ≠ .exclusive ∨ granted = 0 ∨ 3 ≤ granted) :
    let outcomes := grants t.pager.lock.state.level target granted
    TxInv ⟨t.pager.begin target outcomes, (t.pager.lock.setLevel target outcomes).1 || t.begun⟩ := by
  have hne : target ≠ .unlocked := by obtain rfl | rfl := ht <;> decide
  have hop' : t.pager.conn.pager.txLockLevel.aboveShared = true ∨ target = .reserved ∨ granted = 0 ∨
      3 ≤ granted := by
    obtain h1 | h1 | h1 := hop
    · exact .inl h1
    · exact .inr (.inl (ht.resolve_right h1))
    · exact .inr (.inr h1)
  simp only [LockedPager.begin]
  obtain ⟨hup, -⟩ | ⟨hup, hlt, hlocked, hstay⟩ := setLevel_grants h.locked hne granted
  · simp only [hup, if_true]
    refine ⟨h.ok.setLevel _ _, by rw [level_of_setLevel hup]; exact hne, fun _ => rfl, ?_⟩
    obtain rfl | rfl := ht <;> exact fun h => by cases h
  · simp only [hup]
    exact h.refused hlt hlocked hstay hop'

theorem TxInv.flush (h : TxInv t) (nonce : UInt32) (salts : UInt32 × UInt32) (granted : Nat)
    (hop : RefusedAtOnce t (.flush nonce salts, granted)) : TxInv (t.next (.flush nonce salts) granted) := by
  simp only [RefusedAtOnce] at hop
  simp only [TxPager.next, LockedPager.next, TxPager.nextBegun, LockedPager.grants]
  by_cases hdirty : t.pager.conn.pager.dirty.isEmpty = true
  · have ht : t.pager.target (.flush nonce salts) = .shared := if_pos hdirty
    simp only [ht, LockedPager.flush, hdirty, if_true]
    exact (h.release granted _).2
  by_cases hmode : t.pager.conn.pager.journalMode = .wal
  · have ht : t.pager.target (.flush nonce salts) = .shared := by
      simp only [LockedPager.target, hdirty, hmode]; rfl
    simp only [ht, LockedPager.flush, hdirty, hmode]
    exact ((h.setConn _ (flushWalLocked_txLockLevel salts)).release granted _).2
  · replace hmode : t.pager.conn.pager.journalMode = .legacy := by
      cases hm : t.pager.conn.pager.journalMode <;> simp_all
    have ht : t.pager.target (.flush nonce salts) = .exclusive := by
      simp only [LockedPager.target, hdirty, hmode]; rfl
    rw [ht] at hop
    simp only [ht, LockedPager.flush, LockedPager.flushOk, hdirty, hmode]
    obtain ⟨hup, hdown⟩ | ⟨hup, hlt, hlocked, hstay⟩ :=
      @setLevel_grants _ h.locked .exclusive (by decide) granted
    · simp only [hup, hdown]
      exact .ofShared ((h.ok.setLevel _ _).setLevel _ _) (level_of_setLevel hdown) rfl _
    · simp only [hup]
      exact h.refused hlt hlocked hstay (hop.imp_right fun h => .inr (h.resolve_left (· rfl)))

theorem TxInv.next (h : TxInv t) {op : PagerOp} {granted : Nat} (hmode : op.setsMode = false)
    (hop : RefusedAtOnce t (op, granted)) : TxInv (t.next op granted) := by
  have hkeep := @connOps_txLockLevel t.pager.conn.pager.txLockLevel t.pager.conn.pager.pageSize
  cases op with
  | readPage p => exact h.setConn _ (hkeep.readPage p t.pager.conn rfl)
  | editPage p bytes => exact h.setConn _ (hkeep.edit p _ t.pager.conn rfl)
  | allocatePage => exact h.setConn _ (allocatePage_keeps hkeep t.pager.conn rfl)
  | deallocatePage p => exact h.setConn _ (deallocatePage_keeps hkeep p t.pager.conn rfl)
  | rollback =>
    exact ((h.setConn { t.pager.conn with pager.dirty := ∅ } rfl).release granted _).2
  | beginImmediate => exact h.begin (.inl rfl) granted hop
  | beginExclusive => exact h.begin (.inr rfl) granted hop
  | setSynchronous mode => exact h.setConn _ rfl
  | flush nonce salts => exact h.flush nonce salts granted hop
  | setJournalMode mode salts => cases hmode

end steps

theorem open_shared {hot : Bool} {l : ProcessLock} (h : ProcessLock.open hot outcomes = some l) :
    l.state.level = .shared := by
  simp only [ProcessLock.open] at h
  split at h
  · split at h
    · split at h
      · split at h
        · rename_i hdown
          cases h
          exact level_of_setLevel hdown
        · cases h
      · cases h
    · rename_i hup _
      cases h
      exact level_of_setLevel hup
  · cases h

theorem open_txLockLevel {disk : Disk} {ps : UInt32} {conn : Conn} (h : Pager.open disk ps = .ok conn) :
    conn.pager.txLockLevel = .shared := by
  unfold Pager.open at h
  split at h
  · cases h
  simp only at h
  split at h
  · cases h
  split at h
  · cases h
  · cases h
    rfl

theorem txLocks_inductive (ps : UInt32) : ((txLocks ps).restrict RefusedAtOnce).Inductive TxInv where
  init := by
    rintro t ⟨⟨disk, outcomes, hconn, hlock⟩, -⟩
    exact .ofShared (.open hlock) (open_shared hlock) (by rw [open_txLockLevel hconn]; rfl) _
  step := by
    rintro t ⟨op, granted⟩ t' h ⟨⟨hmode, rfl⟩, hop⟩
    exact h.next hmode hop

theorem TxInv.quiet {t : TxPager} (h : TxInv t) : Quiet t := by
  cases htx : t.pager.conn.pager.txLockLevel.aboveShared with
  | true => exact .inl (h.above htx)
  | false => exact .inr (h.ok.atShared (h.below htx))

/-- **The level between transactions.** In every run in which, outside a
transaction, other processes refuse a climb to `EXCLUSIVE` at its first step
or not at all, the connection is at `Shared` unless a begin call has
succeeded since the last successful flush or rollback, and a rollback takes
it to `Shared` from anywhere. -/
theorem shared_between_transactions (ps : UInt32) (t : TxPager)
    (h : ((txLocks ps).restrict RefusedAtOnce).Reachable t) :
    Quiet t ∧ ∀ granted, AtShared (t.next .rollback granted).pager.lock := by
  have hi := (txLocks_inductive ps).reachable t h
  refine ⟨hi.quiet, fun granted => ?_⟩
  obtain ⟨-, hr⟩ := (hi.setConn { t.pager.conn with pager.dirty := ∅ } rfl).release granted false
  exact hr.quiet.resolve_left nofun

/-! ## A climb that stops midway -/

/-- The `WAL` database of `lockedWal`, before any transaction. -/
def idleWal : TxPager := ⟨lockedWal, false⟩

theorem idleWal_reachable (Q : TxPager → PagerOp × Nat → Prop) :
    ((txLocks 512).restrict Q).Reachable idleWal :=
  ⟨idleWal, [], ⟨⟨_, [true, true, true], open_walConn, rfl⟩, rfl⟩, .nil _⟩

theorem reachable_tx {Q : TxPager → PagerOp × Nat → Prop} {ps : UInt32} {t : TxPager}
    (h : ((txLocks ps).restrict Q).Reachable t) (op : PagerOp) (granted : Nat)
    (hmode : op.setsMode = false) (hop : Q t (op, granted)) :
    ((txLocks ps).restrict Q).Reachable (t.next op granted) :=
  h.step (l := (op, granted)) ⟨⟨hmode, rfl⟩, hop⟩

/-- Another process reads: `begin_exclusive` takes `RESERVED` and `PENDING`
and is refused at the `SHARED` range. -/
def stuckPending : TxPager := idleWal.next .beginExclusive 2

/-- **Counterexample**: the refused `begin_exclusive` leaves the ladder at
`PENDING`, where no other process can start to read, and so does the
rollback after it. -/
theorem climb_stops_midway :
    (txLocks 512).Reachable stuckPending ∧ stuckPending.begun = false ∧ ¬ Quiet stuckPending ∧
      (stuckPending.next .rollback 8).pager.lock.state.level = .pending ∧
      (stuckPending.next .rollback 8).pager.lock.held pendingByte = some .write := by
  have hlevel : stuckPending.pager.lock.state.level = .pending := by decide +kernel
  have hbegun : stuckPending.begun = false := by decide +kernel
  have hreach : ((txLocks 512).restrict fun _ _ => True).Reachable stuckPending :=
    reachable_tx (idleWal_reachable _) .beginExclusive 2 rfl trivial
  refine ⟨hreach.of_restrict, hbegun, ?_, by decide +kernel, by decide +kernel⟩
  rintro (hb | ⟨hl, -⟩)
  · rw [hbegun] at hb; cases hb
  · rw [hlevel] at hl; cases hl

/-- A `begin_exclusive` that is refused at once blocks nobody. -/
theorem refused_at_once_quiet :
    Quiet (idleWal.next .beginExclusive 0) ∧
      ∀ granted, AtShared ((idleWal.next .beginExclusive 0).next .rollback granted).pager.lock :=
  shared_between_transactions 512 _
    (reachable_tx (idleWal_reachable _) .beginExclusive 0 rfl (.inr (.inr (.inl rfl))))

end DbStorage.Pager
