import DbStorage.Core.LTS
import DbStorage.Core.RecordLock

/-!
# The lock ladder (`vfs/lock.rs`)

`FileLockState::set_level` climbs and descends SQLite's five lock levels
one `fcntl` call at a time. `lockSystem` runs it in any number of processes
on one file, interleaved between single `fcntl` calls, each of which may
also fail: by contention when another process is in the way, by an I/O
error at any time.

Results:
* `exclusion_always`: in every run, a process at `Exclusive` leaves every other
  process at `Unlocked`, and at most one process is at `Reserved` or above.
* `levels_hold`: while the second call of the step to `Shared` (the unlock
  of the `PENDING` probe) does not fail, the locks a process holds between
  two calls of `set_level` are exactly those of its level. `probe_leaked`
  is the run in which it fails.
* `writer_blocks_readers`: while no process takes `PENDING` between the
  probe and the last call of another process's step to `Shared`, nobody
  reaches `Shared` past a waiting writer. `reader_slips_in` is the run in
  which a process does.

Left out: `F_GETLK` (`check_reserved`), which changes nothing, and the drop
of a `FileLockState`, which is `set_level(Unlocked)` and a close.
-/
namespace DbStorage.Pager

/-- mirrors lock.rs:34-53 -/
inductive LockLevel where
  | unlocked
  | shared
  | reserved
  | pending
  | exclusive
  deriving DecidableEq

/-- `level > LockLevel::Shared` -/
def LockLevel.aboveShared : LockLevel → Bool
  | .unlocked | .shared => false
  | .reserved | .pending | .exclusive => true

/-- The derived order: `Unlocked < Shared < Reserved < Pending < Exclusive`. -/
def LockLevel.rank : LockLevel → Nat
  | .unlocked => 0
  | .shared => 1
  | .reserved => 2
  | .pending => 3
  | .exclusive => 4

end DbStorage.Pager

namespace DbStorage.Vfs
open Pager RecordLock

/-- mirrors lock.rs:20-28 -/
def pendingByte : Nat := 0x40000000

def reservedByte : Nat := pendingByte + 1

def sharedFirst : Nat := pendingByte + 2

def sharedSize : Nat := 510

def rdlck (start len : Nat) : Request := ⟨some .read, start, len⟩

def wrlck (start len : Nat) : Request := ⟨some .write, start, len⟩

def unlck (start len : Nat) : Request := ⟨none, start, len⟩

/-- The `fcntl` calls of one step up and the level they reach.
mirrors lock.rs:121-150 -/
def stepUp : LockLevel → List Request × LockLevel
  | .unlocked =>
    ([rdlck pendingByte 1, unlck pendingByte 1, rdlck sharedFirst sharedSize], .shared)
  | .shared => ([wrlck reservedByte 1], .reserved)
  | .reserved => ([wrlck pendingByte 1], .pending)
  | .pending => ([wrlck sharedFirst sharedSize], .exclusive)
  | .exclusive => ([], .exclusive)

/-- mirrors lock.rs:152-175 -/
def stepDown : LockLevel → List Request × LockLevel
  | .exclusive => ([rdlck sharedFirst sharedSize], .pending)
  | .pending => ([unlck pendingByte 1], .reserved)
  | .reserved => ([unlck reservedByte 1], .shared)
  | .shared => ([unlck sharedFirst sharedSize], .unlocked)
  | .unlocked => ([], .unlocked)

/-- Where a process is inside `set_level`: the `fcntl` calls left in the
current step and the level the step reaches. -/
structure Call where
  target : LockLevel
  todo : List Request
  dest : LockLevel
  deriving DecidableEq

/-- mirrors lock.rs:61-64; `call = none` outside `set_level`. -/
structure FileLockState where
  level : LockLevel
  call : Option Call
  deriving DecidableEq

/-- The two loops of `set_level`: the next step, or the return.
mirrors lock.rs:111-119 -/
def FileLockState.loop (level target : LockLevel) : FileLockState :=
  if level.rank < target.rank then ⟨level, some ⟨target, (stepUp level).1, (stepUp level).2⟩⟩
  else if target.rank < level.rank then ⟨level, some ⟨target, (stepDown level).1, (stepDown level).2⟩⟩
  else ⟨level, none⟩

def FileLockState.setLevel (s : FileLockState) (target : LockLevel) : FileLockState :=
  .loop s.level target

/-- After a granted `fcntl` call: the next call of the step, or the step is
complete. -/
def FileLockState.granted (s : FileLockState) : FileLockState :=
  match s.call with
  | some ⟨target, _ :: r :: rest, dest⟩ => { s with call := some ⟨target, r :: rest, dest⟩ }
  | some ⟨target, [_], dest⟩ => .loop dest target
  | _ => s

/-- After a failed call `?` returns the error. -/
def FileLockState.failed (s : FileLockState) : FileLockState := { s with call := none }

/-! ## Any number of processes -/

/-- The lock table of the file, and every process. -/
structure LockWorld (P : Type) where
  locks : Table P
  procs : P → FileLockState

inductive Outcome where
  | granted
  | contended
  | ioError
  deriving DecidableEq

inductive LockOp (P : Type) where
  | setLevel (p : P) (target : LockLevel)
  | fcntl (p : P) (outcome : Outcome)
  deriving DecidableEq

variable {P : Type} [DecidableEq P]

/-- Process `p` makes the `fcntl` call `r`. -/
def LockWorld.fcntlStep (s : LockWorld P) (p : P) (r : Request) : Outcome → LockWorld P → Prop
  | .granted, s' => Grantable s.locks p r ∧
      s' = ⟨RecordLock.set s.locks p r, Function.update s.procs p (s.procs p).granted⟩
  | .contended, s' => ¬ Grantable s.locks p r ∧
      s' = { s with procs := Function.update s.procs p (s.procs p).failed }
  | .ioError, s' => s' = { s with procs := Function.update s.procs p (s.procs p).failed }

def lockSystem (P : Type) [DecidableEq P] : LTS (LockWorld P) (LockOp P) where
  init s := s = ⟨fun _ _ => none, fun _ => ⟨.unlocked, none⟩⟩
  step s l s' := match l with
    | .setLevel p target => (s.procs p).call = none ∧
        s' = { s with procs := Function.update s.procs p ((s.procs p).setLevel target) }
    | .fcntl p o => ∃ c r rest, (s.procs p).call = some c ∧ c.todo = r :: rest ∧ s.fcntlStep p r o s'

/-- The steps of finitely many processes, computed. -/
def LockWorld.next [Fintype P] (s : LockWorld P) : LockOp P → Option (LockWorld P)
  | .setLevel p target =>
    if (s.procs p).call = none then
      some { s with procs := Function.update s.procs p ((s.procs p).setLevel target) }
    else none
  | .fcntl p o =>
    match (s.procs p).call with
    | some ⟨_, r :: _, _⟩ =>
      match o with
      | .granted =>
        if Grantable s.locks p r then
          some ⟨RecordLock.set s.locks p r, Function.update s.procs p (s.procs p).granted⟩
        else none
      | .contended =>
        if Grantable s.locks p r then none
        else some { s with procs := Function.update s.procs p (s.procs p).failed }
      | .ioError => some { s with procs := Function.update s.procs p (s.procs p).failed }
    | _ => none

theorem LockWorld.next_step [Fintype P] {s s' : LockWorld P} {l : LockOp P} (h : s.next l = some s') :
    (lockSystem P).step s l s' := by
  cases l with
  | setLevel p target =>
    rw [LockWorld.next] at h
    split at h
    · cases h; exact ⟨‹_›, rfl⟩
    · cases h
  | fcntl p o =>
    rw [LockWorld.next] at h
    split at h
    · rename_i target r rest dest hc
      refine ⟨_, r, rest, hc, rfl, ?_⟩
      cases o with
      | granted =>
        dsimp only at h
        split at h
        · cases h; exact ⟨‹_›, rfl⟩
        · cases h
      | contended =>
        dsimp only at h
        split at h
        · cases h
        · cases h; exact ⟨‹_›, rfl⟩
      | ioError => cases h; rfl
    · cases h

/-! ## The locks of a level -/

/-- The locks a process holds at a level; `probe` says whether it also has
the read lock of the `PENDING` probe. -/
def heldAt (level : LockLevel) (probe : Bool) (b : Nat) : Option Mode :=
  if b = pendingByte then
    (if LockLevel.pending.rank ≤ level.rank then some .write else if probe then some .read else none)
  else if b = reservedByte then (if LockLevel.reserved.rank ≤ level.rank then some .write else none)
  else if sharedFirst ≤ b ∧ b < sharedFirst + sharedSize then
    (match level with
      | .unlocked => none
      | .exclusive => some .write
      | _ => some .read)
  else none

/-- The byte ranges and modes of a level.
mirrors lock.rs:34-53 -/
def levelLocks (level : LockLevel) : Nat → Option Mode := heldAt level false

/-- Where a process may be in a call of `set_level`, with its level and
whether it holds the probe's lock. -/
inductive Stage : LockLevel → Bool → Call → Prop where
  | up {level target : LockLevel} {probe : Bool} : level.rank < target.rank →
      Stage level probe ⟨target, (stepUp level).1, (stepUp level).2⟩
  | down {level target : LockLevel} {probe : Bool} : target.rank < level.rank →
      Stage level probe ⟨target, (stepDown level).1, (stepDown level).2⟩
  | probed {target : LockLevel} :
      Stage .unlocked true ⟨target, [unlck pendingByte 1, rdlck sharedFirst sharedSize], .shared⟩
  | passed {target : LockLevel} :
      Stage .unlocked false ⟨target, [rdlck sharedFirst sharedSize], .shared⟩

variable {level : LockLevel} {probe probe' : Bool} {row : Nat → Option Mode} {s : LockWorld P} {r : Request}
  {l : LockOp P} {p : P} {f f' : FileLockState} {t : Table P}

theorem Stage.todo_ne_nil {c : Call} (h : Stage level probe c) : c.todo ≠ [] := by
  cases h with
  | @up level target probe hlt => cases level <;> cases target <;> simp_all [stepUp, LockLevel.rank]
  | @down level target probe hlt => cases level <;> simp_all [stepDown, LockLevel.rank]
  | probed => simp
  | passed => simp

/-- What a process holds, given where it is. -/
structure HoldsRow (s : FileLockState) (row : Nat → Option Mode) (probe : Bool) : Prop where
  held : row = heldAt s.level probe
  unlocked : probe = true → s.level = .unlocked
  stage : ∀ c, s.call = some c → Stage s.level probe c

theorem HoldsRow.loop {target : LockLevel} (hrow : row = heldAt level probe) (hp : probe = true → level = .unlocked) :
    HoldsRow (.loop level target) row probe := by
  unfold FileLockState.loop
  split
  · exact ⟨hrow, hp, by rintro c ⟨⟩; exact .up ‹_›⟩
  split
  · exact ⟨hrow, hp, by rintro c ⟨⟩; exact .down ‹_›⟩
  · exact ⟨hrow, hp, by rintro c ⟨⟩⟩

theorem HoldsRow.failed {s : FileLockState} (h : HoldsRow s row probe) : HoldsRow s.failed row probe :=
  ⟨h.held, h.unlocked, by rintro c ⟨⟩⟩

/-- A one-call step turns the locks of its level into those of the next. -/
theorem applyTo_stepUp (h : (stepUp level).1 = [r]) :
    applyTo r (heldAt level false) = heldAt (stepUp level).2 false := by
  funext b
  cases level <;> cases h <;>
    grind [applyTo, heldAt, stepUp, wrlck, LockLevel.rank, pendingByte, reservedByte, sharedFirst, sharedSize]

theorem applyTo_stepDown (h : (stepDown level).1 = [r]) :
    applyTo r (heldAt level false) = heldAt (stepDown level).2 false := by
  funext b
  cases level <;> cases h <;>
    grind [applyTo, heldAt, stepDown, rdlck, unlck, LockLevel.rank, pendingByte, reservedByte, sharedFirst,
      sharedSize]

theorem applyTo_probe (probe : Bool) :
    applyTo (rdlck pendingByte 1) (heldAt .unlocked probe) = heldAt .unlocked true := by
  funext b
  grind [applyTo, heldAt, rdlck, LockLevel.rank, pendingByte, reservedByte, sharedFirst, sharedSize]

theorem applyTo_unprobe :
    applyTo (unlck pendingByte 1) (heldAt .unlocked true) = heldAt .unlocked false := by
  funext b
  grind [applyTo, heldAt, unlck, LockLevel.rank, pendingByte, reservedByte, sharedFirst, sharedSize]

theorem applyTo_shared :
    applyTo (rdlck sharedFirst sharedSize) (heldAt .unlocked false) = heldAt .shared false := by
  funext b
  grind [applyTo, heldAt, rdlck, LockLevel.rank, pendingByte, reservedByte, sharedFirst, sharedSize]

/-- Everything a granted call can do: the three calls of the step to
`Shared`, or the single call of another step. -/
inductive Granted : FileLockState → Bool → Request → FileLockState → Bool → Prop where
  | probe {target : LockLevel} {probe : Bool} :
      Granted ⟨.unlocked, some ⟨target, (stepUp .unlocked).1, .shared⟩⟩ probe (rdlck pendingByte 1)
        ⟨.unlocked, some ⟨target, [unlck pendingByte 1, rdlck sharedFirst sharedSize], .shared⟩⟩ true
  | unprobe {target : LockLevel} :
      Granted ⟨.unlocked, some ⟨target, [unlck pendingByte 1, rdlck sharedFirst sharedSize], .shared⟩⟩ true
        (unlck pendingByte 1) ⟨.unlocked, some ⟨target, [rdlck sharedFirst sharedSize], .shared⟩⟩ false
  | join {target : LockLevel} :
      Granted ⟨.unlocked, some ⟨target, [rdlck sharedFirst sharedSize], .shared⟩⟩ false
        (rdlck sharedFirst sharedSize) (.loop .shared target) false
  | up {level target : LockLevel} {r : Request} : level ≠ .unlocked → (stepUp level).1 = [r] →
      Granted ⟨level, some ⟨target, [r], (stepUp level).2⟩⟩ false r (.loop (stepUp level).2 target) false
  | down {level target : LockLevel} {r : Request} : (stepDown level).1 = [r] →
      Granted ⟨level, some ⟨target, [r], (stepDown level).2⟩⟩ false r (.loop (stepDown level).2 target) false

theorem HoldsRow.granted_cases {s : FileLockState} {c : Call} {rest : List Request} (h : HoldsRow s row probe)
    (hc : s.call = some c) (htodo : c.todo = r :: rest) : ∃ probe', Granted s probe r s.granted probe' := by
  obtain ⟨target, todo, dest⟩ := c
  obtain ⟨level, call⟩ := s
  subst hc
  have hst : Stage level probe ⟨target, todo, dest⟩ := h.stage _ rfl
  -- no level above `Unlocked` holds the probe's lock
  have hfalse : level ≠ .unlocked → probe = false := by
    intro hne
    cases probe with
    | false => rfl
    | true => exact absurd (h.unlocked rfl) hne
  cases hst with
  | up hlt =>
    cases level with
    | unlocked => cases htodo; exact ⟨_, .probe⟩
    | exclusive => cases htodo
    | _ => cases htodo; rw [hfalse (by decide)]; exact ⟨_, .up (by decide) rfl⟩
  | down hlt =>
    cases level with
    | unlocked => cases htodo
    | _ => cases htodo; rw [hfalse (by decide)]; exact ⟨_, .down rfl⟩
  | probed => cases htodo; exact ⟨_, .unprobe⟩
  | passed => cases htodo; exact ⟨_, .join⟩

/-- **One `fcntl` call.** A granted call leads from one stage to the next. -/
theorem HoldsRow.granted {s s' : FileLockState} (h : HoldsRow s row probe) (hg : Granted s probe r s' probe') :
    HoldsRow s' (applyTo r row) probe' := by
  have hrow := h.held
  cases hg with
  | probe => exact ⟨hrow ▸ applyTo_probe probe, fun _ => rfl, by rintro c ⟨⟩; exact .probed⟩
  | unprobe => exact ⟨hrow ▸ applyTo_unprobe, fun _ => rfl, by rintro c ⟨⟩; exact .passed⟩
  | join => exact .loop (hrow ▸ applyTo_shared) (by intro h; cases h)
  | up _ hr => exact .loop (hrow ▸ applyTo_stepUp hr) (by intro h; cases h)
  | down hr => exact .loop (hrow ▸ applyTo_stepDown hr) (by intro h; cases h)

/-! ## The invariant of every run -/

/-- What one step does to the process that takes it. -/
inductive ProcStep (s : LockWorld P) (p : P) : LockOp P → FileLockState → Table P → Prop where
  | setLevel {target : LockLevel} : (s.procs p).call = none →
      ProcStep s p (.setLevel p target) ((s.procs p).setLevel target) s.locks
  | granted {c : Call} {r : Request} {rest : List Request} : (s.procs p).call = some c →
      c.todo = r :: rest → Grantable s.locks p r →
      ProcStep s p (.fcntl p .granted) (s.procs p).granted (RecordLock.set s.locks p r)
  | failed {c : Call} {r : Request} {rest : List Request} {o : Outcome} : (s.procs p).call = some c →
      c.todo = r :: rest → (o = .contended ∧ ¬ Grantable s.locks p r ∨ o = .ioError) →
      ProcStep s p (.fcntl p o) (s.procs p).failed s.locks

theorem lockStep_cases {s' : LockWorld P} (h : (lockSystem P).step s l s') :
    ∃ p f t, ProcStep s p l f t ∧ s' = ⟨t, Function.update s.procs p f⟩ := by
  cases l with
  | setLevel p target =>
    obtain ⟨hc, rfl⟩ := h
    exact ⟨p, _, _, .setLevel hc, rfl⟩
  | fcntl p o =>
    obtain ⟨c, r, rest, hc, htodo, hf⟩ := h
    cases o with
    | granted =>
      obtain ⟨hg, rfl⟩ := hf
      exact ⟨p, _, _, .granted hc htodo hg, rfl⟩
    | contended =>
      obtain ⟨hg, rfl⟩ := hf
      exact ⟨p, _, _, .failed hc htodo (.inl ⟨rfl, hg⟩), rfl⟩
    | ioError =>
      cases hf
      exact ⟨p, _, _, .failed hc htodo (.inr rfl), rfl⟩

/-- Every process holds what its place in the ladder says, apart from the
probe's lock, and the table is coherent. -/
structure LockInv (s : LockWorld P) : Prop where
  coherent : Coherent s.locks
  rows : ∀ p, ∃ probe, HoldsRow (s.procs p) (s.locks p) probe

theorem LockInv.procStep (h : LockInv s) (hs : ProcStep s p l f t) :
    Coherent t ∧ (∀ q, q ≠ p → t q = s.locks q) ∧ ∃ probe, HoldsRow f (t p) probe := by
  obtain ⟨probe, hrow⟩ := h.rows p
  cases hs with
  | setLevel => exact ⟨h.coherent, fun _ _ => rfl, probe, .loop hrow.held hrow.unlocked⟩
  | @granted c r rest hc htodo hg =>
    obtain ⟨probe', hgr⟩ := hrow.granted_cases hc htodo
    refine ⟨h.coherent.set hg, fun q hq => Function.update_of_ne hq _ _, probe', ?_⟩
    rw [RecordLock.set, Function.update_self]
    exact hrow.granted hgr
  | failed => exact ⟨h.coherent, fun _ _ => rfl, probe, hrow.failed⟩

theorem lockSystem_inductive : (lockSystem P).Inductive LockInv where
  init := by
    rintro s rfl
    refine ⟨coherent_empty, fun p => ⟨false, ?_, (by intro h; cases h), (by rintro c ⟨⟩)⟩⟩
    funext b
    grind [heldAt, LockLevel.rank]
  step := by
    intro s l s' h hs
    obtain ⟨p, f, t, hp, rfl⟩ := lockStep_cases hs
    obtain ⟨hco, hother, hrow⟩ := h.procStep hp
    refine ⟨hco, fun q => ?_⟩
    show ∃ probe, HoldsRow (Function.update s.procs p f q) (t q) probe
    by_cases hq : q = p
    · subst hq
      rwa [Function.update_self]
    · rw [Function.update_of_ne hq, hother q hq]
      exact h.rows q

omit [DecidableEq P] in
/-- **Exclusion.** A process at `Exclusive` leaves every other process at
`Unlocked`, and at most one process is at `Reserved` or above. -/
theorem LockInv.exclusion (h : LockInv s) {q : P} (hne : p ≠ q) :
    ((s.procs p).level = .exclusive → (s.procs q).level = .unlocked) ∧
    (LockLevel.reserved.rank ≤ (s.procs p).level.rank →
      (s.procs q).level.rank < LockLevel.reserved.rank) := by
  obtain ⟨probe, hp⟩ := h.rows p
  obtain ⟨probe', hq⟩ := h.rows q
  constructor
  · intro hex
    have hw : s.locks p sharedFirst = some .write := by rw [hp.held, hex]; rfl
    have hnone := h.coherent p q sharedFirst hne hw
    rw [hq.held] at hnone
    revert hnone
    cases (s.procs q).level <;> simp [heldAt, sharedFirst, sharedSize, reservedByte]
  · intro hres
    have hw : s.locks p reservedByte = some .write := by
      rw [hp.held]
      simp [heldAt, reservedByte, hres]
    have hnone := h.coherent p q reservedByte hne hw
    rw [hq.held] at hnone
    simpa [heldAt, reservedByte] using hnone

/-! ## Levels and locks -/

/-- The second call of the step to `Shared` is next. -/
def FileLockState.Unprobes (f : FileLockState) : Prop :=
  f.level = .unlocked ∧ ∃ c rest, f.call = some c ∧ c.todo = unlck pendingByte 1 :: rest

/-- The call that takes the probe's lock is followed by its unlock. -/
theorem Granted.unprobes (h : Granted f probe r f' true) : f'.Unprobes := by
  cases h
  exact ⟨rfl, _, _, rfl, rfl⟩

/-- The unlock of the `PENDING` probe does not fail. -/
def UnprobeWorks (s : LockWorld P) : LockOp P → Prop
  | .fcntl p .ioError => ¬ (s.procs p).Unprobes
  | _ => True

/-- The probe's lock is held between the first and the second call only. -/
structure ProbeInv (s : LockWorld P) : Prop where
  inv : LockInv s
  rows : ∀ p, ∃ probe, HoldsRow (s.procs p) (s.locks p) probe ∧ (probe = true → (s.procs p).Unprobes)

theorem ProbeInv.procStep (h : ProbeInv s) (hs : ProcStep s p l f t) (hl : UnprobeWorks s l) :
    ∃ probe, HoldsRow f (t p) probe ∧ (probe = true → f.Unprobes) := by
  obtain ⟨probe, hrow, hprobe⟩ := h.rows p
  cases hs with
  | setLevel hc =>
    refine ⟨probe, .loop hrow.held hrow.unlocked, fun hp => ?_⟩
    obtain ⟨-, c, rest, hc', -⟩ := hprobe hp
    rw [hc] at hc'
    cases hc'
  | @granted c r rest hc htodo hg =>
    obtain ⟨probe', hgr⟩ := hrow.granted_cases hc htodo
    rw [RecordLock.set, Function.update_self]
    refine ⟨probe', hrow.granted hgr, fun hp => ?_⟩
    subst hp
    exact hgr.unprobes
  | @failed c r rest o hc htodo ho =>
    refine ⟨probe, hrow.failed, fun hp => ?_⟩
    -- the failed call was the unlock, which contention cannot stop
    have hun := hprobe hp
    rcases ho with ⟨-, hg⟩ | rfl
    · obtain ⟨-, c', rest', hc', htodo'⟩ := hun
      rw [hc] at hc'
      cases hc'
      rw [htodo] at htodo'
      cases htodo'
      exact absurd (grantable_unlock _ _ _ _) hg
    · exact absurd hun hl

theorem probe_inductive : ((lockSystem P).restrict UnprobeWorks).Inductive ProbeInv where
  init := by
    rintro s rfl
    have h := (lockSystem_inductive (P := P)).init _ rfl
    refine ⟨h, fun p => ⟨false, ?_, by intro h; cases h⟩⟩
    obtain ⟨probe, hp⟩ := h.rows p
    refine ⟨?_, (by intro h; cases h), (by rintro c ⟨⟩)⟩
    funext b
    grind [heldAt, LockLevel.rank]
  step := by
    rintro s l s' h ⟨hs, hl⟩
    refine ⟨lockSystem_inductive.step _ _ _ h.inv hs, fun q => ?_⟩
    obtain ⟨p, f, t, hp, rfl⟩ := lockStep_cases hs
    show ∃ probe, HoldsRow (Function.update s.procs p f q) (t q) probe ∧
      (probe = true → (Function.update s.procs p f q).Unprobes)
    by_cases hq : q = p
    · subst hq
      rw [Function.update_self]
      exact h.procStep hp hl
    · rw [Function.update_of_ne hq, (h.inv.procStep hp).2.1 q hq]
      exact h.rows q

/-- Exclusion between any two processes, and every process that is not
inside `set_level` holds exactly the locks of its level. -/
structure LadderHolds (s : LockWorld P) : Prop where
  exclusive : ∀ p q, p ≠ q → (s.procs p).level = .exclusive → (s.procs q).level = .unlocked
  reserved : ∀ p q, p ≠ q → LockLevel.reserved.rank ≤ (s.procs p).level.rank →
    (s.procs q).level.rank < LockLevel.reserved.rank
  levels : ∀ p, (s.procs p).call = none → s.locks p = levelLocks (s.procs p).level

/-- **The ladder.** In every run in which no unlock of the `PENDING` probe
fails, for any number of processes and any interleaving of their `fcntl`
calls, in every state: exclusion, and between two calls of `set_level` the
level field says exactly which locks are held. -/
theorem levels_hold (s : LockWorld P) (h : ((lockSystem P).restrict UnprobeWorks).Reachable s) :
    LadderHolds s := by
  have hinv := probe_inductive.reachable s h
  refine ⟨fun p q hne => (hinv.inv.exclusion hne).1, fun p q hne => (hinv.inv.exclusion hne).2, ?_⟩
  intro p hc
  obtain ⟨probe, hrow, hprobe⟩ := hinv.rows p
  cases probe with
  | false => exact hrow.held
  | true =>
    obtain ⟨-, c, rest, hc', -⟩ := hprobe rfl
    rw [hc] at hc'
    cases hc'

/-- Exclusion needs no condition on the failures. -/
theorem exclusion_always (s : LockWorld P) (h : (lockSystem P).Reachable s) {q : P} (hne : p ≠ q) :
    ((s.procs p).level = .exclusive → (s.procs q).level = .unlocked) ∧
    (LockLevel.reserved.rank ≤ (s.procs p).level.rank →
      (s.procs q).level.rank < LockLevel.reserved.rank) :=
  (lockSystem_inductive.reachable s h).exclusion hne

/-- Nobody has started. -/
def freshWorld (P : Type) : LockWorld P := ⟨fun _ _ => none, fun _ => ⟨.unlocked, none⟩⟩

theorem freshWorld_reachable (Q : LockWorld P → LockOp P → Prop) :
    ((lockSystem P).restrict Q).Reachable (freshWorld P) := ⟨_, [], rfl, .nil _⟩

/-- Where the calls `ls` lead from the start. -/
def afterOps [Fintype P] (guard : LockWorld P → LockOp P → Bool) (ls : List (LockOp P)) : LockWorld P :=
  (LTS.follow LockWorld.next guard ls (freshWorld P)).getD (freshWorld P)

theorem afterOps_reachable [Fintype P] {guard : LockWorld P → LockOp P → Bool} {ls : List (LockOp P)}
    (h : (LTS.follow LockWorld.next guard ls (freshWorld P)).isSome = true) :
    ((lockSystem P).restrict fun s l => guard s l = true).Reachable (afterOps guard ls) :=
  LTS.Reachable.follow (fun _ _ _ => LockWorld.next_step) (freshWorld_reachable _) (LTS.followed_getD h)

/-- `set_level(Shared)` whose unlock of the probe fails with an I/O error. -/
def leakRun : List (LockOp Unit) := [.setLevel () .shared, .fcntl () .granted, .fcntl () .ioError]

/-- **Counterexample**: the call has returned, the level is `Unlocked`, and
the process still holds the read lock on the `PENDING` byte. -/
theorem probe_leaked : ∃ s, (lockSystem Unit).Reachable s ∧ (s.procs ()).call = none ∧
    (s.procs ()).level = .unlocked ∧ s.locks () pendingByte = some .read ∧ ¬ LadderHolds s := by
  have hlevel : ((afterOps (fun _ _ => true) leakRun).procs ()) = ⟨.unlocked, none⟩ := by decide +kernel
  have hheld : (afterOps (fun _ _ => true) leakRun).locks () pendingByte = some .read := by
    decide +kernel
  refine ⟨_, (afterOps_reachable (by decide +kernel)).of_restrict, ?_, ?_, hheld, fun h => ?_⟩
  · rw [hlevel]
  · rw [hlevel]
  · have := h.levels () (by rw [hlevel])
    rw [hlevel] at this
    rw [this] at hheld
    exact absurd hheld (by decide +kernel)

/-- Process 0 climbs to `Exclusive` and process 1 finds `PENDING` taken. -/
def climbRun : List (LockOp (Fin 2)) :=
  [.setLevel 0 .exclusive, .fcntl 0 .granted, .fcntl 0 .granted, .fcntl 0 .granted, .fcntl 0 .granted,
    .fcntl 0 .granted, .fcntl 0 .granted, .setLevel 1 .shared, .fcntl 1 .contended]

/-- No call of the run fails with an I/O error. -/
def noIoError : LockWorld P → LockOp P → Bool
  | _, .fcntl _ .ioError => false
  | _, _ => true

theorem levels_hold_climbing : ((afterOps noIoError climbRun).procs 0).level = .exclusive ∧
    LadderHolds (afterOps noIoError climbRun) := by
  refine ⟨by decide +kernel, levels_hold _ ((afterOps_reachable (by decide +kernel)).restrict_mono ?_)⟩
  intro s l hl
  cases l with
  | setLevel => trivial
  | fcntl p o =>
    cases o with
    | ioError => cases hl
    | _ => trivial

/-! ## Waiting writers -/

/-- The process has probed `PENDING` and released it, and has yet to lock
the `SHARED` range. -/
def FileLockState.PastProbe (f : FileLockState) : Prop :=
  f.level = .unlocked ∧ ∃ target, f.call = some ⟨target, [rdlck sharedFirst sharedSize], .shared⟩

/-- Nobody is past the probe when a process reaches `Pending` from below. -/
def NobodyPastProbe (s : LockWorld P) : LockOp P → Prop
  | .fcntl p .granted => (s.procs p).level.rank < LockLevel.pending.rank →
      (s.procs p).granted.level = .pending → ∀ q, q ≠ p → ¬ (s.procs q).PastProbe
  | _ => True

@[simp] theorem loop_level (level target : LockLevel) : (FileLockState.loop level target).level = level := by
  unfold FileLockState.loop
  split
  · rfl
  split <;> rfl

/-- The step to `Pending` is the only one that passes its rank from below. -/
theorem Granted.reaches_pending (h : Granted f probe r f' probe') (hlow : f.level.rank < LockLevel.pending.rank)
    (hhigh : LockLevel.pending.rank ≤ f'.level.rank) : f'.level = .pending := by
  cases h with
  | probe => simp [LockLevel.rank] at hhigh
  | unprobe => simp [LockLevel.rank] at hhigh
  | join => simp [LockLevel.rank] at hhigh
  | @up level target r hne hr =>
    rw [loop_level] at hhigh ⊢
    cases level <;> simp_all [stepUp, LockLevel.rank]
  | @down level target r hr =>
    rw [loop_level] at hhigh ⊢
    cases level <;> simp_all [stepDown, LockLevel.rank]

theorem loop_not_past (level target : LockLevel) : ¬ (FileLockState.loop level target).PastProbe := by
  rintro ⟨hl, t, hc⟩
  rw [loop_level] at hl
  subst hl
  unfold FileLockState.loop at hc
  split at hc
  · cases hc
  split at hc <;> cases hc

/-- A process gets past the probe from the unlock only, with the read lock
of the probe still held. -/
theorem Granted.past (h : Granted f probe r f' probe') (hp : f'.PastProbe) : f.level = .unlocked ∧ probe = true := by
  cases h with
  | probe =>
    obtain ⟨-, t, hc⟩ := hp
    cases hc
  | unprobe => exact ⟨rfl, rfl⟩
  | join => exact absurd hp (loop_not_past _ _)
  | up => exact absurd hp (loop_not_past _ _)
  | down => exact absurd hp (loop_not_past _ _)

/-- `Shared` is reached from `Unlocked` by the last call of the step only. -/
theorem Granted.joins (h : Granted f probe r f' probe') (hl : f.level = .unlocked) (hs : f'.level = .shared) :
    f.PastProbe := by
  cases h with
  | probe => cases hs
  | unprobe => cases hs
  | join => exact ⟨rfl, _, rfl⟩
  | up hne => exact absurd hl hne
  | down hr =>
    cases hl
    cases hr

/-- While a process is at `Pending` or `Exclusive`, nobody else is past the
probe. -/
structure WaitInv (s : LockWorld P) : Prop where
  inv : LockInv s
  waiting : ∀ w, LockLevel.pending.rank ≤ (s.procs w).level.rank → ∀ r, r ≠ w → ¬ (s.procs r).PastProbe

omit [DecidableEq P] in
/-- A waiting writer holds `PENDING`, so nobody else holds the probe's lock. -/
theorem LockInv.no_probe (h : LockInv s) {w r : P} (hne : r ≠ w) (hw : LockLevel.pending.rank ≤ (s.procs w).level.rank)
    (hr : HoldsRow (s.procs r) (s.locks r) probe) : probe = false := by
  obtain ⟨probe', hrow⟩ := h.rows w
  have hpending : s.locks w pendingByte = some .write := by
    rw [hrow.held]
    simp [heldAt, hw]
  have hnone := h.coherent w r pendingByte hne.symm hpending
  rw [hr.held] at hnone
  simp only [heldAt, if_true] at hnone
  split at hnone
  · cases hnone
  · cases probe with
    | false => rfl
    | true => simp at hnone

/-- The step of the writer itself: it keeps out the others that were out,
and at its arrival at `Pending` nobody is past the probe. -/
theorem WaitInv.writer (h : WaitInv s) (hs : ProcStep s p l f t) (hl : NobodyPastProbe s l)
    (hf : LockLevel.pending.rank ≤ f.level.rank) : ∀ r, r ≠ p → ¬ (s.procs r).PastProbe := by
  by_cases hold : LockLevel.pending.rank ≤ (s.procs p).level.rank
  · exact h.waiting p hold
  have hlow := Nat.not_le.1 hold
  cases hs with
  | setLevel => exact absurd (by simpa [FileLockState.setLevel] using hf) hold
  | @granted c r rest hc htodo hg =>
    obtain ⟨probe, hrow⟩ := h.inv.rows p
    obtain ⟨probe', hgr⟩ := hrow.granted_cases hc htodo
    exact hl hlow (hgr.reaches_pending hlow hf)
  | failed => exact absurd hf hold

/-- The step of another process while the writer waits. -/
theorem WaitInv.reader {w : P} (h : WaitInv s) (hs : ProcStep s p l f t) (hne : p ≠ w)
    (hw : LockLevel.pending.rank ≤ (s.procs w).level.rank) : ¬ f.PastProbe := by
  intro hpast
  cases hs with
  | setLevel => exact loop_not_past _ _ hpast
  | @granted c r rest hc htodo hg =>
    obtain ⟨probe, hrow⟩ := h.inv.rows p
    obtain ⟨probe', hgr⟩ := hrow.granted_cases hc htodo
    have hprobe := (hgr.past hpast).2
    rw [h.inv.no_probe hne hw hrow] at hprobe
    cases hprobe
  | failed =>
    obtain ⟨-, t, hc⟩ := hpast
    cases hc

theorem wait_inductive : ((lockSystem P).restrict NobodyPastProbe).Inductive WaitInv where
  init := by
    rintro s rfl
    refine ⟨lockSystem_inductive.init _ rfl, fun w hw => ?_⟩
    simp [LockLevel.rank] at hw
  step := by
    rintro s l s' h ⟨hs, hl⟩
    refine ⟨lockSystem_inductive.step _ _ _ h.inv hs, ?_⟩
    obtain ⟨p, f, t, hp, rfl⟩ := lockStep_cases hs
    intro w hw r hr
    show ¬ (Function.update s.procs p f r).PastProbe
    replace hw : LockLevel.pending.rank ≤ (Function.update s.procs p f w).level.rank := hw
    by_cases hwp : w = p
    · subst hwp
      rw [Function.update_self] at hw
      rw [Function.update_of_ne hr]
      exact h.writer hp hl hw r hr
    · rw [Function.update_of_ne hwp] at hw
      by_cases hrp : r = p
      · subst hrp
        rw [Function.update_self]
        exact h.reader hp hr hw
      · rw [Function.update_of_ne hrp]
        exact h.waiting w hw r hr

/-- No step out of `s` takes a process from `Unlocked` to `Shared` while
another one is at `Pending` or `Exclusive`. -/
def WriterFirst (s : LockWorld P) : Prop :=
  ∀ l s', (lockSystem P).step s l s' → ∀ r, (s.procs r).level = .unlocked → (s'.procs r).level = .shared →
    ∀ w, w ≠ r → (s.procs w).level.rank < LockLevel.pending.rank

/-- **Waiting writers.** In every run in which nobody is between the probe
and the last call of its step to `Shared` when a process reaches `Pending`,
no process completes that step before the writer leaves `Pending` or
`Exclusive`. -/
theorem writer_blocks_readers (s : LockWorld P)
    (h : ((lockSystem P).restrict NobodyPastProbe).Reachable s) : WriterFirst s := by
  have hinv := wait_inductive.reachable s h
  intro l s' hs r hold hnew w hne
  obtain ⟨p, f, t, hp, rfl⟩ := lockStep_cases hs
  replace hnew : (Function.update s.procs p f r).level = .shared := hnew
  -- only the process that takes the step changes its level
  have hrp : r = p := by
    by_contra hrp
    rw [Function.update_of_ne hrp, hold] at hnew
    cases hnew
  subst hrp
  rw [Function.update_self] at hnew
  by_contra hw
  cases hp with
  | setLevel =>
    rw [FileLockState.setLevel, loop_level, hold] at hnew
    cases hnew
  | @granted c r' rest hc htodo hg =>
    obtain ⟨probe, hrow⟩ := hinv.inv.rows r
    obtain ⟨probe', hgr⟩ := hrow.granted_cases hc htodo
    exact hinv.waiting w (Nat.not_lt.1 hw) r hne.symm (hgr.joins hold hnew)
  | failed =>
    rw [FileLockState.failed, hold] at hnew
    cases hnew

/-- Process 1 probes and releases `PENDING`; process 0, a reader so far,
climbs to `Pending`. -/
def slipRun : List (LockOp (Fin 2)) :=
  [.setLevel 0 .pending, .fcntl 0 .granted, .fcntl 0 .granted, .fcntl 0 .granted, .setLevel 1 .shared,
    .fcntl 1 .granted, .fcntl 1 .granted, .fcntl 0 .granted, .fcntl 0 .granted]

def slipWorld : LockWorld (Fin 2) := afterOps (fun _ _ => true) slipRun

/-- **Counterexample**: process 1 then locks the `SHARED` range and is at
`Shared` while process 0 is at `Pending`. -/
theorem reader_slips_in : ∃ s s', (lockSystem (Fin 2)).Reachable s ∧
    (lockSystem (Fin 2)).step s (.fcntl 1 .granted) s' ∧ (s.procs 0).level = .pending ∧
    (s.procs 1).level = .unlocked ∧ (s'.procs 1).level = .shared ∧ ¬ WriterFirst s := by
  have hstep := LTS.followed_getD (o := slipWorld.next (.fcntl 1 .granted)) (d := slipWorld)
    (by decide +kernel)
  have hp0 : (slipWorld.procs 0).level = .pending := by decide +kernel
  have hp1 : (slipWorld.procs 1).level = .unlocked := by decide +kernel
  have hp1' : (((slipWorld.next (.fcntl 1 .granted)).getD slipWorld).procs 1).level = .shared := by
    decide +kernel
  refine ⟨slipWorld, _, (afterOps_reachable (by decide +kernel)).of_restrict, LockWorld.next_step hstep, hp0,
    hp1, hp1', fun h => ?_⟩
  have hlow := h _ _ (LockWorld.next_step hstep) 1 hp1 hp1' 0 (by decide)
  rw [hp0] at hlow
  exact absurd hlow (by decide)

/-- The others are in no call when a process reaches `Pending`. -/
def othersIdle (s : LockWorld (Fin 3)) : LockOp (Fin 3) → Bool
  | .fcntl p .granted => decide ((s.procs p).granted.level = .pending → ∀ q, q ≠ p → (s.procs q).call.isNone = true)
  | _ => true

/-- Process 1 is a reader, process 0 climbs to `Pending`, and process 2 is
refused the probe. -/
def newcomerRun : List (LockOp (Fin 3)) :=
  [.setLevel 1 .shared, .fcntl 1 .granted, .fcntl 1 .granted, .fcntl 1 .granted,
    .setLevel 0 .pending, .fcntl 0 .granted, .fcntl 0 .granted, .fcntl 0 .granted, .fcntl 0 .granted, .fcntl 0 .granted,
    .setLevel 2 .shared, .fcntl 2 .contended]

theorem writer_blocks_newcomer : (∀ p, ((afterOps othersIdle newcomerRun).procs p).level =
      (![.pending, .shared, .unlocked] : Fin 3 → LockLevel) p) ∧ WriterFirst (afterOps othersIdle newcomerRun) := by
  refine ⟨by decide +kernel,
    writer_blocks_readers _ ((afterOps_reachable (by decide +kernel)).restrict_mono ?_)⟩
  intro s l hl
  cases l with
  | setLevel => trivial
  | fcntl p o =>
    cases o with
    | granted =>
      intro _ hlevel q hq hpast
      obtain ⟨-, t, hc⟩ := hpast
      have hidle := of_decide_eq_true hl hlevel q hq
      rw [hc] at hidle
      cases hidle
    | contended => trivial
    | ioError => trivial

end DbStorage.Vfs
