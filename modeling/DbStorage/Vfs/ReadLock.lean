import DbStorage.Vfs.FileLock

/-!
# Reader marks in the `-shm` file (`vfs/shm.rs`)

A reader of a WAL database claims one of four slots: it write-locks the
slot's byte, publishes `mxFrame` as its mark, and keeps a read lock until
its `WalReadLock` is dropped. A checkpointer finds the readers by trying
the write lock of every slot (`active_reader_marks`). Record locks belong to
the process, so a process is never in its own way.

`readLocks` runs claims, drops and `active_reader_marks` in any number of
processes, interleaved between single system calls, each of which may fail.
The guards of a process on one path share a descriptor, closed with the last
of them (`open_shm_shared`). `mxFrame` changes at any time.

Results: `guards_kept` (in every run in which no process asks for the write
lock of a slot of its own, or has guards through two paths, no two guards
share a slot, every guard keeps its lock and its mark, and
`active_reader_marks` returns the marks of all guards that were live
throughout the call) and `second_claim_shares` (two guards in one process).

Left out: the length check of the file, and the users of other lock bytes.
-/
namespace DbStorage.Vfs
open RecordLock List

/-- mirrors shm.rs:76-80 -/
def walReadLockByte (slot : Nat) : Nat := 120 + 3 + slot

/-- A live `WalReadLock`, the path it was claimed through, and for the
record the mark its claim published and the number of the claim.
mirrors shm.rs:405-408 -/
structure Guard (N : Type) where
  path : N
  slot : Nat
  mark : UInt32
  id : Nat
  deriving DecidableEq

/-- The next system call of a `claim_wal_read_lock` (the first four) or an
`active_reader_marks` with the marks found so far. -/
inductive ShmStage where
  | claim (slot : Nat)
  | readMx (slot : Nat)
  | setMark (slot : Nat) (mx : UInt32)
  | downgrade (slot : Nat) (mx : UInt32)
  | probe (slot : Nat) (marks : List UInt32)
  | unprobe (slot : Nat) (marks : List UInt32)
  | readMark (slot : Nat) (marks : List UInt32)
  deriving DecidableEq

/-- A call under way; `since` is the number of guards claimed before it. -/
structure ShmCall (N : Type) where
  path : N
  since : Nat
  stage : ShmStage
  deriving DecidableEq

structure ShmProc (N : Type) where
  call : Option (ShmCall N)
  guards : List (Guard N)
  deriving DecidableEq

/-- What an `active_reader_marks` returned. -/
structure Report where
  since : Nat
  marks : List UInt32
  deriving DecidableEq

/-- The `-shm` file, its lock table and every process; `report` is what the
last step returned, if it ended an `active_reader_marks`. -/
structure ShmWorld (P N : Type) where
  locks : Table P
  mxFrame : UInt32
  marks : Nat → UInt32
  procs : P → ShmProc N
  nextId : Nat
  report : Option Report

/-- What follows a system call. -/
inductive Next where
  | goto (stage : ShmStage)
  | claimed (slot : Nat) (mark : UInt32)
  | returned (marks : List UInt32)
  | failed
  deriving DecidableEq

/-- The `fcntl` request of a stage; `none` for a `pread` or `pwrite`. -/
def ShmStage.request : ShmStage → Option Request
  | .claim k | .probe k _ => some (wrlck (walReadLockByte k) 1)
  | .downgrade k _ => some (rdlck (walReadLockByte k) 1)
  | .unprobe k _ => some (unlck (walReadLockByte k) 1)
  | .readMx _ | .setMark _ _ | .readMark _ _ => none

/-- The loop of `active_reader_marks` goes to the next slot or returns. -/
def nextProbe (k : Nat) (found : List UInt32) : Next :=
  if k < 4 then .goto (.probe (k + 1) found) else .returned found

/-- mirrors shm.rs:307-319,451-460 -/
def ShmStage.granted (mxFrame : UInt32) (marks : Nat → UInt32) : ShmStage → Next
  | .claim k => .goto (.readMx k)
  | .readMx k => .goto (.setMark k mxFrame)
  | .setMark k mx => .goto (.downgrade k mx)
  | .downgrade k mx => .claimed k mx
  | .probe k found => .goto (.unprobe k found)
  | .unprobe k found => nextProbe k found
  | .readMark k found => nextProbe k (found ++ [marks k])

/-- mirrors shm.rs:314-316,461-467 -/
def ShmStage.contended : ShmStage → Next
  | .claim k => if k < 4 then .goto (.claim (k + 1)) else .failed
  | .probe k found => .goto (.readMark k found)
  | _ => .failed

variable {P N : Type}

section system
variable [DecidableEq P] [DecidableEq N]

def ShmWorld.setProc (s : ShmWorld P N) (p : P) (v : ShmProc N) : ShmWorld P N :=
  { s with procs := Function.update s.procs p v, report := none }

/-- A reference to the descriptor of a path goes away; the last one closes
it.
mirrors shm.rs:221-237 -/
def ShmWorld.close (s : ShmWorld P N) (p : P) (path : N) (guards : List (Guard N)) : Table P :=
  if guards.any (·.path = path) then s.locks else dropAll s.locks p

def ShmWorld.proceed (s : ShmWorld P N) (p : P) (c : ShmCall N) : Next → ShmWorld P N
  | .goto stage => s.setProc p ⟨some { c with stage := stage }, (s.procs p).guards⟩
  | .claimed k mark =>
    { s.setProc p ⟨none, (s.procs p).guards ++ [⟨c.path, k, mark, s.nextId⟩]⟩ with nextId := s.nextId + 1 }
  | .returned found =>
    { s.setProc p ⟨none, (s.procs p).guards⟩ with
      locks := s.close p c.path (s.procs p).guards, report := some ⟨c.since, found⟩ }
  | .failed =>
    { s.setProc p ⟨none, (s.procs p).guards⟩ with locks := s.close p c.path (s.procs p).guards }

/-- The locks and the marks after a system call that succeeds. -/
def ShmWorld.grant (s : ShmWorld P N) (p : P) (stage : ShmStage) : ShmWorld P N :=
  { s with
    locks := match stage.request with
      | some r => RecordLock.set s.locks p r
      | none => s.locks
    marks := match stage with
      | .setMark k mx => Function.update s.marks k mx
      | _ => s.marks }

def ShmWorld.syscall (s : ShmWorld P N) (p : P) (c : ShmCall N) : Outcome → ShmWorld P N
  | .granted => (s.grant p c.stage).proceed p c (c.stage.granted s.mxFrame s.marks)
  | .contended => s.proceed p c c.stage.contended
  | .ioError => s.proceed p c .failed

/-- The drop of the guard `g`, `rest` being the other guards; a failing
unlock is ignored.
mirrors shm.rs:412-418 -/
def ShmWorld.dropGuard (s : ShmWorld P N) (p : P) (g : Guard N) (rest : List (Guard N)) (o : Outcome) :
    ShmWorld P N :=
  let t := { s with
    locks := if o = Outcome.granted then RecordLock.set s.locks p (unlck (walReadLockByte g.slot) 1) else s.locks }
  { t.setProc p ⟨none, rest⟩ with locks := t.close p g.path rest }

inductive ShmOp (P N : Type) where
  | claim (p : P) (path : N)
  | activeReaderMarks (p : P) (path : N)
  | syscall (p : P) (outcome : Outcome)
  | drop (p : P) (i : Nat) (outcome : Outcome)
  | publishMxFrame (mx : UInt32)
  deriving DecidableEq

/-- What the operating system may answer: record locks are granted exactly
when no other process is in the way, and anything may fail. -/
def Answers (t : Table P) (p : P) : Option Request → Outcome → Prop
  | some r, .granted => Grantable t p r
  | some r, .contended => ¬ Grantable t p r
  | none, .contended => False
  | _, _ => True

/-- The next state, when the operating system answers so. -/
def ShmWorld.after (s : ShmWorld P N) : ShmOp P N → Option (ShmWorld P N)
  | .claim p path =>
    if (s.procs p).call = none then
      some (s.setProc p ⟨some ⟨path, s.nextId, .claim 1⟩, (s.procs p).guards⟩)
    else none
  | .activeReaderMarks p path =>
    if (s.procs p).call = none then
      some (s.setProc p ⟨some ⟨path, s.nextId, .probe 1 []⟩, (s.procs p).guards⟩)
    else none
  | .syscall p o => (s.procs p).call.map fun c => s.syscall p c o
  | .drop p i o =>
    if (s.procs p).call = none then
      (s.procs p).guards[i]?.map fun g => s.dropGuard p g ((s.procs p).guards.eraseIdx i) o
    else none
  | .publishMxFrame mx => some { s with mxFrame := mx, report := none }

def ShmWorld.Admits (s : ShmWorld P N) : ShmOp P N → Prop
  | .syscall p o => ∀ c ∈ (s.procs p).call, Answers s.locks p c.stage.request o
  | _ => True

/-- Any `mxFrame` and marks, and no guard yet. -/
def readLocks (P N : Type) [DecidableEq P] [DecidableEq N] : LTS (ShmWorld P N) (ShmOp P N) where
  init s := s.locks = (fun _ _ => none) ∧ s.procs = (fun _ => ⟨none, []⟩) ∧ s.report = none
  step s l s' := s.Admits l ∧ s.after l = some s'

end system

/-! ## The guards -/

/-- What the marks protocol promises. -/
structure GuardsKept (s : ShmWorld P N) : Prop where
  nodup : ∀ p, ((s.procs p).guards.map (·.slot)).Nodup
  apart : ∀ p q, p ≠ q → ∀ g ∈ (s.procs p).guards, ∀ h ∈ (s.procs q).guards, g.slot ≠ h.slot
  published : ∀ p, ∀ g ∈ (s.procs p).guards, s.marks g.slot = g.mark
  locked : ∀ p, ∀ g ∈ (s.procs p).guards, s.locks p (walReadLockByte g.slot) = some .read
  reported : ∀ r, s.report = some r → ∀ p, ∀ g ∈ (s.procs p).guards, g.id < r.since → g.mark ∈ r.marks

/-- The slot whose write lock a stage asks for. -/
def ShmStage.tries : ShmStage → Option Nat
  | .claim k | .probe k _ => some k
  | _ => none

/-- No process asks for the write lock of a slot in which it has a guard, and
its guards and its call name the file by one path. -/
def SparesOwn (s : ShmWorld P N) : ShmOp P N → Prop
  | .syscall p _ => ∀ c ∈ (s.procs p).call, ∀ g ∈ (s.procs p).guards,
      c.stage.tries ≠ some g.slot ∧ g.path = c.path
  | .drop p _ _ => ∀ g ∈ (s.procs p).guards, ∀ h ∈ (s.procs p).guards, g.path = h.path
  | _ => True

def InRange (slot : Nat) : Prop := 1 ≤ slot ∧ slot ≤ 4

/-- Process `p` has the write lock of slot `k` and no guard there. -/
structure Owns (s : ShmWorld P N) (p : P) (k : Nat) : Prop where
  range : InRange k
  lock : s.locks p (walReadLockByte k) = some .write
  other : ∀ g ∈ (s.procs p).guards, g.slot ≠ k

/-- The marks of the guards below slot `k` that were claimed before `since`
are found. -/
def Covers (s : ShmWorld P N) (since k : Nat) (found : List UInt32) : Prop :=
  ∀ q, ∀ g ∈ (s.procs q).guards, g.id < since → g.slot < k → g.mark ∈ found

def StageOk (s : ShmWorld P N) (p : P) (since : Nat) : ShmStage → Prop
  | .claim k => InRange k
  | .readMx k | .setMark k _ => Owns s p k
  | .downgrade k mx => Owns s p k ∧ s.marks k = mx
  | .probe k found | .readMark k found => InRange k ∧ Covers s since k found
  | .unprobe k found => Owns s p k ∧ Covers s since k found

structure ShmInv (s : ShmWorld P N) : Prop where
  coherent : Coherent s.locks
  kept : GuardsKept s
  known : ∀ p, ∀ g ∈ (s.procs p).guards, InRange g.slot ∧ g.id < s.nextId
  calls : ∀ p, ∀ c ∈ (s.procs p).call, c.since ≤ s.nextId ∧ StageOk s p c.since c.stage

/-! ## What a step of one process leaves to the others -/

/-- Process `p` changes its own locks, its own record and the marks of slots
that it has write-locked; its new guards are new. -/
structure Moves (s : ShmWorld P N) (p : P) (s' : ShmWorld P N) : Prop where
  locks : ∀ q, q ≠ p → s'.locks q = s.locks q
  coherent : Coherent s'.locks
  marks : ∀ k, s'.marks k = s.marks k ∨ s.locks p (walReadLockByte k) = some .write
  procs : ∀ q, q ≠ p → s'.procs q = s.procs q
  ids : s.nextId ≤ s'.nextId
  guards : ∀ g ∈ (s'.procs p).guards, g ∈ (s.procs p).guards ∨ s.nextId ≤ g.id

variable {since k : Nat} {found : List UInt32} {stage : ShmStage} {path : N}

section moves
variable {s s' : ShmWorld P N} {p : P}

theorem Covers.moves (hm : Moves s p s') (hs : since ≤ s.nextId) (h : Covers s since k found) :
    Covers s' since k found := by
  intro q g hg hid hk
  by_cases hq : q = p
  · subst hq
    obtain hold | hnew := hm.guards g hg
    · exact h q g hold hid hk
    · omega
  · rw [hm.procs q hq] at hg
    exact h q g hg hid hk

/-- The mark of a slot on which another process has a lock stays. -/
theorem Moves.marks_eq (hm : Moves s p s') (hco : Coherent s.locks) {q : P} (hq : q ≠ p)
    (hl : s.locks q (walReadLockByte k) ≠ none) : s'.marks k = s.marks k :=
  (hm.marks k).resolve_right fun hw => hl (hco p q _ hq.symm hw)

theorem Owns.moves (hm : Moves s p s') {q : P} (hq : q ≠ p) (h : Owns s q k) : Owns s' q k where
  range := h.range
  lock := by rw [hm.locks q hq]; exact h.lock
  other := by rw [hm.procs q hq]; exact h.other

theorem StageOk.moves (hm : Moves s p s') (hco : Coherent s.locks) {q : P} (hq : q ≠ p) (hs : since ≤ s.nextId)
    (h : StageOk s q since stage) : StageOk s' q since stage := by
  cases stage with
  | claim k => exact h
  | readMx k => exact Owns.moves hm hq h
  | setMark k mx => exact Owns.moves hm hq h
  | downgrade k mx =>
    refine ⟨h.1.moves hm hq, ?_⟩
    rw [hm.marks_eq hco hq (by rw [h.1.lock]; nofun)]
    exact h.2
  | probe k found => exact ⟨h.1, h.2.moves hm hs⟩
  | unprobe k found => exact ⟨h.1.moves hm hq, h.2.moves hm hs⟩
  | readMark k found => exact ⟨h.1, h.2.moves hm hs⟩

/-- What `p` has to show for itself after its step. -/
structure OwnOk (s' : ShmWorld P N) (p : P) : Prop where
  nodup : ((s'.procs p).guards.map (·.slot)).Nodup
  apart : ∀ q, q ≠ p → ∀ g ∈ (s'.procs p).guards, ∀ h ∈ (s'.procs q).guards, g.slot ≠ h.slot
  published : ∀ g ∈ (s'.procs p).guards, s'.marks g.slot = g.mark
  locked : ∀ g ∈ (s'.procs p).guards, s'.locks p (walReadLockByte g.slot) = some .read
  known : ∀ g ∈ (s'.procs p).guards, InRange g.slot ∧ g.id < s'.nextId

/-- A step of `p` keeps the invariant when `p` does its part. -/
theorem ShmInv.moves (h : ShmInv s) (hm : Moves s p s') (hown : OwnOk s' p)
    (hcall : ∀ c ∈ (s'.procs p).call, c.since ≤ s'.nextId ∧ StageOk s' p c.since c.stage)
    (hrep : ∀ r, s'.report = some r → Covers s' r.since 5 r.marks) : ShmInv s' := by
  have hknown : ∀ q, ∀ g ∈ (s'.procs q).guards, InRange g.slot ∧ g.id < s'.nextId := by
    intro q g hg
    by_cases hq : q = p
    · subst hq; exact hown.known g hg
    · rw [hm.procs q hq] at hg
      exact ⟨(h.known q g hg).1, Nat.lt_of_lt_of_le (h.known q g hg).2 hm.ids⟩
  refine ⟨hm.coherent, ⟨fun q => ?_, fun q r hqr g hg g' hg' => ?_, fun q g hg => ?_, fun q g hg => ?_,
    fun r hr q g hg hid => hrep r hr q g hg hid (by have := (hknown q g hg).1.2; omega)⟩, hknown,
    fun q c hc => ?_⟩
  · by_cases hq : q = p
    · subst hq; exact hown.nodup
    · rw [hm.procs q hq]; exact h.kept.nodup q
  · by_cases hq : q = p
    · subst hq; exact hown.apart r hqr.symm g hg g' hg'
    · by_cases hr : r = p
      · subst hr; exact (hown.apart q hq g' hg' g hg).symm
      · rw [hm.procs q hq] at hg
        rw [hm.procs r hr] at hg'
        exact h.kept.apart q r hqr g hg g' hg'
  · by_cases hq : q = p
    · subst hq; exact hown.published g hg
    · rw [hm.procs q hq] at hg
      rw [hm.marks_eq h.coherent hq (by rw [h.kept.locked q g hg]; nofun)]
      exact h.kept.published q g hg
  · by_cases hq : q = p
    · subst hq; exact hown.locked g hg
    · rw [hm.procs q hq] at hg
      rw [hm.locks q hq]
      exact h.kept.locked q g hg
  · by_cases hq : q = p
    · subst hq; exact hcall c hc
    · rw [hm.procs q hq] at hc
      exact ⟨(h.calls q c hc).1.trans hm.ids, (h.calls q c hc).2.moves hm h.coherent hq (h.calls q c hc).1⟩

theorem ShmInv.ownOk (h : ShmInv s) (p : P) : OwnOk s p where
  nodup := h.kept.nodup p
  apart q hq := h.kept.apart p q hq.symm
  published := h.kept.published p
  locked := h.kept.locked p
  known := h.known p

/-- The same file and the same guards. -/
structure Same (s s' : ShmWorld P N) : Prop where
  locks : s'.locks = s.locks
  marks : s'.marks = s.marks
  nextId : s'.nextId = s.nextId
  guards : ∀ q, (s'.procs q).guards = (s.procs q).guards

theorem Same.covers (h : Same s s') (hc : Covers s since k found) : Covers s' since k found := by
  intro q g hg
  rw [h.guards] at hg
  exact hc q g hg

theorem Same.owns (h : Same s s') (ho : Owns s p k) : Owns s' p k where
  range := ho.range
  lock := by rw [h.locks]; exact ho.lock
  other := by rw [h.guards]; exact ho.other

theorem Same.stageOk (h : Same s s') (hok : StageOk s p since stage) : StageOk s' p since stage := by
  cases stage with
  | claim k => exact hok
  | readMx k => exact h.owns hok
  | setMark k mx => exact h.owns hok
  | downgrade k mx => exact ⟨h.owns hok.1, by rw [h.marks]; exact hok.2⟩
  | probe k found => exact ⟨hok.1, h.covers hok.2⟩
  | unprobe k found => exact ⟨h.owns hok.1, h.covers hok.2⟩
  | readMark k found => exact ⟨hok.1, h.covers hok.2⟩

theorem Same.ownOk (h : Same s s') (ho : OwnOk s p) : OwnOk s' p := by
  constructor <;> simp only [h.guards, h.locks, h.marks, h.nextId]
  · exact ho.nodup
  · exact ho.apart
  · exact ho.published
  · exact ho.locked
  · exact ho.known

/-- A system call of `p` has been answered, and `p` has not gone on yet. -/
structure Mid (s : ShmWorld P N) (p : P) (s' : ShmWorld P N) : Prop where
  moves : Moves s p s'
  own : OwnOk s' p
  procs : s'.procs = s.procs
  nextId : s'.nextId = s.nextId

theorem Mid.refl (h : ShmInv s) (p : P) : Mid s p s :=
  ⟨⟨fun _ _ => rfl, h.coherent, fun _ => .inl rfl, fun _ _ => rfl, Nat.le_refl _, fun _ hg => .inl hg⟩,
    h.ownOk p, rfl, rfl⟩

theorem Mid.mark (h : ShmInv s) (hk : Owns s p k) (mx : UInt32) :
    Mid s p { s with marks := Function.update s.marks k mx } where
  moves := by
    refine ⟨fun _ _ => rfl, h.coherent, fun j => ?_, fun _ _ => rfl, Nat.le_refl _, fun _ hg => .inl hg⟩
    by_cases hj : j = k
    · subst hj; exact .inr hk.lock
    · exact .inl (Function.update_of_ne hj _ _)
  own := by
    refine ⟨h.kept.nodup p, (h.ownOk p).apart, fun g hg => ?_, h.kept.locked p, h.known p⟩
    show Function.update s.marks k mx g.slot = g.mark
    rw [Function.update_of_ne (hk.other g hg)]
    exact h.kept.published p g hg
  procs := rfl
  nextId := rfl

/-- A slot that `p` has write-locked has no guard of anybody. -/
theorem Owns.no_guard (h : ShmInv s) (hk : Owns s p k) : ∀ q, ∀ g ∈ (s.procs q).guards, g.slot ≠ k := by
  intro q g hg hslot
  by_cases hq : q = p
  · subst hq; exact hk.other g hg hslot
  · have hl := h.kept.locked q g hg
    rw [hslot, h.coherent p q _ (Ne.symm hq) hk.lock] at hl
    cases hl

/-- The marks found at slot `k` join those found below it. -/
theorem Covers.next {found' : List UInt32} (h : Covers s since k found) (hsub : ∀ m ∈ found, m ∈ found')
    (hk : ∀ q, ∀ g ∈ (s.procs q).guards, g.slot = k → g.mark ∈ found') : Covers s since (k + 1) found' := by
  intro q g hg hid hlt
  obtain hlt | heq := Nat.lt_or_eq_of_le (Nat.le_of_lt_succ hlt)
  · exact hsub _ (h q g hg hid hlt)
  · exact hk q g hg heq

end moves

/-! ## The system calls -/

section calls
variable [DecidableEq P] [DecidableEq N] {s s₁ : ShmWorld P N} {p : P} {c : ShmCall N}

omit [DecidableEq N] in
theorem set_slot (t : Table P) (m : Option Mode) (k j : Nat) :
    RecordLock.set t p ⟨m, walReadLockByte k, 1⟩ p (walReadLockByte j) =
      if j = k then m else t p (walReadLockByte j) := by
  simp only [RecordLock.set, Function.update_self, applyTo, walReadLockByte]
  split <;> split <;> first | rfl | omega

omit [DecidableEq N] in
theorem set_own (t : Table P) (p : P) (m : Option Mode) (k : Nat) :
    RecordLock.set t p ⟨m, walReadLockByte k, 1⟩ p (walReadLockByte k) = m := by
  rw [set_slot, if_pos rfl]

omit [DecidableEq N] in
theorem Mid.lock (h : ShmInv s) {m : Option Mode} (hg : Grantable s.locks p ⟨m, walReadLockByte k, 1⟩)
    (hfree : ∀ g ∈ (s.procs p).guards, g.slot ≠ k) :
    Mid s p { s with locks := RecordLock.set s.locks p ⟨m, walReadLockByte k, 1⟩ } where
  moves := ⟨fun _ hq => Function.update_of_ne hq _ _, h.coherent.set hg, fun _ => .inl rfl, fun _ _ => rfl,
    Nat.le_refl _, fun _ hg => .inl hg⟩
  own := by
    refine ⟨h.kept.nodup p, (h.ownOk p).apart, h.kept.published p, fun g hg => ?_, h.known p⟩
    show RecordLock.set s.locks p _ p _ = _
    rw [set_slot, if_neg (hfree g hg)]
    exact h.kept.locked p g hg
  procs := rfl
  nextId := rfl

omit [DecidableEq N] in
theorem setProc_guards {call : Option (ShmCall N)} (q : P) :
    ((s₁.setProc p ⟨call, (s₁.procs p).guards⟩).procs q).guards = (s₁.procs q).guards := by
  show (Function.update s₁.procs p _ q).guards = _
  by_cases hq : q = p
  · subst hq; rw [Function.update_self]
  · rw [Function.update_of_ne hq]

theorem Mid.goto (hm : Mid s p s₁) (h : ShmInv s) (hs : c.since ≤ s.nextId) (hok : StageOk s₁ p c.since stage) :
    ShmInv (s₁.proceed p c (.goto stage)) := by
  have hsame : Same s₁ (s₁.proceed p c (.goto stage)) := ⟨rfl, rfl, rfl, setProc_guards⟩
  have hcall : ((s₁.proceed p c (.goto stage)).procs p).call = some { c with stage := stage } := by
    simp only [ShmWorld.proceed, ShmWorld.setProc, Function.update_self]
  refine h.moves (p := p) ⟨hm.moves.locks, hm.moves.coherent, hm.moves.marks, fun q hq => ?_, hm.moves.ids,
    fun g hg => ?_⟩ (hsame.ownOk hm.own) (fun c' hc' => ?_) nofun
  · rw [← hm.procs]
    exact Function.update_of_ne hq _ _
  · rw [hsame.guards, hm.procs] at hg
    exact .inl hg
  · rw [hcall] at hc'
    cases hc'
    exact ⟨hs.trans hm.moves.ids, hsame.stageOk hok⟩

/-- A process whose guards have one path closes its descriptor with the
last of them. -/
theorem close_cases {guards : List (Guard N)} (hpath : ∀ g ∈ guards, g.path = path) :
    s.close p path guards = s.locks ∨ guards = [] ∧ s.close p path guards = dropAll s.locks p := by
  unfold ShmWorld.close
  split
  · exact .inl rfl
  · rename_i hany
    refine .inr ⟨eq_nil_iff_forall_not_mem.2 fun g hg => hany ?_, rfl⟩
    exact any_eq_true.2 ⟨g, hg, decide_eq_true (hpath g hg)⟩

/-- The close leaves the other processes alone, and `p` the locks of its
guards. -/
theorem close_spec {guards : List (Guard N)} (hpath : ∀ g ∈ guards, g.path = path) (hco : Coherent s.locks) :
    Coherent (s.close p path guards) ∧ (∀ q, q ≠ p → s.close p path guards q = s.locks q) ∧
      ∀ g ∈ guards, s.close p path guards p = s.locks p := by
  obtain hc | ⟨hnil, hc⟩ := close_cases (s := s) (p := p) hpath <;> rw [hc]
  · exact ⟨hco, fun _ _ => rfl, fun _ _ => rfl⟩
  · refine ⟨hco.dropAll p, fun q hq => Function.update_of_ne hq _ _, ?_⟩
    rw [hnil]
    nofun

theorem Mid.finish (hm : Mid s p s₁) (h : ShmInv s) {report : Option Report}
    (hpath : ∀ g ∈ (s.procs p).guards, g.path = path) (hrep : ∀ r, report = some r → Covers s₁ r.since 5 r.marks) :
    ShmInv { s₁.setProc p ⟨none, (s₁.procs p).guards⟩ with
      locks := s₁.close p path (s₁.procs p).guards, report := report } := by
  rw [← hm.procs] at hpath
  obtain ⟨hco, hother, hrow⟩ := close_spec (s := s₁) (p := p) hpath hm.moves.coherent
  have hguards := @setProc_guards P N _ s₁ p none
  refine h.moves (p := p) ⟨fun q hq => (hother q hq).trans (hm.moves.locks q hq), hco, hm.moves.marks,
    fun q hq => ?_, hm.moves.ids, fun g hg => ?_⟩ ?_ (fun c' hc' => ?_) fun r hr q g hg => ?_
  · rw [← hm.procs]
    exact Function.update_of_ne hq _ _
  · rw [hguards, hm.procs] at hg
    exact .inl hg
  · constructor <;> simp only [hguards]
    · exact hm.own.nodup
    · exact hm.own.apart
    · exact hm.own.published
    · intro g hg
      rw [hrow g hg]
      exact hm.own.locked g hg
    · exact hm.own.known
  · simp only [ShmWorld.setProc, Function.update_self] at hc'
    cases hc'
  · rw [hguards] at hg
    exact hrep r hr q g hg

theorem Mid.claimed (hm : Mid s p s₁) (h : ShmInv s) {mark : UInt32} (hk : Owns s p k) (hmark : s₁.marks k = mark)
    (hlock : s₁.locks p (walReadLockByte k) = some .read) : ShmInv (s₁.proceed p c (.claimed k mark)) := by
  have hself : ((s₁.proceed p c (.claimed k mark)).procs p) =
      ⟨none, (s₁.procs p).guards ++ [⟨c.path, k, mark, s₁.nextId⟩]⟩ := Function.update_self ..
  have hother : ∀ q, q ≠ p → (s₁.proceed p c (.claimed k mark)).procs q = s₁.procs q :=
    fun q hq => Function.update_of_ne hq _ _
  have hold : ∀ q, ∀ g ∈ (s₁.procs q).guards, g.slot ≠ k := by
    rw [hm.procs]
    exact hk.no_guard h
  refine h.moves (p := p) ⟨hm.moves.locks, hm.moves.coherent, hm.moves.marks, fun q hq => ?_,
    Nat.le_succ_of_le hm.moves.ids, fun g hg => ?_⟩ ?_ (fun c' hc' => ?_) nofun
  · rw [hother q hq, hm.procs]
  · rw [hself] at hg
    obtain hg | hg := mem_append.1 hg
    · exact .inl (hm.procs ▸ hg)
    · exact .inr (by rw [mem_singleton.1 hg]; exact hm.moves.ids)
  · constructor <;> simp only [hself]
    · rw [map_append, nodup_append]
      refine ⟨hm.own.nodup, nodup_singleton _, fun a ha b hb => ?_⟩
      obtain ⟨g, hg, rfl⟩ := mem_map.1 ha
      rw [mem_singleton.1 hb]
      exact hold p g hg
    · intro q hq g hg g' hg'
      rw [hother q hq] at hg'
      obtain hg | hg := mem_append.1 hg
      · exact hm.own.apart q hq g hg g' hg'
      · rw [mem_singleton.1 hg]
        exact (hold q g' hg').symm
    · intro g hg
      obtain hg | hg := mem_append.1 hg
      · exact hm.own.published g hg
      · rw [mem_singleton.1 hg]; exact hmark
    · intro g hg
      obtain hg | hg := mem_append.1 hg
      · exact hm.own.locked g hg
      · rw [mem_singleton.1 hg]; exact hlock
    · intro g hg
      obtain hg | hg := mem_append.1 hg
      · exact ⟨(hm.own.known g hg).1, Nat.lt_succ_of_lt (hm.own.known g hg).2⟩
      · rw [mem_singleton.1 hg]; exact ⟨hk.range, Nat.lt_succ_self _⟩
  · rw [hself] at hc'
    cases hc'

/-- The loop of `active_reader_marks` behind slot `k`. -/
theorem Mid.nextProbe (hm : Mid s p s₁) (h : ShmInv s) (hk : InRange k) (hs : c.since ≤ s.nextId)
    (hpath : ∀ g ∈ (s.procs p).guards, g.path = c.path) (hcov : Covers s c.since (k + 1) found) :
    ShmInv (s₁.proceed p c (Vfs.nextProbe k found)) := by
  unfold Vfs.nextProbe
  split
  · exact hm.goto h hs ⟨⟨by omega, by omega⟩, hcov.moves hm.moves hs⟩
  · have hk4 : k = 4 := by have := hk.2; omega
    subst hk4
    refine hm.finish h hpath fun r hr => ?_
    cases hr
    exact hcov.moves hm.moves hs

theorem ShmInv.granted (h : ShmInv s) (hc : (s.procs p).call = some c)
    (hans : Answers s.locks p c.stage.request .granted) (hspare : SparesOwn s (.syscall p .granted)) :
    ShmInv (s.syscall p c .granted) := by
  obtain ⟨hs, hok⟩ := h.calls p c hc
  have hpath : ∀ g ∈ (s.procs p).guards, g.path = c.path := fun g hg => (hspare c hc g hg).2
  have hfree : ∀ k, c.stage.tries = some k → ∀ g ∈ (s.procs p).guards, g.slot ≠ k :=
    fun k hk g hg heq => (hspare c hc g hg).1 (heq ▸ hk)
  obtain ⟨path, since, stage⟩ := c
  cases stage with
  | claim k =>
    have hm := Mid.lock h hans (hfree k rfl)
    exact hm.goto h hs ⟨hok, set_own .., hfree k rfl⟩
  | readMx k => exact (Mid.refl h p).goto h hs hok
  | setMark k mx =>
    exact (Mid.mark h hok mx).goto h hs ⟨⟨hok.range, hok.lock, hok.other⟩, Function.update_self ..⟩
  | downgrade k mx =>
    have hm := Mid.lock h hans hok.1.other
    exact hm.claimed h hok.1 hok.2 (set_own ..)
  | probe k found =>
    have hm := Mid.lock h hans (hfree k rfl)
    exact hm.goto h hs ⟨⟨hok.1, set_own .., hfree k rfl⟩, hok.2.moves hm.moves hs⟩
  | unprobe k found =>
    have hm := Mid.lock h hans hok.1.other
    exact hm.nextProbe h hok.1.range hs hpath
      (hok.2.next (fun _ h => h) fun q g hg hslot => absurd hslot (hok.1.no_guard h q g hg))
  | readMark k found =>
    refine (Mid.refl h p).nextProbe h hok.1 hs hpath
      (hok.2.next (fun _ h => mem_append_left _ h) fun q g hg hslot => ?_)
    rw [← h.kept.published q g hg, hslot]
    exact mem_append_right _ (mem_singleton_self _)

theorem ShmInv.failed (h : ShmInv s) (hpath : ∀ g ∈ (s.procs p).guards, g.path = c.path) :
    ShmInv (s.proceed p c .failed) := (Mid.refl h p).finish h hpath nofun

theorem ShmInv.contended (h : ShmInv s) (hc : (s.procs p).call = some c)
    (hpath : ∀ g ∈ (s.procs p).guards, g.path = c.path) : ShmInv (s.syscall p c .contended) := by
  obtain ⟨hs, hok⟩ := h.calls p c hc
  obtain ⟨path, since, stage⟩ := c
  cases stage with
  | claim k =>
    simp only [ShmWorld.syscall, ShmStage.contended]
    split
    · exact (Mid.refl h p).goto h hs ⟨by omega, by omega⟩
    · exact h.failed hpath
  | probe k found => exact (Mid.refl h p).goto h hs hok
  | _ => exact h.failed hpath

omit [DecidableEq N] in
theorem ShmInv.start (h : ShmInv s) (hok : StageOk s p s.nextId stage) :
    ShmInv (s.setProc p ⟨some ⟨path, s.nextId, stage⟩, (s.procs p).guards⟩) := by
  have hsame : Same s (s.setProc p ⟨some ⟨path, s.nextId, stage⟩, (s.procs p).guards⟩) :=
    ⟨rfl, rfl, rfl, setProc_guards⟩
  refine h.moves (p := p) ⟨fun _ _ => rfl, h.coherent, fun _ => .inl rfl,
    fun q hq => Function.update_of_ne hq _ _, Nat.le_refl _, fun g hg => ?_⟩ (hsame.ownOk (h.ownOk p))
    (fun c' hc' => ?_) nofun
  · rw [hsame.guards] at hg
    exact .inl hg
  · simp only [ShmWorld.setProc, Function.update_self] at hc'
    cases hc'
    exact ⟨Nat.le_refl _, hsame.stageOk hok⟩

omit [DecidableEq N] in
/-- The unlock of a dropped guard, granted or not. -/
theorem unlock_spec (hco : Coherent s.locks) (k : Nat) (o : Outcome) :
    let t := if o = Outcome.granted then RecordLock.set s.locks p (unlck (walReadLockByte k) 1) else s.locks
    Coherent t ∧ (∀ q, q ≠ p → t q = s.locks q) ∧
      ∀ j, j ≠ k → t p (walReadLockByte j) = s.locks p (walReadLockByte j) := by
  dsimp only
  split
  · refine ⟨hco.set (grantable_unlock _ _ _ _), fun q hq => Function.update_of_ne hq _ _, fun j hj => ?_⟩
    exact (set_slot ..).trans (if_neg hj)
  · exact ⟨hco, fun _ _ => rfl, fun _ _ => rfl⟩

/-- A guard is dropped: the others of its process keep their locks. -/
theorem ShmInv.dropGuard (h : ShmInv s) {i : Nat} {g : Guard N} (hg : (s.procs p).guards[i]? = some g)
    (hpath : ∀ g ∈ (s.procs p).guards, ∀ h ∈ (s.procs p).guards, g.path = h.path) (o : Outcome) :
    ShmInv (s.dropGuard p g ((s.procs p).guards.eraseIdx i) o) := by
  -- the slot of the dropped guard is the slot of no other
  have hslot : ∀ g' ∈ (s.procs p).guards.eraseIdx i, g'.slot ≠ g.slot := by
    intro g' hg' heq
    obtain ⟨j, hj, hg'⟩ := mem_eraseIdx_iff_getElem?.1 hg'
    have hlen : j < ((s.procs p).guards.map (·.slot)).length := by
      rw [length_map]
      exact (List.getElem?_eq_some_iff.1 hg').1
    refine hj ((List.getElem?_inj hlen (h.kept.nodup p)).1 ?_)
    rw [List.getElem?_map, List.getElem?_map, hg, hg', Option.map_some, Option.map_some, heq]
  have hmem : ∀ g' ∈ (s.procs p).guards.eraseIdx i, g' ∈ (s.procs p).guards :=
    fun g' hg' => mem_of_mem_eraseIdx hg'
  have hrest : ∀ g' ∈ (s.procs p).guards.eraseIdx i, g'.path = g.path :=
    fun g' hg' => hpath g' (hmem g' hg') g (mem_of_getElem? hg)
  have hsub : ((s.procs p).guards.eraseIdx i).Sublist (s.procs p).guards := eraseIdx_sublist ..
  obtain ⟨hco, hother, hrow⟩ := @unlock_spec P N _ s p h.coherent g.slot o
  generalize (s.procs p).guards.eraseIdx i = rest at *
  obtain ⟨hco', hother', hrow'⟩ := close_spec (p := p) (s := { s with
    locks := if o = Outcome.granted then RecordLock.set s.locks p (unlck (walReadLockByte g.slot) 1)
      else s.locks }) hrest hco
  have hself : (s.dropGuard p g rest o).procs p = ⟨none, rest⟩ := Function.update_self ..
  have hprocs : ∀ q, q ≠ p → (s.dropGuard p g rest o).procs q = s.procs q :=
    fun q hq => Function.update_of_ne hq _ _
  refine h.moves (p := p) ⟨fun q hq => (hother' q hq).trans (hother q hq), hco', fun _ => .inl rfl, hprocs,
    Nat.le_refl _, fun g' hg' => ?_⟩ ?_ (fun c' hc' => ?_) nofun
  · rw [hself] at hg'
    exact .inl (hmem g' hg')
  · constructor <;> simp only [hself]
    · exact (h.kept.nodup p).sublist (hsub.map _)
    · intro q hq g' hg' g'' hg''
      rw [hprocs q hq] at hg''
      exact h.kept.apart p q hq.symm g' (hmem g' hg') g'' hg''
    · exact fun g' hg' => h.kept.published p g' (hmem g' hg')
    · intro g' hg'
      exact ((congrFun (hrow' g' hg') _).trans (hrow _ (hslot g' hg'))).trans
        (h.kept.locked p g' (hmem g' hg'))
    · exact fun g' hg' => h.known p g' (hmem g' hg')
  · rw [hself] at hc'
    cases hc'

end calls

/-! ## Runs -/

section runs
variable [DecidableEq P] [DecidableEq N] {s s' : ShmWorld P N}

theorem ShmInv.after (h : ShmInv s) {op : ShmOp P N} (ha : s.Admits op) (hop : SparesOwn s op)
    (hs : s.after op = some s') : ShmInv s' := by
  cases op with
  | claim p path =>
    simp only [ShmWorld.after, Option.ite_none_right_eq_some] at hs
    obtain ⟨-, hs⟩ := hs
    cases hs
    exact h.start ⟨Nat.le_refl _, by decide⟩
  | activeReaderMarks p path =>
    simp only [ShmWorld.after, Option.ite_none_right_eq_some] at hs
    obtain ⟨-, hs⟩ := hs
    cases hs
    refine h.start ⟨⟨Nat.le_refl _, by decide⟩, fun q g hg _ hlt => ?_⟩
    exact absurd (h.known q g hg).1.1 (by omega)
  | syscall p o =>
    simp only [ShmWorld.after, Option.map_eq_some_iff] at hs
    obtain ⟨c, hc, rfl⟩ := hs
    have hpath : ∀ g ∈ (s.procs p).guards, g.path = c.path := fun g hg => (hop c hc g hg).2
    cases o with
    | granted => exact h.granted hc (ha c hc) hop
    | contended => exact h.contended hc hpath
    | ioError => exact h.failed hpath
  | drop p i o =>
    simp only [ShmWorld.after, Option.ite_none_right_eq_some, Option.map_eq_some_iff] at hs
    obtain ⟨-, g, hg, rfl⟩ := hs
    exact h.dropGuard hg hop o
  | publishMxFrame mx =>
    cases hs
    have hsame : Same s { s with mxFrame := mx, report := none } := ⟨rfl, rfl, rfl, fun _ => rfl⟩
    refine ⟨h.coherent, ⟨h.kept.nodup, h.kept.apart, h.kept.published, h.kept.locked, nofun⟩, h.known,
      fun p c hc => ⟨(h.calls p c hc).1, ?_⟩⟩
    exact hsame.stageOk (h.calls p c hc).2

theorem readLocks_inductive : ((readLocks P N).restrict SparesOwn).Inductive ShmInv where
  init := by
    rintro s ⟨hl, hp, hr⟩
    refine ⟨hl ▸ coherent_empty, ⟨?_, ?_, ?_, ?_, ?_⟩, ?_, ?_⟩ <;> rw [hp]
    · exact fun _ => nodup_nil
    · exact fun _ _ _ g hg => nomatch hg
    · exact fun _ g hg => nomatch hg
    · exact fun _ g hg => nomatch hg
    · rw [hr]; nofun
    · exact fun _ g hg => nomatch hg
    · exact fun _ c hc => nomatch hc
  step := by
    rintro s l s' h ⟨⟨ha, hs⟩, hop⟩
    exact h.after ha hop hs

/-- **Reader marks.** In every run of any number of processes in which no
process asks for the write lock of a slot in which it has a guard, or names
the file by a second path, the guards have slots of their own, keep their
locks and their marks, and `active_reader_marks` returns the mark of every
guard that was live throughout the call. -/
theorem guards_kept (s : ShmWorld P N) (h : ((readLocks P N).restrict SparesOwn).Reachable s) :
    GuardsKept s := (readLocks_inductive.reachable s h).kept

end runs

/-! ## Two guards in one process -/

section decidable

instance {P : Type} [Fintype P] [DecidableEq P] (t : Table P) (p : P) :
    (r : Option Request) → (o : Outcome) → Decidable (Answers t p r o)
  | some r, .granted => inferInstanceAs (Decidable (Grantable t p r))
  | some r, .contended => inferInstanceAs (Decidable (¬ Grantable t p r))
  | none, .contended => isFalse id
  | some _, .ioError => isTrue trivial
  | none, .granted => isTrue trivial
  | none, .ioError => isTrue trivial

instance {P N : Type} [Fintype P] [DecidableEq P] (s : ShmWorld P N) :
    (op : ShmOp P N) → Decidable (s.Admits op)
  | .syscall p o => inferInstanceAs (Decidable (∀ c ∈ (s.procs p).call, Answers s.locks p c.stage.request o))
  | .claim _ _ => isTrue trivial
  | .activeReaderMarks _ _ => isTrue trivial
  | .drop _ _ _ => isTrue trivial
  | .publishMxFrame _ => isTrue trivial

instance {P N : Type} [DecidableEq N] (s : ShmWorld P N) : (op : ShmOp P N) → Decidable (SparesOwn s op)
  | .syscall p _ => inferInstanceAs (Decidable (∀ c ∈ (s.procs p).call, ∀ g ∈ (s.procs p).guards,
      c.stage.tries ≠ some g.slot ∧ g.path = c.path))
  | .drop p _ _ =>
    inferInstanceAs (Decidable (∀ g ∈ (s.procs p).guards, ∀ h ∈ (s.procs p).guards, g.path = h.path))
  | .claim _ _ => isTrue trivial
  | .activeReaderMarks _ _ => isTrue trivial
  | .publishMxFrame _ => isTrue trivial

end decidable

/-- A `-shm` file at frame 3 without readers. -/
def freshShm (P N : Type) : ShmWorld P N :=
  ⟨fun _ _ => none, 3, fun _ => 0xFFFFFFFF, fun _ => ⟨none, []⟩, 0, none⟩

def ShmWorld.next [Fintype P] [DecidableEq P] [DecidableEq N] (s : ShmWorld P N) (op : ShmOp P N) :
    Option (ShmWorld P N) := if s.Admits op then s.after op else none

def afterShm [Fintype P] [DecidableEq P] [DecidableEq N] (guard : ShmWorld P N → ShmOp P N → Bool)
    (ops : List (ShmOp P N)) : ShmWorld P N :=
  (LTS.follow ShmWorld.next guard ops (freshShm P N)).getD (freshShm P N)

theorem afterShm_reachable [Fintype P] [DecidableEq P] [DecidableEq N]
    {guard : ShmWorld P N → ShmOp P N → Bool} {ops : List (ShmOp P N)}
    (h : (LTS.follow ShmWorld.next guard ops (freshShm P N)).isSome = true) :
    ((readLocks P N).restrict fun s l => guard s l = true).Reachable (afterShm guard ops) := by
  refine LTS.Reachable.follow (fun s l s' hs => ?_) ⟨freshShm P N, [], ⟨rfl, rfl, rfl⟩, .nil _⟩
    (LTS.followed_getD h)
  simp only [ShmWorld.next, Option.ite_none_right_eq_some] at hs
  exact hs

-- the runs below have the processes 0 and 1
local instance twoProcesses : NeZero 2 := ⟨two_ne_zero⟩

/-- All the system calls of a claim of the first slot. -/
def claimRun (p : Fin 2) : List (ShmOp (Fin 2) Unit) :=
  .claim p () :: List.replicate 4 (.syscall p .granted)

/-- Process 0 claims a guard at frame 3 and another one at frame 7. -/
def twoClaims : List (ShmOp (Fin 2) Unit) := claimRun 0 ++ .publishMxFrame 7 :: claimRun 0

/-- It drops the second one, and process 1 asks for the marks. -/
def dropAndAsk : List (ShmOp (Fin 2) Unit) :=
  twoClaims ++ .drop 0 1 .granted :: .activeReaderMarks 1 () :: List.replicate 8 (.syscall 1 .granted)

def sharedSlot : ShmWorld (Fin 2) Unit := afterShm (fun _ _ => true) twoClaims

def unlockedGuard : ShmWorld (Fin 2) Unit := afterShm (fun _ _ => true) dropAndAsk

/-- **Counterexample**: the second claim in a process takes the slot of the
first and overwrites its mark; the drop of the second guard unlocks the
first, which `active_reader_marks` then misses. -/
theorem second_claim_shares :
    (readLocks (Fin 2) Unit).Reachable sharedSlot ∧
      (sharedSlot.procs 0).guards = [⟨(), 1, 3, 0⟩, ⟨(), 1, 7, 1⟩] ∧ sharedSlot.marks 1 = 7 ∧
      ¬ GuardsKept sharedSlot ∧
    (readLocks (Fin 2) Unit).Reachable unlockedGuard ∧ (unlockedGuard.procs 0).guards = [⟨(), 1, 3, 0⟩] ∧
      unlockedGuard.locks 0 (walReadLockByte 1) = none ∧ unlockedGuard.report = some ⟨2, []⟩ ∧
      ¬ GuardsKept unlockedGuard := by
  have h1 : (sharedSlot.procs 0).guards = [⟨(), 1, 3, 0⟩, ⟨(), 1, 7, 1⟩] := by decide +kernel
  have h2 : (unlockedGuard.procs 0).guards = [⟨(), 1, 3, 0⟩] := by decide +kernel
  have h3 : unlockedGuard.locks 0 (walReadLockByte 1) = none := by decide +kernel
  refine ⟨(afterShm_reachable (by decide +kernel)).of_restrict, h1, by decide +kernel, fun hk => ?_,
    (afterShm_reachable (by decide +kernel)).of_restrict, h2, h3, by decide +kernel, fun hk => ?_⟩
  · have := hk.nodup 0
    rw [h1] at this
    exact absurd this (by decide)
  · have := hk.locked 0 ⟨(), 1, 3, 0⟩ (by rw [h2]; exact mem_singleton_self _)
    rw [h3] at this
    cases this

/-- One guard each: process 1 finds slot 1 taken and takes slot 2. -/
def oneEach : List (ShmOp (Fin 2) Unit) :=
  claimRun 0 ++ [.claim 1 (), .syscall 1 .contended] ++ List.replicate 4 (.syscall 1 .granted)

theorem one_guard_each :
    ((afterShm (fun s l => decide (SparesOwn s l)) oneEach).procs 1).guards = [⟨(), 2, 3, 1⟩] ∧
      GuardsKept (afterShm (fun s l => decide (SparesOwn s l)) oneEach) :=
  ⟨by decide +kernel, guards_kept _
    ((afterShm_reachable (by decide +kernel)).restrict_mono fun _ _ => of_decide_eq_true)⟩

end DbStorage.Vfs
