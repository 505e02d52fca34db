import DbStorage.Pager.Crash
import DbStorage.Vfs.FileLock

/-!
# Opening next to a writer (`pager/mod.rs`)

`Pager::open` looks for a hot journal first and takes its `SHARED` lock
afterwards; only if the journal was hot does it look again, under
`EXCLUSIVE`. `opening` runs one `Pager::open` against a process that commits
in rollback-journal mode, interleaved between single file and lock
operations. The writer touches the files at `EXCLUSIVE` only, and a crash,
at any operation, takes its locks away. The writer's side is the system of
`DbStorage.Pager.Crash`, the locks are those of `DbStorage.Vfs.FileLock`.

A `Pager` that is open keeps its `SHARED` lock, so what it reads later is
what the main file holds when `open` returns and ever after.

Results: `open_reads_committed` (in every run in which the writer does not
crash with a hot journal between the look and the lock, an open that
returns `Ok` sees the committed main file) and `journal_overlooked` (a run
with such a crash).
-/
namespace DbStorage.Pager
open Bytes Vfs RecordLock Std

inductive Side where
  | writer
  | opener
  deriving DecidableEq

instance : Fintype Side := ⟨{.writer, .opener}, fun x => by cases x <;> decide⟩

inductive WriterPhase where
  | idle
  | flushing (after : Bytes) (todo : List FileOp)
  | crashed
  deriving DecidableEq

/-- How far `Pager::open` has come. `reading (some b)`: the journal file it
has opened is deleted meanwhile and held `b`. -/
inductive OpenPhase where
  | start
  | found
  | reading (deleted : Option Bytes)
  | locking (hot : Bool)
  | checking
  | escalating
  | recovering (todo : List FileOp)
  | deescalating
  | opened
  | failed
  deriving DecidableEq

/-- `committed` and `nonces` as in `RollbackDb`. -/
structure OpenWorld where
  files : Files
  committed : Bytes
  nonces : List UInt32
  writer : WriterPhase
  opener : OpenPhase
  locks : LockWorld Side

inductive OpenAct where
  | setLevel (target : LockLevel)
  | fcntl (side : Side) (outcome : Outcome)
  | flush (dirty : DirtyPages) (nonce : UInt32)
  | flushOp
  | flushed
  | crash
  | open

def OpenWorld.lockStep (w : OpenWorld) (op : LockOp Side) : Option OpenWorld :=
  (w.locks.next op).map fun locks => { w with locks := locks }

/-- `Pager::open` goes on with a call of `set_level`. -/
def OpenWorld.enter (w : OpenWorld) (phase : OpenPhase) (target : LockLevel) : Option OpenWorld :=
  { w with opener := phase }.lockStep (.setLevel .opener target)

/-- `Pager::open` returns an error and drops its lock. -/
def OpenWorld.fail (w : OpenWorld) : Option OpenWorld := w.enter .failed .unlocked

/-- What follows a `set_level` of the opener, once it has returned. -/
def OpenWorld.whenAt (w : OpenWorld) (target : LockLevel) (next : Option OpenWorld) : Option OpenWorld :=
  if (w.locks.procs .opener).call ≠ none then none
  else if (w.locks.procs .opener).level = target then next
  else w.fail

/-- mirrors pager/mod.rs:1137-1143 -/
def OpenWorld.startRecovery (w : OpenWorld) : Option OpenWorld :=
  match w.files.journal with
  | none => w.fail
  | some j =>
    match recoverHotJournal j with
    | .error _ => w.fail
    | .ok ops => some { w with opener := .recovering ops }

/-- The next operation of `Pager::open`.
mirrors pager/mod.rs:403-430,1132-1150 -/
def OpenWorld.openStep (w : OpenWorld) : Option OpenWorld :=
  match w.opener with
  | .start =>
    match w.files.journal with
    | none => w.enter (.locking false) .shared
    | some _ => some { w with opener := .found }
  | .found =>
    match w.files.journal with
    | none => w.fail
    | some _ => some { w with opener := .reading none }
  | .reading deleted => w.enter (.locking (journalIsHot (deleted.getD (w.files.journal.getD [])))) .shared
  | .locking hot => w.whenAt .shared (some { w with opener := if hot then .checking else .opened })
  | .checking =>
    if w.locks.locks .writer reservedByte ≠ none then w.fail else w.enter .escalating .exclusive
  | .escalating => w.whenAt .exclusive w.startRecovery
  | .recovering (op :: todo) => some { w with files := op.apply w.files, opener := .recovering todo }
  | .recovering [] => w.enter .deescalating .shared
  | .deescalating => w.whenAt .shared (some { w with opener := .opened })
  | .opened => none
  | .failed => none

/-- A handle of a deleted file keeps what the file held. -/
def OpenPhase.afterOp (journal : Option Bytes) (op : FileOp) : OpenPhase → OpenPhase
  | .reading none => if op = .deleteJournal then .reading (some (journal.getD [])) else .reading none
  | phase => phase

instance (ps : UInt32) (main : Bytes) : Decidable (CountOk ps main) :=
  match h : headerPageCount main ps with
  | .error _ => isFalse fun ⟨_, hc, _⟩ => nomatch h.symm.trans hc
  | .ok c =>
    if hl : main.length = c.toNat * ps.toNat then isTrue ⟨c, h, hl⟩
    else isFalse fun ⟨_, hc, hl'⟩ => hl (Except.ok.inj (h.symm.trans hc) ▸ hl')

/-- The writer calls `set_level` between flushes, and flushes at
`EXCLUSIVE`; its flushes are those of `RollbackStep`. -/
def OpenWorld.next (ps : UInt32) (sync : SynchronousMode) (w : OpenWorld) : OpenAct → Option OpenWorld
  | .setLevel target => if w.writer = .idle then w.lockStep (.setLevel .writer target) else none
  | .fcntl side outcome => w.lockStep (.fcntl side outcome)
  | .flush dirty nonce =>
    let plan := flushLocked ps sync nonce w.files.main dirty
    if w.writer = .idle ∧ (w.locks.procs .writer).level = .exclusive ∧ (w.locks.procs .writer).call = none ∧
        dirty.toList ≠ [] ∧ nonce ∉ w.nonces ∧ plan.error.isNone ∧
        CountOk ps (runOps plan.ops w.files).main then
      some { w with
        writer := .flushing (runOps plan.ops w.files).main plan.ops
        nonces := nonce :: w.nonces }
    else none
  | .flushOp =>
    match w.writer with
    | .flushing after (op :: todo) =>
      some { w with
        files := op.apply w.files
        committed := if op = .deleteJournal then after else w.committed
        writer := .flushing after todo
        opener := w.opener.afterOp w.files.journal op }
    | _ => none
  | .flushed =>
    match w.writer with
    | .flushing _ [] => some { w with writer := .idle }
    | _ => none
  | .crash =>
    if w.writer = .crashed then none
    else some { w with
      writer := .crashed
      locks := ⟨dropAll w.locks.locks .writer, Function.update w.locks.procs .writer ⟨.unlocked, none⟩⟩ }
  | .open => w.openStep

/-- A database whose header's page count is right and that has no hot
journal, a writer that has locked nothing yet, and an open that begins. -/
def opening (ps : UInt32) (sync : SynchronousMode) : LTS OpenWorld OpenAct where
  init w := w.writer = .idle ∧ w.opener = .start ∧ w.locks = freshWorld Side ∧
    w.files.main = w.committed ∧ CountOk ps w.committed ∧ Settled ps w.nonces w.files
  step w a w' := w.next ps sync a = some w'

/-- The writer does not crash with a hot journal after `Pager::open` has
looked for one and before it has its lock. -/
def CrashesTimely (w : OpenWorld) : OpenAct → Prop
  | .crash =>
    match w.opener with
    | .reading (some _) | .locking false => ∀ j, w.files.journal = some j → journalIsHot j = false
    | _ => True
  | _ => True

/-! ## The journal of a flush -/

/-- An operation that leaves the magic of the journal as it is. -/
def FileOp.KeepsHot : FileOp → Prop
  | .writeJournal _ offset => 8 ≤ offset
  | .deleteJournal => False
  | _ => True

def HotJournal (f : Files) : Prop := ∃ j, f.journal = some j ∧ journalIsHot j = true

/-- The journal is hot while a flush goes on, from the write of its header
to its deletion, which comes last. -/
def HeaderFirst (f : Files) (todo : List FileOp) : Prop :=
  todo = [] ∨ ∃ t, todo = t ++ [.deleteJournal] ∧
    ((HotJournal f ∧ ∀ op ∈ t, op.KeepsHot) ∨
      ∃ region rest, journalIsHot region = true ∧ (∀ op ∈ rest, op.KeepsHot) ∧
        (t = .createJournal :: .writeJournal region 0 :: rest ∨ t = .writeJournal region 0 :: rest))

/-- No journal that a recovery could take for a hot one. -/
def HotOrEmpty (f : Files) : Prop := ∀ j, f.journal = some j → journalIsHot j = true ∨ j = []

theorem hot_length {j : Bytes} (h : journalIsHot j = true) : 8 ≤ j.length := by
  have hs : slice j 0 8 = journalMagic := eq_of_beq h
  have := congrArg List.length hs
  simp only [slice, List.length_take, List.length_drop, journalMagic, List.length_cons, List.length_nil] at this
  omega

variable {f : Files} {op : FileOp} {target : LockLevel}

theorem HotJournal.keeps (h : HotJournal f) (hop : op.KeepsHot) : HotJournal (op.apply f) := by
  obtain ⟨j, hj, hot⟩ := h
  cases op with
  | createJournal => exact ⟨j, by simp only [FileOp.apply, hj, Option.getD_some], hot⟩
  | writeJournal data offset =>
    refine ⟨writeAt j data offset, by simp only [FileOp.apply, hj, Option.getD_some], ?_⟩
    rw [journalIsHot, slice_writeAt_before _ _ _ _ _ hop (hot_length hot)]
    exact hot
  | deleteJournal => exact hop.elim
  | _ => exact ⟨j, hj, hot⟩

theorem HotJournal.hotOrEmpty (h : HotJournal f) : HotOrEmpty f := by
  obtain ⟨j, hj, hot⟩ := h
  intro j' hj'
  rw [hj] at hj'
  cases hj'
  exact .inl hot

theorem hot_header {f : Files} {region : Bytes} (h : journalIsHot region = true) :
    HotJournal ((FileOp.writeJournal region 0).apply f) := by
  refine ⟨_, rfl, ?_⟩
  rw [journalIsHot, slice_writeAt_inside _ _ _ _ _ (Nat.le_refl _) (by have := hot_length h; omega)]
  exact h

theorem HeaderFirst.step {todo : List FileOp} (h : HeaderFirst f (op :: todo)) :
    HeaderFirst (op.apply f) todo ∧ (HotOrEmpty f → HotOrEmpty (op.apply f)) := by
  obtain h0 | ⟨t, ht, hcase⟩ := h
  · cases h0
  obtain ⟨hot, hkeep⟩ | ⟨region, rest, hreg, hrest, rfl | rfl⟩ := hcase
  · cases t with
    | nil =>
      simp only [List.nil_append, List.cons.injEq] at ht
      obtain ⟨rfl, rfl⟩ := ht
      exact ⟨.inl rfl, fun _ j hj => nomatch hj⟩
    | cons o t =>
      simp only [List.cons_append, List.cons.injEq] at ht
      obtain ⟨rfl, rfl⟩ := ht
      have hot' := hot.keeps (hkeep _ List.mem_cons_self)
      exact ⟨.inr ⟨t, rfl, .inl ⟨hot', fun o ho => hkeep o (List.mem_cons_of_mem _ ho)⟩⟩,
        fun _ => hot'.hotOrEmpty⟩
  · simp only [List.cons_append, List.cons.injEq] at ht
    obtain ⟨rfl, rfl⟩ := ht
    refine ⟨.inr ⟨_, rfl, .inr ⟨region, rest, hreg, hrest, .inr rfl⟩⟩, fun hf j hj => ?_⟩
    cases hjo : f.journal with
    | none =>
      simp only [FileOp.apply, hjo, Option.getD_none, Option.some.injEq] at hj
      exact .inr hj.symm
    | some j' =>
      simp only [FileOp.apply, hjo, Option.getD_some, Option.some.injEq] at hj
      exact hj ▸ hf j' hjo
  · simp only [List.cons_append, List.cons.injEq] at ht
    obtain ⟨rfl, rfl⟩ := ht
    have hot := @hot_header f region hreg
    exact ⟨.inr ⟨rest, rfl, .inl ⟨hot, hrest⟩⟩, fun _ => hot.hotOrEmpty⟩

theorem keepsHot_recordOps {ps nonce : UInt32} (hps : 8 ≤ ps.toNat) (i : Nat) (R : List (UInt32 × Bytes)) :
    ∀ op ∈ recordOps ps nonce i R, op.KeepsHot := by
  induction R generalizing i with
  | nil => nofun
  | cons w R ih =>
    intro op hop
    obtain rfl | hop := List.mem_cons.1 hop
    · show 8 ≤ recordOffset ps ps i
      simp only [recordOffset]
      omega
    · exact ih (i + 1) op hop

theorem flush_headerFirst {ps : UInt32} {sync : SynchronousMode} {nonce count : UInt32} {dirty : DirtyPages}
    (hc : headerPageCount f.main ps = .ok count) (hl : f.main.length = count.toNat * ps.toNat)
    (herr : (flushLocked ps sync nonce f.main dirty).error = none) (hj : toJournal count dirty ≠ []) :
    HeaderFirst f (flushLocked ps sync nonce f.main dirty).ops := by
  obtain ⟨region, hreg, -, hops⟩ := flushLocked_ops hc hl herr hj
  obtain ⟨hrl, h28, hser⟩ := headerRegion_length hreg
  simp only at hrl
  have hot : journalIsHot region = true := by
    have h8 : slice region 0 8 = slice (slice region 0 28) 0 8 := by rw [slice_slice _ _ _ _ _ (by omega)]
    rw [journalIsHot, h8, hser]
    simp [JournalHeader.serialize, journalMagic, slice]
  refine .inr ⟨.createJournal :: .writeJournal region 0 ::
    (((recordOps ps nonce 0 (preImages f.main ps (toJournal count dirty)) ++
      (if sync ≠ .off then [.syncJournal] else [])) ++ mainWrites ps dirty.toList) ++
      (if sync = .full then [.syncMain] else [])),
    by rw [hops]; simp only [List.cons_append, List.nil_append, List.append_assoc],
    .inr ⟨region, _, hot, fun op hop => ?_, .inl rfl⟩⟩
  simp only [List.mem_append] at hop
  obtain ((hop | hop) | hop) | hop := hop
  · exact keepsHot_recordOps (by omega) 0 _ op hop
  · split at hop
    · rw [List.mem_singleton.1 hop]; trivial
    · cases hop
  · obtain ⟨w, -, rfl⟩ := List.mem_map.1 hop
    trivial
  · split at hop
    · rw [List.mem_singleton.1 hop]; trivial
    · cases hop

/-! ## The invariant -/

def WriterPhase.phase : WriterPhase → Phase
  | .idle => .idle
  | .flushing after todo => .flushing after todo
  | .crashed => .crashed

/-- The writer's side, as a state of the system `rollback`. -/
def OpenWorld.db (w : OpenWorld) : RollbackDb := ⟨w.files, w.committed, w.writer.phase, w.nonces⟩

def Clean (ps : UInt32) (w : OpenWorld) : Prop := w.files.main = w.committed ∧ Settled ps w.nonces w.files

/-- What holds while the opener is in a phase. -/
def OpenerOk (ps : UInt32) (w : OpenWorld) : OpenPhase → Prop
  | .reading (some _) => (w.writer = .crashed → Clean ps w) ∧ HotOrEmpty w.files
  | .locking false => w.writer = .crashed → Clean ps w
  | .locking true | .checking | .escalating => HotOrEmpty w.files
  | .recovering todo => w.writer = .crashed ∧ Safe ps w.nonces w.committed w.committed w.files todo
  | .deescalating => w.writer = .crashed ∧ Clean ps w
  | .opened => (w.locks.procs .opener).level = .shared ∧ (w.locks.procs .opener).call = none ∧
      (w.writer = .crashed → Clean ps w)
  | .start | .found | .reading none | .failed => True

structure OpenInv (ps : UInt32) (w : OpenWorld) : Prop where
  locks : LockInv w.locks
  db : RollbackInv ps w.db
  flushing : ∀ after todo, w.writer = .flushing after todo →
    (w.locks.procs .writer).level = .exclusive ∧ (w.locks.procs .writer).call = none ∧
      HeaderFirst w.files todo
  opener : OpenerOk ps w w.opener

section steps
variable {ps : UInt32} {sync : SynchronousMode} {w w' : OpenWorld}

theorem OpenInv.idle_clean (h : OpenInv ps w) (hw : w.writer = .idle) : Clean ps w := by
  have hp := h.db.phase
  simp only [PhaseInv, OpenWorld.db, hw, WriterPhase.phase] at hp
  exact hp

theorem OpenInv.recoverable (h : OpenInv ps w) (hw : w.writer = .crashed) :
    Recoverable ps w.nonces w.committed w.files := by
  have hp := h.db.phase
  simp only [PhaseInv, OpenWorld.db, hw, WriterPhase.phase] at hp
  exact hp

/-- Files without a hot journal that can be recovered are the committed ones. -/
theorem Clean.of_cold (hr : Recoverable ps w.nonces w.committed w.files)
    (hcold : ∀ j, w.files.journal = some j → journalIsHot j = false) : Clean ps w := by
  cases hr with
  | clean hm hset => exact ⟨hm, hset⟩
  | hot j hd hj hhot => exact absurd hhot (by rw [hcold j hj]; decide)

/-- While the opener has a lock the writer is not flushing. -/
theorem OpenInv.not_flushing (h : OpenInv ps w) (hl : (w.locks.procs .opener).level ≠ .unlocked)
    (after : Bytes) (todo : List FileOp) : w.writer ≠ .flushing after todo := fun hw =>
  hl ((h.locks.exclusion (p := .writer) (q := .opener) nofun).1 (h.flushing after todo hw).1)

/-- The phase of the opener and the locks are all that changes. -/
theorem OpenerOk.relock {phase phase' : OpenPhase} {l : LockWorld Side} (h : OpenerOk ps w phase)
    (hl : phase = .opened → l.procs .opener = w.locks.procs .opener) :
    OpenerOk ps { w with opener := phase', locks := l } phase := by
  cases phase with
  | reading deleted => cases deleted <;> exact h
  | locking hot => cases hot <;> exact h
  | opened => exact ⟨by rw [hl rfl]; exact h.1, by rw [hl rfl]; exact h.2.1, h.2.2⟩
  | _ => exact h

/-- A lock operation that leaves alone a writer that flushes and an opener
that has its lock; the opener may go on. -/
theorem OpenInv.lockStep (h : OpenInv ps w) {op : LockOp Side} (phase : OpenPhase)
    (hs : { w with opener := phase }.lockStep op = some w') (hphase : OpenerOk ps w phase)
    (hwriter : ∀ after todo, w.writer = .flushing after todo → w'.locks.procs .writer = w.locks.procs .writer)
    (hopener : phase = .opened → w'.locks.procs .opener = w.locks.procs .opener) : OpenInv ps w' := by
  simp only [OpenWorld.lockStep, Option.map_eq_some_iff] at hs
  obtain ⟨l, hl, rfl⟩ := hs
  refine ⟨lockSystem_inductive.step _ _ _ h.locks (LockWorld.next_step hl), h.db, fun after todo hw => ?_,
    hphase.relock hopener⟩
  obtain ⟨h1, h2, h3⟩ := h.flushing after todo hw
  have := hwriter after todo hw
  exact ⟨by rw [this]; exact h1, by rw [this]; exact h2, h3⟩

theorem setLevel_procs {p q : Side} (hs : w.lockStep (.setLevel p target) = some w') (hq : q ≠ p) :
    w'.locks.procs q = w.locks.procs q := by
  simp only [OpenWorld.lockStep, LockWorld.next, Option.map_eq_some_iff, Option.ite_none_right_eq_some] at hs
  obtain ⟨l, ⟨-, hl⟩, rfl⟩ := hs
  cases hl
  exact Function.update_of_ne hq _ _

/-- A process outside `set_level` makes no lock call. -/
theorem fcntl_procs {p q : Side} {outcome : Outcome} (hs : w.lockStep (.fcntl p outcome) = some w')
    (hq : (w.locks.procs q).call = none) : w'.locks.procs q = w.locks.procs q := by
  simp only [OpenWorld.lockStep, Option.map_eq_some_iff] at hs
  obtain ⟨l, hl, rfl⟩ := hs
  obtain ⟨p', f, t, hp, rfl⟩ := lockStep_cases (LockWorld.next_step hl)
  have hne : q ≠ p' := by
    rintro rfl
    cases hp with
    | granted hc => rw [hq] at hc; cases hc
    | failed hc => rw [hq] at hc; cases hc
  exact Function.update_of_ne hne _ _

theorem OpenInv.enter (h : OpenInv ps w) {phase : OpenPhase} (hs : w.enter phase target = some w')
    (hphase : OpenerOk ps w phase) (hne : phase ≠ .opened) :
    OpenInv ps w' :=
  h.lockStep phase hs hphase (fun _ _ _ => setLevel_procs (w := { w with opener := phase }) hs nofun) fun h => absurd h hne

theorem OpenInv.fail (h : OpenInv ps w) (hs : w.fail = some w') : OpenInv ps w' :=
  h.enter hs trivial nofun

/-- The opener goes on without a lock operation. -/
theorem OpenInv.setOpener (h : OpenInv ps w) {phase : OpenPhase} (hphase : OpenerOk ps w phase) :
    OpenInv ps { w with opener := phase } :=
  ⟨h.locks, h.db, h.flushing, hphase.relock fun _ => rfl⟩

theorem OpenInv.whenAt (h : OpenInv ps w) {next : Option OpenWorld} (hs : w.whenAt target next = some w')
    (hnext : (w.locks.procs .opener).call = none → (w.locks.procs .opener).level = target → next = some w' → OpenInv ps w') :
    OpenInv ps w' := by
  unfold OpenWorld.whenAt at hs
  split at hs
  · cases hs
  rename_i hcall
  split at hs
  · exact hnext (not_not.1 hcall) ‹_› hs
  · exact h.fail hs

/-! ### The steps of `Pager::open` -/

theorem OpenInv.startRecovery (h : OpenInv ps w) (hl : (w.locks.procs .opener).level = .exclusive)
    (hj : HotOrEmpty w.files) (hs : w.startRecovery = some w') : OpenInv ps w' := by
  unfold OpenWorld.startRecovery at hs
  split at hs
  · exact h.fail hs
  rename_i j hjo
  split at hs
  · exact h.fail hs
  rename_i ops hops
  cases hs
  -- an empty journal does not parse, and a hot one is that of a crash
  have hot : journalIsHot j = true := by
    obtain hot | rfl := hj j hjo
    · exact hot
    · cases hops
  have hcrashed : w.writer = .crashed := by
    cases hw : w.writer with
    | idle => exact absurd hot (by rw [((h.idle_clean hw).2 j hjo).1]; decide)
    | flushing after todo => exact absurd hw (h.not_flushing (by rw [hl]; decide) after todo)
    | crashed => rfl
  obtain ⟨ops', hopen, hsafe⟩ := safe_open h.db.count (h.recoverable hcrashed)
  simp only [openOps, hjo, hot, if_true, hops, Except.ok.injEq] at hopen
  subst hopen
  exact h.setOpener ⟨hcrashed, hsafe⟩

theorem OpenInv.recoverOp (h : OpenInv ps w) {todo : List FileOp} (hph : w.opener = .recovering (op :: todo)) :
    OpenInv ps { w with files := op.apply w.files, opener := .recovering todo } := by
  obtain ⟨hcrashed, hsafe⟩ : OpenerOk ps w (.recovering (op :: todo)) := hph ▸ h.opener
  have hstep := hsafe.step
  refine ⟨h.locks, ⟨h.db.count, ?_⟩, fun after todo hw => ?_, hcrashed, hstep⟩
  · simp only [PhaseInv, OpenWorld.db, hcrashed, WriterPhase.phase]
    cases todo with
    | nil => exact .clean hstep.nil.1 hstep.nil.2
    | cons o t => exact hstep.head
  · rw [hcrashed] at hw
    cases hw

theorem OpenInv.openStep (h : OpenInv ps w) (hs : w.openStep = some w') : OpenInv ps w' := by
  have ho := h.opener
  unfold OpenWorld.openStep at hs
  split at hs <;> rename_i hph <;> rw [hph] at ho
  · -- `exists`
    split at hs
    · rename_i hj
      refine h.enter hs (fun hw => ?_) nofun
      exact .of_cold (h.recoverable hw) fun j hj' => by rw [hj] at hj'; cases hj'
    · cases hs
      exact h.setOpener trivial
  · -- `open_read`
    split at hs
    · exact h.fail hs
    · cases hs
      exact h.setOpener trivial
  · -- the magic
    rename_i deleted
    refine h.enter hs ?_ nofun
    cases deleted with
    | some b =>
      simp only [Option.getD_some]
      cases journalIsHot b with
      | true => exact ho.2
      | false => exact ho.1
    | none =>
      simp only [Option.getD_none]
      cases hot : journalIsHot (w.files.journal.getD []) with
      | true =>
        intro j hj
        rw [hj] at hot
        exact .inl hot
      | false =>
        refine fun hw => .of_cold (h.recoverable hw) fun j hj => ?_
        rw [hj] at hot
        exact hot
  · rename_i hot
    refine h.whenAt hs fun hcall hlevel hnext => ?_
    cases hnext
    cases hot with
    | true => exact h.setOpener ho
    | false => exact h.setOpener ⟨hlevel, hcall, ho⟩
  · split at hs
    · exact h.fail hs
    · exact h.enter hs ho nofun
  · exact h.whenAt hs fun _ hlevel hnext => h.startRecovery hlevel ho hnext
  · cases hs
    exact h.recoverOp hph
  · exact h.enter hs ⟨ho.1, ho.2.nil⟩ nofun
  · refine h.whenAt hs fun hcall hlevel hnext => ?_
    cases hnext
    exact h.setOpener ⟨hlevel, hcall, fun _ => ho.2⟩
  · cases hs
  · cases hs

/-! ### The steps of the writer -/

/-- While the writer lives, what matters to the opener is that a journal it
has found hot stays hot, or goes. -/
theorem OpenerOk.alive {phase : OpenPhase} (h : OpenerOk ps w phase) (hw : w.writer ≠ .crashed)
    (hw' : w'.writer ≠ .crashed) (hfiles : HotOrEmpty w.files → HotOrEmpty w'.files)
    (hlocks : w'.locks = w.locks) : OpenerOk ps w' phase := by
  cases phase with
  | reading deleted =>
    cases deleted with
    | none => trivial
    | some b => exact ⟨fun hc => absurd hc hw', hfiles h.2⟩
  | locking hot =>
    cases hot with
    | true => exact hfiles h
    | false => exact fun hc => absurd hc hw'
  | checking => exact hfiles h
  | escalating => exact hfiles h
  | recovering todo => exact absurd h.1 hw
  | deescalating => exact absurd h.1 hw
  | opened => exact ⟨by rw [hlocks]; exact h.1, by rw [hlocks]; exact h.2.1, fun hc => absurd hc hw'⟩
  | _ => trivial

theorem OpenInv.flush (h : OpenInv ps w) {dirty : DirtyPages} {nonce : UInt32}
    (hs : w.next ps sync (.flush dirty nonce) = some w') : OpenInv ps w' := by
  simp only [OpenWorld.next, Option.ite_none_right_eq_some] at hs
  obtain ⟨⟨hidle, hlevel, hcall, hd, hnew, herr, hafter⟩, hs⟩ := hs
  cases hs
  rw [Option.isNone_iff_eq_none] at herr
  obtain ⟨hm, -⟩ := h.idle_clean hidle
  have hdb := h.db.flush (by simp only [OpenWorld.db, hidle, WriterPhase.phase]) hd hnew herr hafter
  obtain ⟨count, hc, hl⟩ := h.db.count
  replace hc : headerPageCount w.files.main ps = .ok count := hm ▸ hc
  replace hl : w.files.main.length = count.toNat * ps.toNat := hm ▸ hl
  have hfirst := flush_headerFirst hc hl herr (toJournal_ne_nil hc hl herr hd hafter)
  refine ⟨h.locks, hdb, fun after todo hw => ?_, ?_⟩
  · cases hw
    exact ⟨hlevel, hcall, hfirst⟩
  · exact h.opener.alive (by rw [hidle]; nofun) nofun id rfl

theorem afterOp_cases (journal : Option Bytes) (op : FileOp) (phase : OpenPhase) :
    phase.afterOp journal op = phase ∨
      (op = .deleteJournal ∧ ∃ b, phase.afterOp journal op = .reading (some b)) := by
  unfold OpenPhase.afterOp
  split
  · split
    · exact .inr ⟨‹_›, _, rfl⟩
    · exact .inl rfl
  · exact .inl rfl

theorem OpenInv.flushOp (h : OpenInv ps w) (hs : w.next ps sync .flushOp = some w') : OpenInv ps w' := by
  simp only [OpenWorld.next] at hs
  split at hs
  · rename_i after op todo hw
    cases hs
    obtain ⟨hlevel, hcall, hfirst⟩ := h.flushing _ _ hw
    obtain ⟨hfirst', hhot⟩ := hfirst.step
    refine ⟨h.locks, h.db.flushOp (by simp only [OpenWorld.db, hw, WriterPhase.phase]), fun after todo hw' => ?_, ?_⟩
    · cases hw'
      exact ⟨hlevel, hcall, hfirst'⟩
    · show OpenerOk ps _ (w.opener.afterOp w.files.journal op)
      obtain hsame | ⟨rfl, b, hb⟩ := afterOp_cases w.files.journal op w.opener
      · rw [hsame]
        exact h.opener.alive (by rw [hw]; nofun) nofun hhot rfl
      · rw [hb]
        exact ⟨nofun, fun j hj => nomatch hj⟩
  · cases hs

theorem OpenInv.flushed (h : OpenInv ps w) (hs : w.next ps sync .flushed = some w') : OpenInv ps w' := by
  simp only [OpenWorld.next] at hs
  split at hs
  · rename_i after hw
    cases hs
    have hdb := (rollback_inductive ps sync).step w.db .done _ h.db
      (.flushed w.db after (by simp only [OpenWorld.db, hw, WriterPhase.phase]))
    exact ⟨h.locks, hdb, nofun, h.opener.alive (by rw [hw]; nofun) nofun id rfl⟩
  · cases hs

theorem OpenInv.crash (h : OpenInv ps w) (hs : w.next ps sync .crash = some w')
    (htime : CrashesTimely w .crash) : OpenInv ps w' := by
  simp only [OpenWorld.next, Option.ite_none_left_eq_some] at hs
  obtain ⟨halive, hs⟩ := hs
  cases hs
  have hdb := h.db.crash
  have hr : Recoverable ps w.nonces w.committed w.files := hdb.phase
  have hopener : ∀ l, l.procs .opener = w.locks.procs .opener →
      OpenerOk ps { w with writer := .crashed, locks := l } w.opener := by
    intro l hl
    have ho := h.opener
    cases hph : w.opener with
    | reading deleted =>
      rw [hph] at ho
      cases deleted with
      | none => trivial
      | some b =>
        simp only [CrashesTimely, hph] at htime
        exact ⟨fun _ => .of_cold hr htime, ho.2⟩
    | locking hot =>
      rw [hph] at ho
      cases hot with
      | true => exact ho
      | false =>
        simp only [CrashesTimely, hph] at htime
        exact fun _ => .of_cold hr htime
    | checking => rw [hph] at ho; exact ho
    | escalating => rw [hph] at ho; exact ho
    | recovering todo => rw [hph] at ho; exact absurd ho.1 halive
    | deescalating => rw [hph] at ho; exact absurd ho.1 halive
    | opened =>
      rw [hph] at ho
      refine ⟨by rw [hl]; exact ho.1, by rw [hl]; exact ho.2.1, fun _ => ?_⟩
      cases hw : w.writer with
      | idle => exact h.idle_clean hw
      | flushing after todo => exact absurd hw (h.not_flushing (by rw [ho.1]; decide) after todo)
      | crashed => exact absurd hw halive
    | _ => trivial
  refine ⟨⟨h.locks.coherent.dropAll _, fun p => ?_⟩, hdb, nofun, ?_⟩
  · cases p with
    | writer =>
      refine ⟨false, ?_⟩
      simp only [dropAll, Function.update_self]
      exact ⟨(by funext b; simp [heldAt, LockLevel.rank]), nofun, nofun⟩
    | opener =>
      simp only [dropAll, ne_eq, reduceCtorEq, not_false_eq_true, Function.update_of_ne]
      exact h.locks.rows .opener
  · refine hopener ⟨dropAll w.locks.locks .writer, Function.update w.locks.procs .writer ⟨.unlocked, none⟩⟩ ?_
    have hne : Side.opener ≠ .writer := by decide
    exact Function.update_of_ne hne ⟨.unlocked, none⟩ w.locks.procs

theorem OpenInv.next (h : OpenInv ps w) {a : OpenAct} (hs : w.next ps sync a = some w')
    (htime : CrashesTimely w a) : OpenInv ps w' := by
  cases a with
  | setLevel target =>
    simp only [OpenWorld.next, Option.ite_none_right_eq_some] at hs
    exact h.lockStep w.opener hs.2 h.opener (fun _ _ hw => by rw [hs.1] at hw; cases hw)
      fun _ => setLevel_procs hs.2 nofun
  | fcntl side outcome =>
    refine h.lockStep w.opener hs h.opener
      (fun after todo hw => fcntl_procs hs (h.flushing after todo hw).2.1) fun hph => ?_
    have ho := h.opener
    rw [hph] at ho
    exact fcntl_procs hs ho.2.1
  | flush dirty nonce => exact h.flush hs
  | flushOp => exact h.flushOp hs
  | flushed => exact h.flushed hs
  | crash => exact h.crash hs htime
  | «open» => exact h.openStep hs

end steps

theorem opening_inductive (ps : UInt32) (sync : SynchronousMode) :
    ((opening ps sync).restrict CrashesTimely).Inductive (OpenInv ps) where
  init := by
    rintro w ⟨hw, ho, hl, hm, hc, hset⟩
    refine ⟨hl ▸ lockSystem_inductive.init _ rfl, ⟨hc, ?_⟩, fun after todo hw' => ?_, ?_⟩
    · simp only [PhaseInv, OpenWorld.db, hw, WriterPhase.phase]
      exact ⟨hm, hset⟩
    · rw [hw] at hw'; cases hw'
    · rw [ho]; trivial
  step := by
    rintro w a w' h ⟨hs, htime⟩
    exact h.next hs htime

/-- **Opening next to a writer.** In every run of one `Pager::open` and a
process that commits in rollback-journal mode, interleaved between single
file and lock operations, in which that process does not crash with a hot
journal between the open's look for one and its lock: from the moment the
open has returned `Ok`, every page of the main file is that of the committed
state, and no hot journal is left. -/
theorem open_reads_committed (ps : UInt32) (sync : SynchronousMode) (w : OpenWorld)
    (h : ((opening ps sync).restrict CrashesTimely).Reachable w) (hopened : w.opener = .opened) :
    (∀ p, readMain w.files.main ps p = readMain w.committed ps p) ∧
      ∀ j, w.files.journal = some j → journalIsHot j = false := by
  have hi := (opening_inductive ps sync).reachable w h
  have ho := hi.opener
  rw [hopened] at ho
  have hclean : Clean ps w := by
    cases hw : w.writer with
    | idle => exact hi.idle_clean hw
    | flushing after todo => exact absurd hw (hi.not_flushing (by rw [ho.1]; decide) after todo)
    | crashed => exact ho.2.2 hw
  exact ⟨fun p => by rw [hclean.1], fun j hj => (hclean.2 j hj).1⟩

/-! ## A crash between the look and the lock -/

/-- The one-page database of the crash model. -/
def quietWorld : OpenWorld := ⟨⟨onePage 7, none⟩, onePage 7, [], .idle, .start, freshWorld Side⟩

/-- Where the actions `as` lead from there. -/
def afterActs (guard : OpenWorld → OpenAct → Bool) (as : List OpenAct) : OpenWorld :=
  (LTS.follow (OpenWorld.next 512 .full) guard as quietWorld).getD quietWorld

/-- The run was not stopped: the open has not even begun in the first world. -/
theorem afterActs_reachable {guard : OpenWorld → OpenAct → Bool} {as : List OpenAct}
    (hopened : (afterActs guard as).opener = .opened) :
    ((opening 512 .full).restrict fun w a => guard w a = true).Reachable (afterActs guard as) := by
  have h : (LTS.follow (OpenWorld.next 512 .full) guard as quietWorld).isSome = true := by
    unfold afterActs at hopened
    cases hf : LTS.follow (OpenWorld.next 512 .full) guard as quietWorld with
    | none => rw [hf] at hopened; cases hopened
    | some w => rfl
  refine LTS.Reachable.follow (fun _ _ _ hs => hs)
    ⟨quietWorld, [], ⟨rfl, rfl, rfl, rfl, ?_, settled_deleted _⟩, .nil _⟩ (LTS.followed_getD h)
  decide +kernel

/-- The writer climbs to `EXCLUSIVE`, flushes page 1 and crashes before it
deletes the journal. -/
def tornFlush : List OpenAct :=
  .setLevel .exclusive :: List.replicate 6 (.fcntl .writer .granted) ++
    .flush onePageDirty 5 :: List.replicate 5 .flushOp ++ [.crash]

/-- `Pager::open` finds no journal; then the writer's whole flush and its
crash; then `Pager::open` takes its lock. -/
def overlookRun : List OpenAct :=
  .open :: tornFlush ++ List.replicate 3 (.fcntl .opener .granted) ++ [.open]

def overlooked : OpenWorld := afterActs (fun _ _ => true) overlookRun

/-- **Counterexample**: the open returns `Ok` next to a hot journal, and
page 1 is that of the transaction that was not committed. -/
theorem journal_overlooked :
    (opening 512 .full).Reachable overlooked ∧ overlooked.opener = .opened ∧
      overlooked.committed = onePage 7 ∧ readMain overlooked.files.main 512 1 = .ok (onePage 9) ∧
      overlooked.files.journal.any journalIsHot = true := by
  have hrun : overlooked.opener = .opened ∧ overlooked.committed = onePage 7 ∧
      readMain overlooked.files.main 512 1 = .ok (onePage 9) ∧ overlooked.files.journal.any journalIsHot = true := by
    decide +kernel
  exact ⟨(afterActs_reachable hrun.1).of_restrict, hrun⟩

/-- The flush and the crash come first: the open finds the journal hot,
takes `SHARED` and `EXCLUSIVE`, recovers and goes back to `SHARED`. -/
def recoverRun : List OpenAct :=
  tornFlush ++ List.replicate 3 .open ++ List.replicate 3 (.fcntl .opener .granted) ++
    List.replicate 2 .open ++ List.replicate 3 (.fcntl .opener .granted) ++ List.replicate 6 .open ++
    List.replicate 3 (.fcntl .opener .granted) ++ [.open]

/-- No crash once the open has begun. -/
def crashesBefore (w : OpenWorld) : OpenAct → Bool
  | .crash => w.opener = .start
  | _ => true

theorem open_recovers :
    (afterActs crashesBefore recoverRun).opener = .opened ∧
      ((∀ p, readMain (afterActs crashesBefore recoverRun).files.main 512 p =
          readMain (afterActs crashesBefore recoverRun).committed 512 p) ∧
        ∀ j, (afterActs crashesBefore recoverRun).files.journal = some j → journalIsHot j = false) := by
  have hopened : (afterActs crashesBefore recoverRun).opener = .opened := by decide +kernel
  refine ⟨hopened, open_reads_committed 512 .full _
    ((afterActs_reachable hopened).restrict_mono fun w a ha => ?_) hopened⟩
  cases a with
  | crash => rw [CrashesTimely, of_decide_eq_true ha]; trivial
  | _ => trivial

end DbStorage.Pager
