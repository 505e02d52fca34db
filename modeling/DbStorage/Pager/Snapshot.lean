import DbStorage.Pager.Reopen

/-!
# A reader among commits and checkpoints

In `readerWorld` one connection opens a WAL database and only reads, while
others commit and run passive checkpoints. The steps are those at which one
process can see another:

* a commit creates the files if need be (`create`), appends its frames
  (`commit`) and publishes `mxFrame` (`publish`), one at a time;
* the reader claims its slot (`vfs/shm.rs:440-468`: lock it, read
  `mxFrame`, write the mark), reads the WAL (`openPager`), and then reads
  pages at any time;
* a pass (`pager/checkpoint.rs:59-192`) reads the WAL (`startPass`), probes
  the four slots, plans, copies page by page and publishes `nBackfill`.

The marks that a pass finds in slots other readers hold, and in the
reader's slot while its mark is not written yet, are any at all.

Result: `snapshot_kept`: in every run in which the reader opens under a mark
that is not 0 and that the WAL's frames reach (`pinned`), it reads every page
as it was committed when it opened. `unpinned_read_changes` is the run of a
reader that opens an empty WAL.
-/
namespace DbStorage.Pager
open Bytes Vfs Wal Std

/-- The reader: outside, holding a slot's lock, with the `mxFrame` it has
read, with its mark written (or without one: there was no `-shm`), and open.
`snapshot` is what was committed when it opened. -/
inductive Reader where
  | closed
  | locked (slot : Nat)
  | sampled (slot : Nat) (mxFrame : UInt32)
  | claimed (pin : Option (Nat × UInt32))
  | opened (pin : Option (Nat × UInt32)) (pager : Pager)
      (snapshot : UInt32 → Except PagerError Bytes)

/-- A pass: between passes, with the WAL it has read and the slots it has
still to probe, and with the pages it has still to copy. -/
inductive Checkpointer where
  | idle
  | probing (header : WalHeader) (wal : Bytes) (slots : List Nat) (marks : List UInt32)
  | copying (pages : List (UInt32 × Bytes)) (safe : UInt32)

/-- `publishing` is the `mxFrame` of a commit that has not published it yet,
`hints` the resume hints that connections hold. -/
structure World where
  disk : Disk
  mxFrame : UInt32
  publishing : Option UInt32
  hints : List WalResumeHint
  reader : Reader
  ckpt : Checkpointer

inductive WorldOp where
  | create (salts : UInt32 × UInt32)
  | commit (hint : Option WalResumeHint) (txn : List Frame)
  | publish
  | lockSlot (slot : Nat)
  | sampleMxFrame
  | setReadMark
  | noShm
  | openPager
  | readPage (p : UInt32)
  | startPass
  | probeSlot (found : Option UInt32)
  | plan
  | copyPage
  | publishBackfill

/-- mirrors shm.rs:53 -/
def readMarkUnused : UInt32 := 0xFFFFFFFF

/-- The mark in the slot that the reader holds. -/
def Reader.mark (slot : Nat) : Reader → Option UInt32
  | .claimed (some (k, m)) | .opened (some (k, m)) _ _ => if k = slot then some m else none
  | _ => none

/-- A new `-shm` file has no marks (`fresh_shm_bytes`). -/
def Reader.unmark : Reader → Reader
  | .claimed pin => .claimed (pin.map fun x => (x.1, readMarkUnused))
  | .opened pin pager snapshot => .opened (pin.map fun x => (x.1, readMarkUnused)) pager snapshot
  | r => r

/-- The slots of a pass; a backend or a database without `-shm` has none.
mirrors shm.rs:303-321, unix.rs:73-79 -/
def Disk.readerSlots (d : Disk) : List Nat := if d.nBackfill.isSome then [1, 2, 3, 4] else []

/-- mirrors pager/mod.rs:852-879 -/
def World.create (ps : UInt32) (salts : UInt32 × UInt32) (s : World) : Option World :=
  if s.disk.wal = none ∧ s.publishing = none then
    some { s with
      disk := (s.disk.createWal (freshHeader ps salts)).1
      mxFrame := 0
      reader := s.reader.unmark }
  else none

/-- mirrors pager/mod.rs:696-744 at `synchronous = Full` -/
def World.commit (ps : UInt32) (hint : Option WalResumeHint) (txn : List Frame) (s : World) :
    Option World :=
  match s.disk.wal with
  | none => none
  | some wal =>
    if s.publishing = none ∧ (∀ x ∈ hint, x ∈ s.hints) ∧ txn ≠ [] ∧
        ∀ f ∈ txn, f.content.length = ps.toNat then
      match appendTransaction wal ps hint txn with
      | .error _ => none
      | .ok (wal, writer) =>
        some { s with
          disk := { s.disk with wal := some wal }
          publishing := some writer.frameCount
          hints := writer.resumeHint :: s.hints }
    else none

/-- mirrors pager/mod.rs:740-744 -/
def World.publish (s : World) : Option World :=
  match s.publishing with
  | none => none
  | some n => some { s with mxFrame := if s.disk.nBackfill.isSome then n else s.mxFrame, publishing := none }

/-- mirrors shm.rs:440-468 -/
def World.lockSlot (slot : Nat) (s : World) : Option World :=
  match s.reader with
  | .closed => if slot ∈ s.disk.readerSlots then some { s with reader := .locked slot } else none
  | _ => none

def World.sampleMxFrame (s : World) : Option World :=
  match s.reader with
  | .locked slot => some { s with reader := .sampled slot s.mxFrame }
  | _ => none

def World.setReadMark (s : World) : Option World :=
  match s.reader with
  | .sampled slot m => some { s with reader := .claimed (some (slot, m)) }
  | _ => none

/-- mirrors shm.rs:441-445 -/
def World.noShm (s : World) : Option World :=
  match s.reader with
  | .closed => if s.disk.nBackfill = none then some { s with reader := .claimed none } else none
  | _ => none

/-- mirrors pager/mod.rs:434-457 -/
def World.openPager (ps : UInt32) (s : World) : Option World :=
  match s.reader with
  | .claimed pin =>
    match Pager.open s.disk ps with
    | .error _ => none
    | .ok c => some { s with
        disk := c.disk
        reader := .opened pin c.pager (committedView s.disk ps) }
  | _ => none

def World.readPage (p : UInt32) (s : World) : Option World :=
  match s.reader with
  | .opened pin pager snapshot =>
    some { s with reader := .opened pin (Conn.readPage p ⟨s.disk, pager⟩).2.pager snapshot }
  | _ => none

/-- mirrors checkpoint.rs:64-103 -/
def World.startPass (ps : UInt32) (s : World) : Option World :=
  match s.ckpt, s.disk.wal with
  | .idle, some wal =>
    match WalHeader.parse wal with
    | .error _ => none
    | .ok h =>
      if h.pageSize = ps then some { s with ckpt := .probing h wal s.disk.readerSlots [] } else none
  | _, _ => none

/-- mirrors shm.rs:308-319 -/
def World.probeSlot (found : Option UInt32) (s : World) : Option World :=
  match s.ckpt with
  | .probing h wal (slot :: slots) marks =>
    some { s with ckpt := .probing h wal slots (marks ++ ((s.reader.mark slot).or found).toList) }
  | _ => none

/-- mirrors checkpoint.rs:110-166 -/
def World.plan (s : World) : Option World :=
  match s.ckpt with
  | .probing h wal [] marks =>
    match planPass h wal marks (s.disk.nBackfill.getD 0) s.disk.main.length with
    | .done _ => some { s with ckpt := .idle }
    | .copy pages safe _ => some { s with ckpt := .copying pages safe }
  | _ => none

/-- mirrors checkpoint.rs:172-181 -/
def World.copyPage (ps : UInt32) (s : World) : Option World :=
  match s.ckpt with
  | .copying (w :: pages) safe =>
    some { s with
      disk := { s.disk with main := writeAt s.disk.main w.2 (pageOffset ps w.1) }
      ckpt := .copying pages safe }
  | _ => none

/-- mirrors checkpoint.rs:182-191 -/
def World.publishBackfill (s : World) : Option World :=
  match s.ckpt with
  | .copying [] safe =>
    some { s with
      disk := { s.disk with shm := if s.disk.walIndex then s.disk.shm.map fun _ => safe else s.disk.shm }
      ckpt := .idle }
  | _ => none

def World.next (ps : UInt32) (s : World) : WorldOp → Option World
  | .create salts => s.create ps salts
  | .commit hint txn => s.commit ps hint txn
  | .publish => s.publish
  | .lockSlot slot => s.lockSlot slot
  | .sampleMxFrame => s.sampleMxFrame
  | .setReadMark => s.setReadMark
  | .noShm => s.noShm
  | .openPager => s.openPager ps
  | .readPage p => s.readPage p
  | .startPass => s.startPass ps
  | .probeSlot found => s.probeSlot found
  | .plan => s.plan
  | .copyPage => s.copyPage ps
  | .publishBackfill => s.publishBackfill

/-- A resume hint that a commit to this database has left. -/
def Disk.Resumes (d : Disk) (ps : UInt32) (x : WalResumeHint) : Prop :=
  ∃ wal h, d.wal = some wal ∧ WalHeader.parse wal = .ok h ∧ h.pageSize = ps ∧ HintOk h wal x

def readerWorld (ps : UInt32) : LTS World WorldOp where
  init s := (∀ j, s.disk.journal = some j → journalIsHot j = false) ∧
    (∀ x ∈ s.hints, s.disk.Resumes ps x) ∧
    s.publishing = none ∧ s.reader = .closed ∧ s.ckpt = .idle
  step s op s' := s.next ps op = some s'

/-- The reader reads every page as it was committed when it opened. -/
def SnapshotKept (s : World) : Prop :=
  ∀ pin pager snapshot, s.reader = .opened pin pager snapshot →
    ∀ p c, snapshot p = .ok c → (Conn.readPage p ⟨s.disk, pager⟩).1 = .ok c

/-- The reader's mark is not 0, and names frames that the WAL has. -/
def World.pinned (s : World) : Bool :=
  match s.reader, s.disk.wal with
  | .claimed (some (_, mark)), some wal =>
    match WalHeader.parse wal with
    | .ok h => 0 < mark && mark.toNat ≤ (frames h wal).length
    | .error _ => false
  | _, _ => false

/-- The condition on a step: the reader opens under such a mark. -/
def pinnedOpen (s : World) : WorldOp → Bool
  | .openPager => s.pinned
  | _ => true

/-! ## What a pass may copy -/

variable {ps : UInt32} {s s' : World}

variable {h : WalHeader} {p mark : UInt32} {wal walR : Bytes} {txn : List Frame} {slot : Nat} {pager : Pager}
  {snapshot : UInt32 → Except PagerError Bytes}

theorem committedPages_grow {a b : Bytes} (hab : frames h a <+: frames h b) (ha : (committedPages h a).1[p]?.isSome) :
    (committedPages h b).1[p]?.isSome := by
  obtain ⟨rest, hrest⟩ := hab
  obtain ⟨more, hmore⟩ := committed_mono (frames h a) rest
  rw [committedPages_getElem?] at ha ⊢
  rw [← hrest, ← hmore, writes_append, lastWrite_append, Option.isSome_or, ha, Bool.or_true]

theorem frames_commitBytes (hp : WalHeader.parse wal = .ok h) (hc : ∀ f ∈ txn, f.content.length = h.pageSize.toNat) :
    frames h wal <+: frames h (commitBytes h wal txn) := by
  have hf := (frames_writeAt hc (parse_length hp)).1
  exact ⟨_, by rw [commitBytes, hf, List.append_assoc]⟩

variable {marks : List UInt32} {safe : UInt32} {pages : List (UInt32 × Bytes)} {hint : Option WalResumeHint}

/-- A mark that is not 0 bounds what a pass copies. -/
theorem safeFrame_le (total : UInt32) (hm : mark ∈ marks) (hpos : 0 < mark) : safeFrame marks total ≤ mark := by
  have hmem : mark ∈ marks.filter (0 < ·) := List.mem_filter.2 ⟨hm, by simpa using hpos⟩
  unfold safeFrame
  cases hmin : (marks.filter (0 < ·)).min? with
  | none => rw [List.min?_eq_none_iff.1 hmin] at hmem; cases hmem
  | some m =>
    have hle : m ≤ mark := (List.le_min?_iff hmin).1 (Nat.le_refl _) mark hmem
    exact UInt32.le_trans Std.min_le_left hle

/-- What a pass that knows the reader copies: pages of the reader's overlay. -/
structure PassSafe (h : WalHeader) (walR : Bytes) (slot : Nat) (mark : UInt32) (ckpt : Checkpointer) :
    Prop where
  /-- It read the WAL before the reader did, or it finds the reader's mark. -/
  probing : ∀ h' wal slots marks, ckpt = .probing h' wal slots marks → h' = h ∧
    (frames h wal <+: frames h walR ∨
      frames h walR <+: frames h wal ∧ (slot ∈ slots ∨ mark ∈ marks))
  copying : ∀ pages safe, ckpt = .copying pages safe →
    ∀ w ∈ pages, (committedPages h walR).1[w.1]?.isSome

theorem PassSafe.idle : PassSafe h walR slot mark .idle := ⟨nofun, nofun⟩

/-- The frames a pass copies from are the reader's. -/
theorem PassSafe.plan {already : UInt32} {n : Nat} {r : CheckpointResult}
    (hs : PassSafe h walR slot mark (.probing h wal [] marks)) (hpos : 0 < mark)
    (hb : mark.toNat ≤ (frames h walR).length) (hplan : planPass h wal marks already n = .copy pages safe r) :
    ∀ w ∈ pages, (committedPages h walR).1[w.1]?.isSome := by
  obtain ⟨rfl, hsafe⟩ := planPass_copy hplan
  intro w hw
  have hkey := (mem_backfillPages hw).2.2
  refine committedPages_grow ?_ (Option.isSome_of_eq_some hkey)
  rw [frames_take]
  rcases (hs.probing _ _ _ _ rfl).2 with hbefore | ⟨hafter, hslot | hmark⟩
  · exact (List.take_prefix _ _).trans hbefore
  · cases hslot
  · have hle := UInt32.le_iff_toNat_le.1 (safeFrame_le (totalFrames h wal) hmark hpos)
    rw [← hsafe] at hle
    exact List.prefix_of_prefix_length_le (List.take_prefix _ _) hafter
      (by rw [List.length_take]; omega)

/-! ## The invariant -/

/-- A pass copies whole pages that are committed. -/
structure PassInv (ps : UInt32) (s : World) : Prop where
  probing : ∀ h w slots marks, s.ckpt = .probing h w slots marks → h.pageSize = ps ∧
    ∃ wal, s.disk.wal = some wal ∧ WalHeader.parse wal = .ok h ∧ frames h w <+: frames h wal
  copying : ∀ pages safe, s.ckpt = .copying pages safe →
    ∃ wal h, s.disk.wal = some wal ∧ WalHeader.parse wal = .ok h ∧
      ∀ w ∈ pages, w.1 ≠ 0 ∧ w.2.length = ps.toNat ∧ (committedPages h wal).1[w.1]?.isSome

/-- An open reader that `walR` was the WAL of. -/
structure Pinned (ps : UInt32) (s : World) (slot : Nat) (mark : UInt32) (pager : Pager)
    (snapshot : UInt32 → Except PagerError Bytes) (h : WalHeader) (wal walR : Bytes) : Prop where
  file : s.disk.wal = some wal
  parse : WalHeader.parse wal = .ok h
  grown : frames h walR <+: frames h wal
  held : slot ∈ s.disk.readerSlots
  pos : 0 < mark
  bound : mark.toNat ≤ (frames h walR).length
  size : pager.pageSize = ps
  clean : pager.dirty = ∅
  overlay : pager.walPages = (committedPages h walR).1
  cached : CacheOk ⟨s.disk, pager⟩
  kept : ∀ p c, snapshot p = .ok c → Conn.readCommitted ⟨s.disk, pager⟩ p = .ok c
  pass : PassSafe h walR slot mark s.ckpt

/-- The slot of a reader that is not open yet exists; an open reader is pinned. -/
def ReaderInv (ps : UInt32) (s : World) : Reader → Prop
  | .closed => True
  | .locked slot => slot ∈ s.disk.readerSlots
  | .sampled slot _ => slot ∈ s.disk.readerSlots
  | .claimed pin => ∀ x ∈ pin, x.1 ∈ s.disk.readerSlots
  | .opened pin pager snapshot => ∃ slot mark h wal walR, pin = some (slot, mark) ∧
      Pinned ps s slot mark pager snapshot h wal walR

structure WorldInv (ps : UInt32) (s : World) : Prop where
  cold : ∀ j, s.disk.journal = some j → journalIsHot j = false
  hints : ∀ x ∈ s.hints, s.disk.Resumes ps x
  pass : PassInv ps s
  reader : ReaderInv ps s s.reader

/-! ## Steps of the writers -/

theorem wal_unique {d : Disk} {wal₁ : Bytes} {h₁ : WalHeader} (hw : d.wal = some wal) (hp : WalHeader.parse wal = .ok h)
    (hw₁ : d.wal = some wal₁) (hp₁ : WalHeader.parse wal₁ = .ok h₁) : wal = wal₁ ∧ h = h₁ := by
  obtain rfl := Option.some.inj (hw.symm.trans hw₁)
  exact ⟨rfl, Except.ok.inj (hp.symm.trans hp₁)⟩

theorem commit_cases (hi : WorldInv ps s) (hs : s.commit ps hint txn = some s') :
    ∃ wal h, s.disk.wal = some wal ∧ WalHeader.parse wal = .ok h ∧ h.pageSize = ps ∧
      (∀ f ∈ txn, f.content.length = h.pageSize.toNat) ∧
      s' = { s with
        disk := { s.disk with wal := some (commitBytes h wal txn) }
        publishing := some (commitWriter h wal txn).frameCount
        hints := (commitWriter h wal txn).resumeHint :: s.hints } := by
  unfold World.commit at hs
  split at hs
  · cases hs
  rename_i wal hwal
  split at hs
  swap
  · cases hs
  rename_i hc
  obtain ⟨-, hhint, hne, hlen⟩ := hc
  split at hs
  · cases hs
  rename_i wal' w hap
  obtain ⟨h, hp, rfl, hok⟩ : ∃ h, WalHeader.parse wal = .ok h ∧ h.pageSize = ps ∧
      ∀ x, hint = some x → HintOk h wal x := by
    cases hint with
    | none =>
      cases hopen : WalWriter.openScan wal ps with
      | error e => simp [appendTransaction, WalWriter.openExisting, hopen, bind, Except.bind] at hap
      | ok w =>
        obtain ⟨h, hp, hsize⟩ := openScan_parse hopen
        exact ⟨h, hp, hsize, fun x hx => by cases hx⟩
    | some x =>
      obtain ⟨wal₁, h, hw₁, hp, hsize, hx⟩ := hi.hints x (hhint x rfl)
      rw [hwal] at hw₁
      cases hw₁
      exact ⟨h, hp, hsize, fun y hy => by cases hy; exact hx⟩
  rw [appendTransaction_eq hp hok hne] at hap
  cases hap
  cases hs
  exact ⟨wal, h, hwal, hp, rfl, hlen, rfl⟩

theorem PassInv.commit (hi : PassInv ps s) (hw : s.disk.wal = some wal) (hp : WalHeader.parse wal = .ok h)
    (hc : ∀ f ∈ txn, f.content.length = h.pageSize.toNat) (hw' : s'.disk.wal = some (commitBytes h wal txn))
    (hk : s'.ckpt = s.ckpt) : PassInv ps s' := by
  have hgrow := frames_commitBytes hp hc
  refine ⟨fun h₁ w slots marks hpr => ?_, fun pages safe hcp => ?_⟩
  · obtain ⟨hsize, wal₁, hw₁, hp₁, hpre⟩ := hi.probing _ _ _ _ (hk ▸ hpr)
    obtain ⟨rfl, rfl⟩ := wal_unique hw hp hw₁ hp₁
    exact ⟨hsize, _, hw', parse_commitBytes txn hp, hpre.trans hgrow⟩
  · obtain ⟨wal₁, h₁, hw₁, hp₁, hpages⟩ := hi.copying _ _ (hk ▸ hcp)
    obtain ⟨rfl, rfl⟩ := wal_unique hw hp hw₁ hp₁
    refine ⟨_, _, hw', parse_commitBytes txn hp, fun w hwm => ?_⟩
    obtain ⟨h0, hlen, hkey⟩ := hpages w hwm
    exact ⟨h0, hlen, committedPages_grow hgrow hkey⟩

theorem readerSlots_mono {d d' : Disk} (h : d.nBackfill.isSome → d'.nBackfill.isSome) (hs : slot ∈ d.readerSlots) :
    slot ∈ d'.readerSlots := by
  unfold Disk.readerSlots at hs ⊢
  split at hs
  · rename_i hd
    rwa [if_pos (h hd)]
  · cases hs

/-- The main file stays and the WAL grows: the reader stays pinned. -/
theorem Pinned.frame {wal' : Bytes} (hi : Pinned ps s slot mark pager snapshot h wal walR)
    (hmain : s'.disk.main = s.disk.main) (hshm : s.disk.nBackfill.isSome → s'.disk.nBackfill.isSome)
    (hw : s'.disk.wal = some wal') (hp : WalHeader.parse wal' = .ok h) (hgrow : frames h wal <+: frames h wal')
    (hpass : PassSafe h walR slot mark s'.ckpt) : Pinned ps s' slot mark pager snapshot h wal' walR where
  file := hw
  parse := hp
  grown := hi.grown.trans hgrow
  held := readerSlots_mono hshm hi.held
  pos := hi.pos
  bound := hi.bound
  size := hi.size
  clean := hi.clean
  overlay := hi.overlay
  cached p c hc := by
    have := hi.cached p c hc
    simp only [hmain] at this ⊢
    exact this
  kept p c hc := by
    have := hi.kept p c hc
    simp only [Conn.readCommitted, hmain] at this ⊢
    exact this
  pass := hpass

theorem ReaderInv.frame (hi : ReaderInv ps s s.reader) (hr : s'.reader = s.reader)
    (hshm : s.disk.nBackfill.isSome → s'.disk.nBackfill.isSome)
    (hopen : ∀ slot mark pager snapshot h wal walR, Pinned ps s slot mark pager snapshot h wal walR →
      ∃ wal', Pinned ps s' slot mark pager snapshot h wal' walR) :
    ReaderInv ps s' s'.reader := by
  rw [hr]
  cases hs : s.reader with
  | closed => trivial
  | locked slot => rw [hs] at hi; exact readerSlots_mono hshm hi
  | sampled slot m => rw [hs] at hi; exact readerSlots_mono hshm hi
  | claimed pin => rw [hs] at hi; exact fun x hx => readerSlots_mono hshm (hi x hx)
  | opened pin pager snapshot =>
    rw [hs] at hi
    obtain ⟨slot, mark, h, wal, walR, hpin, hp⟩ := hi
    obtain ⟨wal', hp'⟩ := hopen _ _ _ _ _ _ _ hp
    exact ⟨slot, mark, h, wal', walR, hpin, hp'⟩

theorem WorldInv.commit (hi : WorldInv ps s) (hs : s.commit ps hint txn = some s') : WorldInv ps s' := by
  obtain ⟨wal, h, hw, hp, hsize, hc, rfl⟩ := commit_cases hi hs
  refine ⟨hi.cold, fun x hx => ?_, hi.pass.commit hw hp hc rfl rfl, hi.reader.frame rfl id ?_⟩
  · refine ⟨_, h, rfl, parse_commitBytes txn hp, hsize, ?_⟩
    rcases List.mem_cons.1 hx with rfl | hx
    · exact hintOk_commitWriter (parse_length hp) hc
    · obtain ⟨wal₁, h₁, hw₁, hp₁, -, hx⟩ := hi.hints x hx
      obtain ⟨rfl, rfl⟩ := wal_unique hw hp hw₁ hp₁
      exact hx.commit txn hp
  · intro slot mark pager snapshot h₁ wal₁ walR hpin
    obtain ⟨rfl, rfl⟩ := wal_unique hw hp hpin.file hpin.parse
    exact ⟨_, hpin.frame rfl id rfl (parse_commitBytes txn hp) (frames_commitBytes hp hc) hpin.pass⟩

/-- There is no `-wal`, so nobody depends on one. -/
theorem WorldInv.create {salts : UInt32 × UInt32} (hi : WorldInv ps s)
    (hs : s.create ps salts = some s') : WorldInv ps s' := by
  unfold World.create at hs
  split at hs
  swap
  · cases hs
  rename_i hc
  cases hs
  have habsent : ∀ {wal : Bytes}, s.disk.wal ≠ some wal := by
    intro wal hwal
    rw [hc.1] at hwal
    cases hwal
  have hshm : s.disk.nBackfill.isSome → (s.disk.createWal (freshHeader ps salts)).1.nBackfill.isSome := by
    intro h
    unfold Disk.nBackfill at h ⊢
    split at h
    · rename_i hx
      exact if_pos hx ▸ rfl
    · cases h
  refine ⟨hi.cold, fun x hx => ?_, ⟨fun h w slots marks hpr => ?_, fun pages safe hcp => ?_⟩, ?_⟩
  · obtain ⟨wal, h, hw, -⟩ := hi.hints x hx
    exact absurd hw habsent
  · obtain ⟨-, wal, hw, -⟩ := hi.pass.probing _ _ _ _ hpr
    exact absurd hw habsent
  · obtain ⟨wal, h, hw, -⟩ := hi.pass.copying _ _ hcp
    exact absurd hw habsent
  · have hr := hi.reader
    cases hs : s.reader with
    | closed => trivial
    | locked slot => rw [hs] at hr; exact readerSlots_mono hshm hr
    | sampled slot m => rw [hs] at hr; exact readerSlots_mono hshm hr
    | claimed pin =>
      rw [hs] at hr
      intro x hx
      obtain ⟨y, hy, rfl⟩ := Option.map_eq_some_iff.1 hx
      exact readerSlots_mono hshm (hr y hy)
    | opened pin pager snapshot =>
      rw [hs] at hr
      obtain ⟨_, _, _, _, _, _, hpin⟩ := hr
      exact absurd hpin.file habsent

theorem WorldInv.reader_step {r : Reader} (hi : WorldInv ps s) (hr : ReaderInv ps { s with reader := r } r) :
    WorldInv ps { s with reader := r } :=
  ⟨hi.cold, hi.hints, ⟨hi.pass.probing, hi.pass.copying⟩, hr⟩

/-! ## Steps of the reader -/

theorem WorldInv.lockSlot (hi : WorldInv ps s) (hs : s.lockSlot slot = some s') : WorldInv ps s' := by
  unfold World.lockSlot at hs
  split at hs
  · split at hs
    · rename_i hslot
      cases hs
      exact hi.reader_step hslot
    · cases hs
  · cases hs

theorem WorldInv.sampleMxFrame (hi : WorldInv ps s) (hs : s.sampleMxFrame = some s') : WorldInv ps s' := by
  have hr := hi.reader
  unfold World.sampleMxFrame at hs
  split at hs
  · rename_i slot hslot
    cases hs
    rw [hslot] at hr
    exact hi.reader_step hr
  · cases hs

theorem WorldInv.setReadMark (hi : WorldInv ps s) (hs : s.setReadMark = some s') : WorldInv ps s' := by
  have hr := hi.reader
  unfold World.setReadMark at hs
  split at hs
  · rename_i slot m hslot
    cases hs
    rw [hslot] at hr
    exact hi.reader_step fun x hx => by cases hx; exact hr
  · cases hs

theorem WorldInv.noShm (hi : WorldInv ps s) (hs : s.noShm = some s') : WorldInv ps s' := by
  unfold World.noShm at hs
  split at hs
  · split at hs
    · cases hs
      exact hi.reader_step nofun
    · cases hs
  · cases hs

theorem open_cold {disk : Disk} {c : Conn}
    (hcold : ∀ j, disk.journal = some j → journalIsHot j = false) (h : Pager.open disk ps = .ok c) :
    c.disk = disk ∧ c.pager.pageSize = ps ∧ c.pager.dirty = ∅ ∧
      readWalPages disk.wal ps = .ok c.pager.walPages ∧
      c.pager.pageCache = .new defaultPageCacheCapacity := by
  unfold Pager.open at h
  rw [openOps_cold (f := disk.files) hcold] at h
  simp only [runOps] at h
  split at h
  · cases h
  · rename_i m hm
    split at h
    · cases h
    · cases h
      exact ⟨rfl, rfl, rfl, hm, rfl⟩

theorem pinned_cases {pin : Option (Nat × UInt32)} (hr : s.reader = .claimed pin) (hp : s.pinned = true) :
    ∃ slot mark wal h, pin = some (slot, mark) ∧ s.disk.wal = some wal ∧ WalHeader.parse wal = .ok h ∧
      0 < mark ∧ mark.toNat ≤ (frames h wal).length := by
  unfold World.pinned at hp
  rw [hr] at hp
  split at hp
  · rename_i slot mark wal hpin hwal
    cases hpin
    split at hp
    · rename_i h hparse
      rw [Bool.and_eq_true, decide_eq_true_eq, decide_eq_true_eq] at hp
      exact ⟨slot, mark, wal, h, rfl, hwal, hparse, hp⟩
    · cases hp
  · cases hp

theorem WorldInv.openPager (hi : WorldInv ps s) (hpin : s.pinned = true)
    (hs : s.openPager ps = some s') : WorldInv ps s' := by
  have hr := hi.reader
  unfold World.openPager at hs
  split at hs
  swap
  · cases hs
  rename_i pin hclaim
  rw [hclaim] at hr
  split at hs
  · cases hs
  rename_i c hopen
  cases hs
  obtain ⟨hdisk, hsize, hclean, hread, hcache⟩ := open_cold hi.cold hopen
  obtain ⟨slot, mark, wal, h, rfl, hw, hp, hpos, hb⟩ := pinned_cases hclaim hpin
  have hps : h.pageSize = ps ∧ c.pager.walPages = (committedPages h wal).1 := by
    rw [hw] at hread
    rcases readWalPages_some hread with hshort | ⟨h₁, hp₁, hsz, hpages⟩
    · exact absurd (parse_length hp) (Nat.not_le.2 hshort)
    · rw [hp] at hp₁
      cases hp₁
      exact ⟨hsz, hpages.symm⟩
  rw [hdisk]
  refine ⟨hi.cold, hi.hints, ⟨hi.pass.probing, hi.pass.copying⟩, slot, mark, h, wal, wal, rfl, ?_⟩
  refine ⟨hw, hp, List.prefix_rfl, hr _ rfl, hpos, hb, hsize, hclean, hps.2, ?_, ?_, ?_, ?_⟩
  · intro p b hb
    rw [hcache, PageCache.content_new] at hb
    cases hb
  · intro p b hb
    simp only [committedView, hread] at hb
    simp only [Conn.readCommitted, hsize]
    exact hb
  · intro h₁ w slots marks hpr
    obtain ⟨-, wal₁, hw₁, hp₁, hpre⟩ := hi.pass.probing _ _ _ _ hpr
    obtain ⟨rfl, rfl⟩ := wal_unique hw hp hw₁ hp₁
    exact ⟨rfl, .inl hpre⟩
  · intro pages safe hcp w hwm
    obtain ⟨wal₁, h₁, hw₁, hp₁, hpages⟩ := hi.pass.copying _ _ hcp
    obtain ⟨rfl, rfl⟩ := wal_unique hw hp hw₁ hp₁
    exact (hpages w hwm).2.2

theorem WorldInv.readPage (hi : WorldInv ps s) (hs : s.readPage p = some s') : WorldInv ps s' := by
  have hr := hi.reader
  unfold World.readPage at hs
  split at hs
  swap
  · cases hs
  rename_i pin pager snapshot hopen
  cases hs
  rw [hopen] at hr
  obtain ⟨slot, mark, h, wal, walR, rfl, hpin⟩ := hr
  obtain ⟨c, hc, hok⟩ := readPage_cached hpin.cached p
  rw [hc]
  exact hi.reader_step ⟨slot, mark, h, wal, walR, rfl,
    { hpin with cached := hok, kept := hpin.kept }⟩

/-! ## Steps of a pass -/

theorem WorldInv.ckpt_step {k : Checkpointer} (hi : WorldInv ps s) (hk : PassInv ps { s with ckpt := k })
    (hsafe : ∀ slot mark pager snapshot h wal walR, Pinned ps s slot mark pager snapshot h wal walR →
      PassSafe h walR slot mark k) : WorldInv ps { s with ckpt := k } := by
  refine ⟨hi.cold, hi.hints, hk, hi.reader.frame rfl id ?_⟩
  intro slot mark pager snapshot h wal walR hpin
  exact ⟨wal, hpin.frame rfl id hpin.file hpin.parse List.prefix_rfl (hsafe _ _ _ _ _ _ _ hpin)⟩

theorem PassInv.idle : PassInv ps { s with ckpt := .idle } := ⟨nofun, nofun⟩

theorem WorldInv.startPass (hi : WorldInv ps s) (hs : s.startPass ps = some s') : WorldInv ps s' := by
  unfold World.startPass at hs
  split at hs
  swap
  · cases hs
  rename_i wal hidle hw
  split at hs
  · cases hs
  rename_i h hp
  split at hs
  swap
  · cases hs
  rename_i hsize
  cases hs
  refine hi.ckpt_step ⟨fun h₁ w slots marks hpr => ?_, nofun⟩
    fun slot mark pager snapshot h₁ wal₁ walR hpin => ?_
  · cases hpr
    exact ⟨hsize, wal, hw, hp, List.prefix_rfl⟩
  · obtain ⟨rfl, rfl⟩ := wal_unique hw hp hpin.file hpin.parse
    refine ⟨fun h₂ w slots marks hpr => ?_, nofun⟩
    cases hpr
    exact ⟨rfl, .inr ⟨hpin.grown, .inl hpin.held⟩⟩

theorem mark_of_pinned : (Reader.opened (some (slot, mark)) pager snapshot).mark slot = some mark := if_pos rfl

theorem WorldInv.probeSlot {found : Option UInt32} (hi : WorldInv ps s)
    (hs : s.probeSlot found = some s') : WorldInv ps s' := by
  have hr := hi.reader
  unfold World.probeSlot at hs
  split at hs
  swap
  · cases hs
  rename_i h wal k slots marks hpr
  cases hs
  refine ⟨hi.cold, hi.hints, ⟨fun h₁ w ks ms he => ?_, nofun⟩, ?_⟩
  · cases he
    exact hi.pass.probing _ _ _ _ hpr
  cases hopen : s.reader with
  | closed => trivial
  | locked slot => rw [hopen] at hr; exact hr
  | sampled slot m => rw [hopen] at hr; exact hr
  | claimed pin => rw [hopen] at hr; exact hr
  | opened pin pager snapshot =>
    rw [hopen] at hr
    obtain ⟨slot, mark, h₁, wal₁, walR, rfl, hpin⟩ := hr
    refine ⟨slot, mark, h₁, wal₁, walR, rfl,
      hpin.frame rfl id hpin.file hpin.parse List.prefix_rfl ⟨fun h₂ w ks ms he => ?_, nofun⟩⟩
    cases he
    obtain ⟨rfl, hcase⟩ := hpin.pass.probing _ _ _ _ hpr
    refine ⟨rfl, hcase.imp id fun hafter => ⟨hafter.1, ?_⟩⟩
    rcases hafter.2 with hslot | hmark
    · rcases List.mem_cons.1 hslot with rfl | hslot
      · exact .inr (List.mem_append_right _ (by rw [mark_of_pinned]; exact List.mem_singleton.2 rfl))
      · exact .inl hslot
    · exact .inr (List.mem_append_left _ hmark)

theorem WorldInv.plan (hi : WorldInv ps s) (hs : s.plan = some s') : WorldInv ps s' := by
  unfold World.plan at hs
  split at hs
  swap
  · cases hs
  rename_i h w marks hpr
  split at hs
  · cases hs
    exact hi.ckpt_step .idle fun _ _ _ _ _ _ _ _ => .idle
  rename_i pages safe r hplan
  cases hs
  obtain ⟨hsize, wal, hw, hp, hpre⟩ := hi.pass.probing _ _ _ _ hpr
  refine hi.ckpt_step ⟨nofun, fun pages safe he => ?_⟩
    fun slot mark pager snapshot h₁ wal₁ walR hpin => ?_
  · cases he
    refine ⟨wal, h, hw, hp, fun x hx => ?_⟩
    rw [(planPass_copy hplan).1] at hx
    obtain ⟨h0, hlen, hkey⟩ := mem_backfillPages hx
    refine ⟨h0, hsize ▸ hlen, committedPages_grow ?_ (Option.isSome_of_eq_some hkey)⟩
    rw [frames_take]
    exact (List.take_prefix _ _).trans hpre
  · obtain ⟨rfl, rfl⟩ := wal_unique hw hp hpin.file hpin.parse
    refine ⟨nofun, fun pages safe he => ?_⟩
    cases he
    exact (hpr ▸ hpin.pass).plan hpin.pos hpin.bound hplan

/-- A copied page is one that the reader has in its overlay. -/
theorem Pinned.copyPage {w : UInt32 × Bytes} (hps : 0 < ps.toNat) (hi : Pinned ps s slot mark pager snapshot h wal walR)
    (hk : s.ckpt = .copying (w :: pages) safe) (h0 : w.1 ≠ 0) (hlen : w.2.length = ps.toNat) : Pinned ps { s with
      disk := { s.disk with main := writeAt s.disk.main w.2 (pageOffset ps w.1) }
      ckpt := .copying pages safe } slot mark pager snapshot h wal walR := by
  have hover := hi.pass.copying _ _ hk w List.mem_cons_self
  rw [← hi.overlay] at hover
  have hother : ∀ p c, pager.walPages[p]? = none → readMain s.disk.main ps p = .ok c →
      readMain (writeAt s.disk.main w.2 (pageOffset ps w.1)) ps p = .ok c := by
    intro p c hp hc
    refine readMain_ok.2 (readPage_writePage_other h0 hps hlen ?_ (readMain_ok.1 hc))
    rintro rfl
    rw [hp] at hover
    cases hover
  refine { hi with
    file := hi.file, held := hi.held, cached := fun p c hc => ?_, kept := fun p c hc => ?_,
    pass := ⟨nofun, ?_⟩ }
  · obtain ⟨hnone, hread⟩ := hi.cached p c hc
    refine ⟨hnone, ?_⟩
    simp only [hi.size] at hread ⊢
    exact hother p c hnone hread
  · have hread := hi.kept p c hc
    unfold Conn.readCommitted at hread ⊢
    cases hp : pager.walPages[p]? with
    | some b => simp only [hp] at hread ⊢; exact hread
    | none =>
      simp only [hp, hi.size] at hread ⊢
      exact hother p c hp hread
  · intro pages' safe' he v hv
    cases he
    exact hi.pass.copying _ _ hk v (List.mem_cons_of_mem _ hv)

theorem WorldInv.copyPage (hps : 0 < ps.toNat) (hi : WorldInv ps s) (hs : s.copyPage ps = some s') :
    WorldInv ps s' := by
  unfold World.copyPage at hs
  split at hs
  swap
  · cases hs
  rename_i w pages safe hk
  cases hs
  obtain ⟨wal, h, hw, hp, hpages⟩ := hi.pass.copying _ _ hk
  obtain ⟨h0, hlen, -⟩ := hpages w List.mem_cons_self
  refine ⟨hi.cold, hi.hints, ⟨nofun, fun pages' safe' he => ?_⟩, hi.reader.frame rfl id ?_⟩
  · cases he
    exact ⟨wal, h, hw, hp, fun v hv => hpages v (List.mem_cons_of_mem _ hv)⟩
  · exact fun _ _ _ _ _ wal _ hpin => ⟨wal, hpin.copyPage hps hk h0 hlen⟩

theorem WorldInv.publishBackfill (hi : WorldInv ps s) (hs : s.publishBackfill = some s') :
    WorldInv ps s' := by
  unfold World.publishBackfill at hs
  split at hs
  swap
  · cases hs
  rename_i safe hk
  cases hs
  have hshm : s.disk.nBackfill.isSome → Option.isSome (Disk.nBackfill { s.disk with
      shm := if s.disk.walIndex then s.disk.shm.map fun _ => safe else s.disk.shm }) := by
    unfold Disk.nBackfill
    cases s.disk.walIndex <;> simp
  refine ⟨hi.cold, hi.hints, ⟨nofun, nofun⟩, hi.reader.frame rfl hshm ?_⟩
  exact fun _ _ _ _ _ wal _ hpin => ⟨wal, hpin.frame rfl hshm hpin.file hpin.parse List.prefix_rfl .idle⟩

theorem WorldInv.publish (hi : WorldInv ps s) (hs : s.publish = some s') : WorldInv ps s' := by
  unfold World.publish at hs
  split at hs
  · cases hs
  · cases hs
    exact ⟨hi.cold, hi.hints, ⟨hi.pass.probing, hi.pass.copying⟩, hi.reader.frame rfl id
      fun _ _ _ _ _ wal _ hpin => ⟨wal, hpin.frame rfl id hpin.file hpin.parse List.prefix_rfl hpin.pass⟩⟩

/-! ## The snapshot -/

theorem readerWorld_inductive (hps : 0 < ps.toNat) :
    ((readerWorld ps).restrict fun s op => pinnedOpen s op = true).Inductive (WorldInv ps) where
  init s h := by
    obtain ⟨hcold, hhints, -, hr, hk⟩ := h
    refine ⟨hcold, hhints, ⟨?_, ?_⟩, ?_⟩
    · rw [hk]; exact nofun
    · rw [hk]; exact nofun
    · rw [hr]; trivial
  step s op s' hi hs := by
    obtain ⟨hs, hpin⟩ := hs
    cases op with
    | create salts => exact hi.create hs
    | commit hint txn => exact hi.commit hs
    | publish => exact hi.publish hs
    | lockSlot slot => exact hi.lockSlot hs
    | sampleMxFrame => exact hi.sampleMxFrame hs
    | setReadMark => exact hi.setReadMark hs
    | noShm => exact hi.noShm hs
    | openPager => exact hi.openPager hpin hs
    | readPage p => exact hi.readPage hs
    | startPass => exact hi.startPass hs
    | probeSlot found => exact hi.probeSlot hs
    | plan => exact hi.plan hs
    | copyPage => exact hi.copyPage hps hs
    | publishBackfill => exact hi.publishBackfill hs

/-- **A pinned reader keeps its snapshot**: in every run of commits, passes
and reads in which the reader opens under a mark that is not 0 and that the
WAL's frames reach, it reads every page as it was committed at its open. -/
theorem snapshot_kept (ps : UInt32) (hps : 0 < ps.toNat) (s : World)
    (hreach : ((readerWorld ps).restrict fun s op => pinnedOpen s op = true).Reachable s) :
    SnapshotKept s := by
  intro pin pager snapshot hopen p c hc
  have hr := ((readerWorld_inductive hps).reachable s hreach).reader
  rw [hopen] at hr
  obtain ⟨slot, mark, h, wal, walR, -, hpin⟩ := hr
  rw [readPage_eq hpin.cached, hpin.clean, ExtTreeMap.getElem?_empty]
  exact hpin.kept p c hc

/-! ## A reader of an empty WAL

It opens while `mxFrame` is 0, so its mark is 0, and a pass takes no notice
of such marks. -/

/-- What was committed of page `p` when the reader opened, and what it reads. -/
def World.reads (s : World) (p : UInt32) :
    Option (Except PagerError Bytes × Except PagerError Bytes) :=
  match s.reader with
  | .opened _ pager snapshot => some (snapshot p, (Conn.readPage p ⟨s.disk, pager⟩).1)
  | _ => none

theorem SnapshotKept.reads {c : Bytes} {r : Except PagerError Bytes} (h : SnapshotKept s)
    (hr : s.reads p = some (.ok c, r)) : r = .ok c := by
  unfold World.reads at hr
  split at hr
  · rename_i pin pager snapshot hopen
    have hpair := Option.some.inj hr
    exact (congrArg Prod.snd hpair).symm.trans (h _ _ _ hopen p c (congrArg Prod.fst hpair))
  · cases hr

def readerOpens : List WorldOp := [.lockSlot 1, .sampleMxFrame, .setReadMark, .openPager]

def pageOneCommit (page : Bytes) : List WorldOp := [.commit none [⟨1, 1, page⟩], .publish]

def wholePass : List WorldOp :=
  [.startPass, .probeSlot none, .probeSlot none, .probeSlot none, .probeSlot none, .plan, .copyPage,
    .publishBackfill]

def emptyWorld : World := ⟨sharedDisk, 0, none, [], .closed, .idle⟩

theorem emptyWorld_reachable (P : World → WorldOp → Prop) :
    ((readerWorld 512).restrict P).Reachable emptyWorld :=
  ⟨_, [], ⟨fun j hj => (by cases hj), fun x hx => (by cases hx), rfl, rfl, rfl⟩, .nil _⟩

def unpinnedEnd : World :=
  (LTS.follow (World.next 512) (fun _ _ => true) (readerOpens ++ pageOneCommit editedPage ++ wholePass)
    emptyWorld).getD emptyWorld

/-- **Counterexample**: the reader opens an empty WAL under mark 0; another
process commits page 1 and checkpoints; the reader then reads the new page. -/
theorem unpinned_read_changes :
    ∃ s, (readerWorld 512).Reachable s ∧ s.reads 1 = some (.ok walMain, .ok editedPage) ∧
      ¬ SnapshotKept s := by
  have hrun : LTS.follow (World.next 512) (fun _ _ => true)
      (readerOpens ++ pageOneCommit editedPage ++ wholePass) emptyWorld = some unpinnedEnd :=
    LTS.followed_getD (by decide +kernel)
  have hreach := LTS.Reachable.follow (M := readerWorld 512) (fun _ _ _ h => h)
    (emptyWorld_reachable fun _ _ => true = true) hrun
  have hreads : unpinnedEnd.reads 1 = some (.ok walMain, .ok editedPage) := by decide +kernel
  refine ⟨unpinnedEnd, hreach.of_restrict, hreads, fun h => ?_⟩
  have hsame : walMain = editedPage := (Except.ok.inj (h.reads hreads)).symm
  exact absurd hsame (by decide +kernel)

/-! The same reader after a first commit has mark 1. -/

def pinnedEnd : World :=
  (LTS.follow (World.next 512) pinnedOpen
    (pageOneCommit editedPage ++ readerOpens ++ pageOneCommit walMain ++ wholePass)
    emptyWorld).getD emptyWorld

theorem pinnedEnd_reachable :
    ((readerWorld 512).restrict fun s op => pinnedOpen s op = true).Reachable pinnedEnd :=
  LTS.Reachable.follow (M := readerWorld 512) (fun _ _ _ h => h) (emptyWorld_reachable _)
    (LTS.followed_getD (by decide +kernel))

theorem pinned_reader_keeps :
    pinnedEnd.reads 1 = some (.ok editedPage, .ok editedPage) ∧ SnapshotKept pinnedEnd :=
  ⟨by decide +kernel, snapshot_kept 512 (by decide) pinnedEnd pinnedEnd_reachable⟩

end DbStorage.Pager
