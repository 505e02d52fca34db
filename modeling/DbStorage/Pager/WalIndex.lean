import DbStorage.Pager.ResumeHint

/-!
# `mxFrame` in the `-shm` file (`flush_wal_locked`, `vfs/shm.rs`)

A WAL commit publishes the number of frames as `mxFrame` of the `-shm` file,
through a handle that the process shares on one path: `open_shm_shared` opens
it only if nobody in the process holds one. A deleted file stays open for
those who hold it, so `-shm` files have numbers here (inodes).

`indexRuns` puts the handles next to the connections of `walRuns`, each in
some process. Flushes return `Ok`.

Results: `published_mxFrame_exact`: in every run whose WAL commits meet
`PublishesExact`, `mxFrame` of the file at the path is the length of the
chain after each commit. `stale_handle_publishes`: when another program
deletes `-wal` and `-shm`, the commit that recreates both publishes into the
deleted file, because the connection's own reader mark keeps it in the
registry.

Left out: the other fields of the `-shm` file, the check of its length and
the lock bytes.
-/
namespace DbStorage.Pager
open Bytes Vfs Wal Std List

/-! ## Handles -/

/-- The `-shm` handles of a connection: of its reader mark (`wal_lock`) and
the cached one (`wal_shm`). -/
structure ShmConn where
  id : Nat
  proc : Nat
  walLock : Option Nat
  walShm : Option Nat
  deriving DecidableEq

def ShmConn.handles (c : ShmConn) : List Nat := c.walLock.toList ++ c.walShm.toList

/-- The WAL and its connections, `mxFrame` of every `-shm` file there has
been, the one at the path, the number of the next one, the handles, and
whether the last step was a WAL commit. -/
structure IndexWorld where
  wal : WalWorld
  mxFrame : Nat → UInt32
  path : Option Nat
  inodes : Nat
  conns : List ShmConn
  flushed : Bool

section
variable (w : IndexWorld)

/-- The file that the registry's `Weak` of process `p` upgrades to. -/
def IndexWorld.handleOf (p : Nat) : Option Nat :=
  w.conns.findSome? fun c => if c.proc = p then c.handles.head? else none

/-- mirrors shm.rs:221-237 -/
def IndexWorld.openShmShared (p : Nat) : Option Nat := (w.handleOf p).or w.path

/-- mirrors unix.rs:56-61 and shm.rs:440-445 -/
def IndexWorld.claimWalReadLock (p : Nat) : Option Nat :=
  if w.wal.disk.walIndex then w.openShmShared p else none

/-- mirrors unix.rs:116-128 -/
def IndexWorld.openWalShm (p : Nat) : Option Nat :=
  if w.wal.disk.walIndex ∧ w.path.isSome then w.openShmShared p else none

def IndexWorld.setShm (c : ShmConn) (shm : Option Nat) : IndexWorld :=
  { w with conns := w.conns.map fun d => if d = c then { c with walShm := shm } else d }

/-- mirrors pager/mod.rs:678-680 -/
def IndexWorld.openHandle (c : ShmConn) : ShmConn × IndexWorld :=
  let shm := if c.walShm.isNone then w.openWalShm c.proc else c.walShm
  ({ c with walShm := shm }, w.setShm c shm)

/-- A fresh `-shm`, over the one at the path if there is one.
mirrors pager/mod.rs:866-868 -/
def IndexWorld.createShm : IndexWorld :=
  match w.path with
  | some k => { w with mxFrame := Function.update w.mxFrame k 0 }
  | none =>
    { w with
      mxFrame := Function.update w.mxFrame w.inodes 0
      path := some w.inodes
      inodes := w.inodes + 1 }

/-- mirrors pager/mod.rs:866-870; the old handle is held until the
new one is there. -/
def IndexWorld.recreate (c : ShmConn) : ShmConn × IndexWorld :=
  let w := w.createShm
  let shm := w.openWalShm c.proc
  ({ c with walShm := shm }, w.setShm c shm)

/-- mirrors pager/mod.rs:741-744 -/
def IndexWorld.publish (c : ShmConn) (n : UInt32) : IndexWorld :=
  match c.walShm.or (w.openWalShm c.proc) with
  | some k => { w with mxFrame := Function.update w.mxFrame k n }
  | none => w

/-- The `-shm` side of a commit after which the WAL is `wal` and the writer
counts `n` frames.
mirrors pager/mod.rs:678-744 -/
def IndexWorld.commit (c : ShmConn) (wal : WalWorld) (n : UInt32) : IndexWorld :=
  let opened := w.openHandle c
  let ready := if w.wal.disk.wal.isNone then opened.2.recreate opened.1 else (opened.1, opened.2)
  { ready.2.publish ready.1 n with wal := wal, flushed := true }

end

/-- The frame count of the writer a hint was taken from. -/
def hintFrameCount (x : WalResumeHint) : UInt32 :=
  WalWriter.frameCount ⟨x.header, x.running, x.offset, none, []⟩

def WalWorld.frameCount (s : WalWorld) (i : Nat) : UInt32 :=
  (((s.conns i).bind Pager.walResume).map hintFrameCount).getD 0

inductive IndexAct where
  | join (i proc : Nat) (pageSize : UInt32)
  | close (i : Nat)
  | call (i : Nat) (op : PagerOp)
  | vanish

def IndexAct.toWal : IndexAct → WalAct
  | .join i _ pageSize => .join i pageSize
  | .close i => .close i
  | .call i op => .call i op
  | .vanish => .vanish

/-- Nothing but the WAL changes. -/
def IndexWorld.after (w : IndexWorld) (wal : WalWorld) : IndexWorld := { w with wal := wal, flushed := false }

def IndexWorld.next (w : IndexWorld) (a : IndexAct) : Option IndexWorld :=
  (w.wal.next a.toWal).bind fun wal =>
    match a with
    | .join i p _ => some { w.after wal with conns := ⟨i, p, w.claimWalReadLock p, none⟩ :: w.conns }
    | .close i => some { w.after wal with conns := w.conns.filter (·.id ≠ i) }
    | .call i op =>
      match w.wal.conns i, w.conns.find? (·.id = i) with
      | some pager, some c =>
        if op.isFlush then
          if ((⟨w.wal.disk, pager⟩ : Conn).run op).1 then
            some (if pager.commitsWal then w.commit c wal (wal.frameCount i) else w.after wal)
          else none
        else some (w.after wal)
      | _, _ => none
    | .vanish => some { w.after wal with path := none }

/-- Any files, and no connection yet. -/
def indexRuns : LTS IndexWorld IndexAct where
  init w := walRuns.init w.wal ∧ (∀ k, w.path = some k → k < w.inodes) ∧ w.conns = [] ∧ w.flushed = false
  step w a w' := w.next a = some w'

/-- `mxFrame` of the `-shm` file at its path is the number of frames in the
chain of the `-wal` file at its path. -/
def MxFrameExact (w : IndexWorld) : Prop :=
  ∃ k wal h, w.path = some k ∧ w.wal.disk.wal = some wal ∧ WalHeader.parse wal = .ok h ∧
    (w.mxFrame k).toNat = (frames h wal).length

/-- Behind the frames of a commit the file has no room for a further whole
frame, and a `u32` counts them all. -/
def tailFits (wal : Option Bytes) (n : Nat) : Bool :=
  match wal with
  | none => n < 2 ^ 32
  | some wal =>
    match WalHeader.parse wal with
    | .error _ => true
    | .ok h => (frames h wal).length + n < 2 ^ 32 &&
        wal.length < (lastValidFrameState h wal).1 + (n + 1) * h.frameSize

/-- The condition on a WAL commit: the backend has a `-shm`, the level is
`Full`, the pages are page-sized and the page size is a valid one, every
`-shm` handle of the process is of the file at the path, that file exists
unless the `-wal` file has vanished too, and no old frames lie behind the
new ones. -/
def PublishesExact (w : IndexWorld) : IndexAct → Bool
  | .call i (.flush _ _) =>
    match w.wal.conns i, w.conns.find? (·.id = i) with
    | some pager, some c => !pager.commitsWal ||
        (w.wal.disk.walIndex && pager.synchronous = .full &&
          (pager.dirty.toList.all fun v => v.2.length = pager.pageSize.toNat) &&
          validPageSize pager.pageSize && ((w.handleOf c.proc).all fun k => w.path = some k) &&
          (w.path.isSome || w.wal.disk.wal.isNone) &&
          tailFits w.wal.disk.wal pager.dirty.toList.length)
    | _, _ => true
  | _ => true

/-! ## One file per process -/

/-- All handles of a process are of one file. -/
def SameHandles (l : List ShmConn) : Prop :=
  ∀ c ∈ l, ∀ d ∈ l, c.proc = d.proc → ∀ j ∈ c.handles, ∀ k ∈ d.handles, j = k

variable {shm : Option Nat} {wal : Bytes}

section
variable {w : IndexWorld} {c : ShmConn} {p k : Nat}

theorem handleOf_some (h : w.handleOf p = some k) : ∃ c ∈ w.conns, c.proc = p ∧ k ∈ c.handles := by
  obtain ⟨c, hc, hk⟩ := exists_of_findSome?_eq_some h
  split at hk
  · rename_i hp
    exact ⟨c, hc, hp, mem_of_mem_head? hk⟩
  · cases hk

theorem handleOf_none (h : w.handleOf p = none) (hc : c ∈ w.conns) (hp : c.proc = p) : c.handles = [] := by
  have := List.findSome?_eq_none_iff.1 h c hc
  rw [if_pos hp] at this
  exact List.head?_eq_none_iff.1 this

/-- What `open_shm_shared` returns is the file of every handle there is. -/
theorem SameHandles.openShmShared (h : SameHandles w.conns) (ho : w.openShmShared p = some k)
    (hc : c ∈ w.conns) (hp : c.proc = p) : ∀ j ∈ c.handles, j = k := by
  intro j hj
  unfold IndexWorld.openShmShared at ho
  cases hh : w.handleOf p with
  | none =>
    rw [handleOf_none hh hc hp] at hj
    cases hj
  | some k' =>
    rw [hh, Option.some_or] at ho
    cases ho
    obtain ⟨d, hd, hdp, hk⟩ := handleOf_some hh
    exact h c hc d hd (hp.trans hdp.symm) j hj k hk

theorem SameHandles.cons {l : List ShmConn} (h : SameHandles l)
    (hk : ∀ j ∈ c.handles, ∀ d ∈ l, d.proc = c.proc → ∀ i ∈ d.handles, i = j)
    (hc : ∀ i ∈ c.handles, ∀ j ∈ c.handles, i = j) : SameHandles (c :: l) := by
  intro a ha b hb hab i hi j hj
  rcases mem_cons.1 ha with rfl | hal <;> rcases mem_cons.1 hb with rfl | hbl
  · exact hc i hi j hj
  · exact (hk i hi b hbl hab.symm j hj).symm
  · exact hk j hj a hal hab i hi
  · exact h a hal b hbl hab i hi j hj

/-- A handle after a connection has got a new one is an old one of its
process or the new one. -/
theorem mem_setShm {a : ShmConn} {j : Nat} (hc : c ∈ w.conns) (ha : a ∈ (w.setShm c shm).conns) (hj : j ∈ a.handles) :
    (∃ d ∈ w.conns, d.proc = a.proc ∧ j ∈ d.handles) ∨ (a.proc = c.proc ∧ shm = some j) := by
  obtain ⟨d, hd, rfl⟩ := mem_map.1 ha
  split at hj
  · rename_i hdc
    rw [if_pos hdc]
    rcases mem_append.1 hj with hj | hj
    · exact .inl ⟨c, hc, rfl, mem_append_left _ hj⟩
    · exact .inr ⟨rfl, Option.mem_toList.1 hj⟩
  · rename_i hdc
    rw [if_neg hdc]
    exact .inl ⟨d, hd, rfl, hj⟩

theorem SameHandles.setShm (h : SameHandles w.conns) (hc : c ∈ w.conns)
    (hk : ∀ k, shm = some k → ∀ d ∈ w.conns, d.proc = c.proc → ∀ j ∈ d.handles, j = k) :
    SameHandles (w.setShm c shm).conns := by
  intro a ha b hb hab i hi j hj
  rcases mem_setShm hc ha hi with ⟨d, hd, hda, hdi⟩ | ⟨hac, hi⟩ <;>
    rcases mem_setShm hc hb hj with ⟨e, he, heb, hej⟩ | ⟨hbc, hj⟩
  · exact h d hd e he (hda.trans (hab.trans heb.symm)) i hdi j hej
  · exact hk j hj d hd (hda.trans (hab.trans hbc)) i hdi
  · exact (hk i hi e he (heb.trans (hab.symm.trans hac)) j hej).symm
  · rw [hi] at hj
    exact Option.some.inj hj

theorem openWalShm_some (h : w.openWalShm p = some k) : w.openShmShared p = some k := by
  unfold IndexWorld.openWalShm at h
  split at h
  · exact h
  · cases h

theorem mem_setShm_self (hc : c ∈ w.conns) :
    ({ c with walShm := shm } : ShmConn) ∈ (w.setShm c shm).conns :=
  mem_map.2 ⟨c, hc, if_pos rfl⟩

theorem createShm_conns (w : IndexWorld) : w.createShm.conns = w.conns := by
  unfold IndexWorld.createShm
  split <;> rfl

theorem SameHandles.openHandle (h : SameHandles w.conns) (hc : c ∈ w.conns) :
    SameHandles (w.openHandle c).2.conns ∧ (w.openHandle c).1 ∈ (w.openHandle c).2.conns := by
  refine ⟨h.setShm hc fun k hk d hd hp => ?_, mem_setShm_self hc⟩
  cases hs : c.walShm with
  | none =>
    rw [hs] at hk
    exact h.openShmShared (openWalShm_some hk) hd hp
  | some k' =>
    rw [hs] at hk
    cases hk
    refine fun j hj => h d hd c hc hp j hj k ?_
    exact mem_append_right _ (by rw [hs]; exact mem_singleton.2 rfl)

theorem SameHandles.recreate (h : SameHandles w.conns) (hc : c ∈ w.conns) :
    SameHandles (w.recreate c).2.conns := by
  have hconns := createShm_conns w
  have h' : SameHandles w.createShm.conns := by rw [hconns]; exact h
  have hc' : c ∈ w.createShm.conns := by rw [hconns]; exact hc
  exact h'.setShm hc' fun k hk d hd hp => h'.openShmShared (openWalShm_some hk) hd hp

theorem publish_conns (w : IndexWorld) (c : ShmConn) (n : UInt32) : (w.publish c n).conns = w.conns := by
  unfold IndexWorld.publish
  split <;> rfl

theorem SameHandles.commit (h : SameHandles w.conns) (hc : c ∈ w.conns) (wal : WalWorld) (n : UInt32) :
    SameHandles (w.commit c wal n).conns := by
  obtain ⟨h1, hc1⟩ := h.openHandle hc
  simp only [IndexWorld.commit]
  rw [publish_conns]
  split
  · exact h1.recreate hc1
  · exact h1

/-! ## The file that is published to -/

/-- Every handle of process `p` is of the file at the path. -/
def HandlesCurrent (w : IndexWorld) (p : Nat) : Prop :=
  ∀ c ∈ w.conns, c.proc = p → ∀ j ∈ c.handles, w.path = some j

theorem SameHandles.current (h : SameHandles w.conns)
    (hp : ∀ k, w.handleOf p = some k → w.path = some k) : HandlesCurrent w p := by
  intro c hc hcp j hj
  cases hh : w.handleOf p with
  | none =>
    rw [handleOf_none hh hc hcp] at hj
    cases hj
  | some k =>
    rw [hp k hh, h.openShmShared (show w.openShmShared p = some k by
      rw [IndexWorld.openShmShared, hh, Option.some_or]) hc hcp j hj]

theorem HandlesCurrent.openWalShm (h : HandlesCurrent w p) (hw : w.wal.disk.walIndex = true) :
    w.openWalShm p = w.path := by
  unfold IndexWorld.openWalShm
  cases hpath : w.path with
  | none => rw [if_neg (by simp)]
  | some k =>
    rw [if_pos ⟨hw, rfl⟩, IndexWorld.openShmShared, hpath]
    cases hh : w.handleOf p with
    | none => rfl
    | some j =>
      obtain ⟨d, hd, hdp, hj⟩ := handleOf_some hh
      rw [Option.some_or, ← h d hd hdp j hj, hpath]

theorem HandlesCurrent.openHandle (h : HandlesCurrent w c.proc) (hw : w.wal.disk.walIndex = true)
    (hc : c ∈ w.conns) :
    (w.openHandle c).1.walShm = w.path ∧ HandlesCurrent (w.openHandle c).2 c.proc := by
  have hshm : (if c.walShm.isNone then w.openWalShm c.proc else c.walShm) = w.path := by
    cases hs : c.walShm with
    | none => exact h.openWalShm hw
    | some k =>
      exact (h c hc rfl k (mem_append_right _ (by rw [hs]; exact mem_singleton.2 rfl))).symm
  refine ⟨hshm, fun a ha hap j hj => ?_⟩
  rcases mem_setShm hc ha hj with ⟨d, hd, hda, hdj⟩ | ⟨-, hj⟩
  · exact h d hd (hda.trans hap) j hdj
  · exact hshm.symm.trans hj

theorem createShm_path (w : IndexWorld) :
    ∃ k, w.createShm.path = some k ∧ ∀ j, w.path = some j → j = k := by
  unfold IndexWorld.createShm
  split
  · rename_i k hk
    refine ⟨k, hk, fun j hj => ?_⟩
    rw [hk] at hj
    exact (Option.some.inj hj).symm
  · rename_i hn
    refine ⟨_, rfl, fun j hj => ?_⟩
    rw [hn] at hj
    cases hj

theorem createShm_wal (w : IndexWorld) : w.createShm.wal = w.wal := by
  unfold IndexWorld.createShm
  split <;> rfl

/-- A commit whose process has no other file open publishes to the file at
the path. -/
theorem commit_publishes (h : HandlesCurrent w c.proc) (hw : w.wal.disk.walIndex = true)
    (hc : c ∈ w.conns) (hexists : w.path.isSome = true ∨ w.wal.disk.wal.isNone = true) (wal : WalWorld)
    (n : UInt32) :
    ∃ k, (w.commit c wal n).path = some k ∧ (w.commit c wal n).mxFrame k = n := by
  obtain ⟨hshm, hcur⟩ := h.openHandle hw hc
  have hpub : ∀ (v : IndexWorld) (d : ShmConn) (k : Nat), v.path = some k → d.walShm = some k →
      ∃ k, (v.publish d n).path = some k ∧ (v.publish d n).mxFrame k = n := by
    intro v d k hpath hd
    unfold IndexWorld.publish
    rw [hd, Option.some_or]
    exact ⟨k, hpath, Function.update_self k n v.mxFrame⟩
  simp only [IndexWorld.commit]
  split
  · -- recreated: no handle is left but of the file at the path, if there is one
    obtain ⟨k, hk, hold⟩ := createShm_path (w.openHandle c).2
    have hcur' : HandlesCurrent (w.openHandle c).2.createShm c.proc := by
      intro d hd hdp j hj
      rw [createShm_conns] at hd
      rw [hk, hold j (hcur d hd hdp j hj)]
    have hopen : (w.openHandle c).2.createShm.openWalShm c.proc = some k := by
      rw [hcur'.openWalShm (by rw [createShm_wal]; exact hw), hk]
    exact hpub _ _ k hk hopen
  · rename_i hsome
    obtain ⟨k, hk⟩ := Option.isSome_iff_exists.1 (hexists.resolve_right hsome)
    exact hpub _ _ k hk (hshm.trans hk)

end

/-! ## The count -/

variable {h : WalHeader} {txn : List Frame} {w : IndexWorld} {nonce : UInt32} {salts : UInt32 × UInt32} {pager : Pager}

theorem frameCount_commitWriter (hc : ∀ f ∈ txn, f.content.length = h.pageSize.toNat)
    (hn : (frames h wal).length + txn.length < 2 ^ 32) :
    (hintFrameCount (commitWriter h wal txn).resumeHint).toNat = (frames h wal).length + txn.length := by
  have hpos := h.frameSize_pos
  have hoff : (lastValidFrameState h wal).1 = headerLen + (frames h wal).length * h.frameSize := by
    rw [lastValidFrameState_eq, endFrom_offset]
    rfl
  have hdiv : ((lastValidFrameState h wal).1 + txn.length * h.frameSize - headerLen) / max h.frameSize 1 =
      (frames h wal).length + txn.length := by
    rw [hoff, Nat.max_eq_left hpos, Nat.add_assoc, Nat.add_sub_cancel_left, ← Nat.add_mul,
      Nat.mul_div_cancel _ hpos]
  simp only [hintFrameCount, WalWriter.frameCount, WalWriter.resumeHint, commitWriter,
    encodeFrames_length _ hc, hdiv]
  rw [UInt32.toNat_ofNat', Nat.mod_eq_of_lt hn]

/-- The chain after a commit behind which no old frame fits. -/
theorem length_frames_commitBytes (hc : ∀ f ∈ txn, f.content.length = h.pageSize.toNat) (hl : headerLen ≤ wal.length)
    (htail : wal.length < (lastValidFrameState h wal).1 + (txn.length + 1) * h.frameSize) :
    (frames h (commitBytes h wal txn)).length = (frames h wal).length + txn.length := by
  have hnone : framesFrom h wal ((lastValidFrameState h wal).1 + txn.length * h.frameSize)
      (sumAfter h (lastValidFrameState h wal).2 txn) = [] := by
    refine (framesFrom_past_end _ ?_).1
    rw [Nat.succ_mul] at htail
    omega
  rw [commitBytes, (frames_writeAt hc hl).1, hnone, append_nil, length_append]

theorem length_commitFrames (count : UInt32) (ws : List (UInt32 × Bytes)) :
    (commitFrames count ws).length = ws.length := by
  have := congrArg List.length (writes_commitFrames count ws)
  rwa [writes, length_map] at this

/-- The count a commit publishes is the length of the chain it leaves. -/
theorem Appended.frameCount {s t : Conn} {hd : WalHeader} {count : UInt32}
    (h : Appended s t wal hd (commitFrames count s.pager.dirty.toList)) (hps : validPageSize s.pager.pageSize)
    (hpages : ∀ v ∈ s.pager.dirty.toList, v.2.length = s.pager.pageSize.toNat)
    (htail : tailFits s.disk.wal s.pager.dirty.toList.length = true) :
    WalHeader.parse (commitBytes hd wal (commitFrames count s.pager.dirty.toList)) = .ok hd ∧
      (hintFrameCount (commitWriter hd wal (commitFrames count s.pager.dirty.toList)).resumeHint).toNat =
        (frames hd (commitBytes hd wal (commitFrames count s.pager.dirty.toList))).length := by
  have hc : ∀ f ∈ commitFrames count s.pager.dirty.toList, f.content.length = hd.pageSize.toNat := by
    intro f hf
    rw [h.size]
    exact hpages _ (mem_commitFrames hf)
  have hlen := length_commitFrames count s.pager.dirty.toList
  have hboth : WalHeader.parse wal = .ok hd ∧
      (frames hd wal).length + s.pager.dirty.toList.length < 2 ^ 32 ∧
      wal.length < (lastValidFrameState hd wal).1 + (s.pager.dirty.toList.length + 1) * hd.frameSize := by
    rcases h.source with ⟨hsome, hp⟩ | ⟨salts, hnone, rfl, rfl⟩
    · simp only [tailFits, hsome, hp, Bool.and_eq_true, decide_eq_true_eq] at htail
      exact ⟨hp, htail⟩
    · simp only [tailFits, hnone, decide_eq_true_eq] at htail
      have hf := @frames_walOf (freshHeader s.pager.pageSize salts) [] (by simp)
      have hpos := (freshHeader s.pager.pageSize salts).frameSize_pos
      refine ⟨parse_walOf _ _ _ _ _ _ hps, by rw [hf.1]; simpa using htail, ?_⟩
      rw [walOf_length (by simp), hf.2]
      simp only [length_nil, Nat.zero_mul, Nat.add_zero, Nat.succ_mul]
      omega
  obtain ⟨hp, hn, ht⟩ := hboth
  refine ⟨parse_commitBytes _ hp, ?_⟩
  rw [frameCount_commitWriter hc (by rw [hlen]; exact hn),
    length_frames_commitBytes hc (parse_length hp) (by rw [hlen]; exact ht)]

/-! ## Runs -/

structure IndexInv (w : IndexWorld) : Prop where
  wal : WalWorldInv w.wal
  same : SameHandles w.conns
  exact : w.flushed = true → MxFrameExact w

/-- What `PublishesExact` says of a WAL commit. -/
theorem publishesExact_flush {i : Nat} {c : ShmConn} (h : PublishesExact w (.call i (.flush nonce salts)) = true)
    (hp : w.wal.conns i = some pager) (hc : w.conns.find? (·.id = i) = some c) (hcommits : pager.commitsWal = true) :
    w.wal.disk.walIndex = true ∧ pager.synchronous = .full ∧
      (∀ v ∈ pager.dirty.toList, v.2.length = pager.pageSize.toNat) ∧ validPageSize pager.pageSize ∧
      (∀ k, w.handleOf c.proc = some k → w.path = some k) ∧
      (w.path.isSome = true ∨ w.wal.disk.wal.isNone = true) ∧
      tailFits w.wal.disk.wal pager.dirty.toList.length = true := by
  simp only [PublishesExact, hp, hc, hcommits, Bool.not_true, Bool.false_or, Bool.and_eq_true,
    all_eq_true, decide_eq_true_eq, Bool.or_eq_true] at h
  obtain ⟨⟨⟨⟨⟨⟨h1, h2⟩, h3⟩, h4⟩, h5⟩, h6⟩, h7⟩ := h
  refine ⟨h1, h2, h3, h4, fun k hk => ?_, h6, h7⟩
  rw [hk] at h5
  simpa using h5

/-- A step under the condition is one of `walRuns` under its own. -/
theorem next_wal {w' : IndexWorld} {a : IndexAct} (h : w.next a = some w') (hs : PublishesExact w a = true) :
    w.wal.next a.toWal = some w'.wal ∧ (AtFull w.wal a.toWal && FullPages w.wal a.toWal) = true := by
  obtain ⟨wal, hwal, hnext⟩ := Option.bind_eq_some_iff.1 h
  have hw : w'.wal = wal := by
    cases a with
    | call i op =>
      simp only at hnext
      split at hnext
      · split at hnext
        · split at hnext
          · cases hnext
            split <;> rfl
          · cases hnext
        · cases hnext; rfl
      · cases hnext
    | _ => cases hnext; rfl
  refine ⟨hwal.trans (by rw [hw]), ?_⟩
  cases a with
  | call i op =>
    cases op with
    | flush nonce salts =>
      simp only at hnext
      split at hnext
      · rename_i pager c hp hc
        simp only [IndexAct.toWal, AtFull, FullPages, hp, Option.all_some]
        cases hcommits : pager.commitsWal with
        | false => rfl
        | true =>
          obtain ⟨-, hfull, hpages, -⟩ := publishesExact_flush hs hp hc hcommits
          simpa [hfull] using fun a b hab => hpages (a, b) hab
      · cases hnext
    | _ => rfl
  | _ => rfl

/-- A WAL commit that returned `Ok` leaves `mxFrame` exact. -/
theorem IndexInv.commit {wal : WalWorld} {i : Nat} {c : ShmConn} (hi : IndexInv w)
    (hs : PublishesExact w (.call i (.flush nonce salts)) = true) (hp : w.wal.conns i = some pager)
    (hc : w.conns.find? (·.id = i) = some c) (hcommits : pager.commitsWal = true)
    (hok : ((⟨w.wal.disk, pager⟩ : Conn).run (.flush nonce salts)).1 = true)
    (hnext : w.wal.next (.call i (.flush nonce salts)) = some wal) :
    MxFrameExact (w.commit c wal (wal.frameCount i)) := by
  obtain ⟨hindex, hfull, hpages, hps, hcur, hexists, htail⟩ := publishesExact_flush hs hp hc hcommits
  obtain ⟨pager', hp', -, -, rfl⟩ := next_call hnext
  rw [hp] at hp'
  cases hp'
  have hhint : ∀ x wal h, pager.walResume = some x → w.wal.disk.wal = some wal →
      WalHeader.parse wal = .ok h → HintOk h wal x ∧ x.header.pageSize = pager.pageSize :=
    fun x wal h hx hw hp' => ⟨(hi.wal.hint i pager x hp hx).chained wal h hw hp', (hi.wal.hint i pager x hp hx).size⟩
  rcases @run_appends ⟨w.wal.disk, pager⟩ (.flush nonce salts) rfl (fun _ _ => hfull) hhint with
    ⟨-, herr⟩ | ⟨-, -, wal, hd, count, ha⟩
  · rw [herr rfl hcommits] at hok
    cases hok
  · obtain ⟨hparse, hcount⟩ := ha.frameCount hps hpages htail
    obtain ⟨k, hk, hmx⟩ := commit_publishes (hi.same.current hcur) hindex (mem_of_find?_eq_some hc) hexists
      _ _
    refine ⟨k, _, hd, hk, ha.written, hparse, ?_⟩
    rw [hmx]
    simpa [WalWorld.frameCount, ha.resume] using hcount

theorem indexRuns_inductive : (indexRuns.restrict fun w a => PublishesExact w a = true).Inductive IndexInv where
  init w hw := by
    obtain ⟨hwal, -, hconns, hflushed⟩ := hw
    refine ⟨walRuns_inductive.init _ hwal, ?_, ?_⟩
    · rw [hconns]
      intro c hc
      cases hc
    · rw [hflushed]
      exact nofun
  step w a w' hi hs := by
    obtain ⟨hstep, hcond⟩ := hs
    have hwal := walRuns_inductive.step _ _ _ hi.wal (next_wal hstep hcond)
    obtain ⟨wal, hnext, hafter⟩ := Option.bind_eq_some_iff.1 hstep
    cases a with
    | join i p ps =>
      cases hafter
      refine ⟨hwal, hi.same.cons ?_ ?_, nofun⟩
      · intro j hj d hd hdp k hk
        have hj : w.claimWalReadLock p = some j := by simpa [ShmConn.handles] using hj
        unfold IndexWorld.claimWalReadLock at hj
        split at hj
        · exact hi.same.openShmShared hj hd hdp k hk
        · cases hj
      · intro j hj k hk
        have hj : w.claimWalReadLock p = some j := by simpa [ShmConn.handles] using hj
        have hk : w.claimWalReadLock p = some k := by simpa [ShmConn.handles] using hk
        rw [hj] at hk
        exact Option.some.inj hk
    | close i =>
      cases hafter
      refine ⟨hwal, fun c hc d hd => ?_, nofun⟩
      exact hi.same c (mem_of_mem_filter hc) d (mem_of_mem_filter hd)
    | vanish =>
      cases hafter
      exact ⟨hwal, hi.same, nofun⟩
    | call i op =>
      simp only at hafter
      split at hafter
      · rename_i pager c hp hc
        split at hafter
        · rename_i hf
          split at hafter
          · rename_i hok
            cases op with
            | flush nonce salts =>
              cases hafter
              cases hcommits : pager.commitsWal with
              | false =>
                rw [hcommits] at hwal
                exact ⟨hwal, hi.same, nofun⟩
              | true =>
                rw [hcommits] at hwal
                exact ⟨hwal, hi.same.commit (mem_of_find?_eq_some hc) _ _,
                  fun _ => hi.commit hcond hp hc hcommits hok hnext⟩
            | _ => cases hf
          · cases hafter
        · cases hafter
          exact ⟨hwal, hi.same, nofun⟩
      · cases hafter

/-- **`mxFrame` is exact**: in every run of any number of connections in any
number of processes in which each flush returns `Ok` and each WAL commit
meets `PublishesExact`, after every WAL commit `mxFrame` of the `-shm` file
at its path is the length of the chain of the `-wal` file at its path. -/
theorem published_mxFrame_exact (w : IndexWorld)
    (hreach : (indexRuns.restrict fun w a => PublishesExact w a = true).Reachable w)
    (hflushed : w.flushed = true) : MxFrameExact w :=
  (indexRuns_inductive.reachable w hreach).exact hflushed

/-! ## Two runs -/

/-- The files of `sharedWorld`, with a `-shm` file of no frames. -/
def sharedIndex : IndexWorld := ⟨sharedWorld, fun _ => 0, some 0, 1, [], false⟩

def indexRun (guard : IndexWorld → IndexAct → Bool) (acts : List IndexAct) : IndexWorld :=
  (LTS.follow IndexWorld.next guard acts sharedIndex).getD sharedIndex

theorem indexRun_reachable {guard : IndexWorld → IndexAct → Bool} {acts : List IndexAct}
    (h : (LTS.follow IndexWorld.next guard acts sharedIndex).isSome = true) :
    (indexRuns.restrict fun w a => guard w a = true).Reachable (indexRun guard acts) := by
  have hinit : indexRuns.init sharedIndex := by
    refine ⟨sharedWorld_init, fun k hk => ?_, rfl, rfl⟩
    cases hk
    decide
  exact LTS.Reachable.follow (fun _ _ _ hs => hs) ⟨sharedIndex, [], hinit, .nil _⟩ (LTS.followed_getD h)

/-- The files vanish under an open connection, which then commits. -/
def vanishedUnder : IndexWorld :=
  indexRun (fun _ _ => true)
    [.join 0 0 512, .call 0 (.editPage 1 editedPage), .vanish, .call 0 (.flush 0 (3, 4))]

/-- The new `-wal` file has a frame, the new `-shm` file has none: the commit
has published into the deleted one. -/
theorem stale_handle_publishes :
    ∃ w, indexRuns.Reachable w ∧ w.flushed = true ∧ w.path = some 1 ∧ w.mxFrame 1 = 0 ∧ w.mxFrame 0 = 1 ∧
      ∃ wal h, w.wal.disk.wal = some wal ∧ WalHeader.parse wal = .ok h ∧ (frames h wal).length = 1 := by
  refine ⟨vanishedUnder, (indexRun_reachable (by decide +kernel)).of_restrict, by decide +kernel,
    by decide +kernel, by decide +kernel, by decide +kernel, ?_⟩
  have hfacts : (vanishedUnder.wal.disk.wal.bind fun wal =>
      (WalHeader.parse wal).toOption.map fun h => (frames h wal).length) = some 1 := by decide +kernel
  obtain ⟨wal, hwal, hfacts⟩ := Option.bind_eq_some_iff.1 hfacts
  cases hp : WalHeader.parse wal with
  | error e => rw [hp] at hfacts; cases hfacts
  | ok h =>
    rw [hp] at hfacts
    exact ⟨wal, h, hwal, hp, Option.some.inj hfacts⟩

/-- The files vanish before the connection opens, so it holds no handle. -/
def vanishedBefore : IndexWorld :=
  indexRun PublishesExact
    [.vanish, .join 0 0 512, .call 0 (.editPage 1 editedPage), .call 0 (.flush 0 (3, 4))]

theorem recreated_mxFrame_exact : vanishedBefore.flushed = true ∧ MxFrameExact vanishedBefore := by
  have hflushed : vanishedBefore.flushed = true := by decide +kernel
  exact ⟨hflushed, published_mxFrame_exact vanishedBefore (indexRun_reachable (by decide +kernel)) hflushed⟩

end DbStorage.Pager
