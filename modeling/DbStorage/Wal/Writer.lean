import DbStorage.Wal.Chain

/-!
# Appending to a WAL (`WalWriter`)

The writer keeps the offset and running checksum it appends at and buffers
frames until `sync` writes them with one `write_at`. The file is passed
explicitly; a `write_at` behind the end of the file extends it.

Results: `appendTransaction_eq` (what a commit does to the file, whichever
way the writer was opened), `HintOk.commit` (resume hints stay valid while
the file only grows), `committed_commitBytes` (a commit appends its frames
to the chain), and `committedPages_commit_iff`: exactly when the committed map afterwards is
the one before, overlaid with the transaction. `open_existing` resumes
behind the last valid frame, not the last committed one, so a valid tail
that never committed is committed by the next transaction.
-/
namespace DbStorage.Wal
open Bytes Std List

/-- mirrors wal.rs:450-471; `scratch` is a reused buffer and
`file` is passed to the operations that touch it. -/
structure WalWriter where
  header : WalHeader
  running : Sum
  offset : Nat
  pendingOffset : Option Nat
  pending : Bytes
  deriving DecidableEq

/-- mirrors wal.rs:480-485 -/
structure WalResumeHint where
  header : WalHeader
  offset : Nat
  running : Sum
  expectedSize : Nat
  deriving DecidableEq

/-- Writes the header and starts behind it; `file` is the file's content, or
`none` when it does not exist yet.
mirrors wal.rs:489-501 -/
def WalWriter.create (file : Option Bytes) (header : WalHeader) : Bytes × WalWriter :=
  (writeAt (file.getD []) header.serialize 0,
    ⟨header, header.headerChecksum, headerLen, none, []⟩)

/-- mirrors wal.rs:509-544 -/
def WalWriter.appendFrame (w : WalWriter) (pageNum : UInt32) (pageData : Bytes)
    (commitDbSize : UInt32) : WalWriter :=
  let scratch := encodeFrame w.header w.running ⟨pageNum, commitDbSize, pageData⟩
  { w with
    pendingOffset := some (w.pendingOffset.getD w.offset)
    pending := w.pending ++ scratch
    running := w.header.frameSum w.running ⟨pageNum, commitDbSize, pageData⟩
    offset := w.offset + scratch.length }

/-- mirrors wal.rs:550-557 -/
def WalWriter.sync (w : WalWriter) (file : Bytes) : Bytes × WalWriter :=
  match w.pendingOffset with
  | some pendingOffset =>
    (writeAt file w.pending pendingOffset, { w with pendingOffset := none, pending := [] })
  | none => (file, w)

/-- The first 32 bytes parsed again, as the hint check reads them.
mirrors wal.rs:597-602 -/
def rereadHeader (file : Bytes) : Option WalHeader :=
  if (slice file 0 headerLen).length = headerLen then
    match WalHeader.parse (slice file 0 headerLen) with
    | .ok h => some h
    | .error _ => none
  else none

/-- The read-and-rescan part of `open_existing`.
mirrors wal.rs:617-638 -/
def WalWriter.openScan (bytes : Bytes) (pageSize : UInt32) : Except WalError WalWriter := do
  let header ← WalHeader.parse bytes
  if header.pageSize ≠ pageSize then .error (.invalidPageSize header.pageSize)
  else
    let (offset, running) := lastValidFrameState header bytes
    .ok ⟨header, running, offset, none, []⟩

/-- mirrors wal.rs:579-639 -/
def WalWriter.openExisting (file : Option Bytes) (pageSize : UInt32)
    (resumeHint : Option WalResumeHint) : Except WalError WalWriter :=
  match file with
  | none => .error .notFound
  | some bytes =>
    match resumeHint with
    | some hint =>
      if hint.expectedSize = bytes.length ∧ rereadHeader bytes = some hint.header then
        .ok ⟨hint.header, hint.running, hint.offset, none, []⟩
      else openScan bytes pageSize
    | none => openScan bytes pageSize

/-- mirrors wal.rs:649-656 -/
def WalWriter.resumeHint (w : WalWriter) : WalResumeHint :=
  ⟨w.header, w.offset, w.running, w.offset⟩

/-- mirrors wal.rs:667-672 -/
def WalWriter.frameCount (w : WalWriter) : UInt32 :=
  UInt32.ofNat ((w.offset - headerLen) / max w.header.frameSize 1)

/-- Appends the frames of one transaction. -/
def WalWriter.appendFrames (w : WalWriter) (txn : List Frame) : WalWriter :=
  txn.foldl (fun w f => w.appendFrame f.pageNumber f.content f.dbSize) w

/-- Open an existing file, append a transaction and sync: the file and the
writer afterwards. -/
def appendTransaction (wal : Bytes) (pageSize : UInt32) (resumeHint : Option WalResumeHint)
    (txn : List Frame) : Except WalError (Bytes × WalWriter) := do
  let w ← WalWriter.openExisting (some wal) pageSize resumeHint
  .ok ((w.appendFrames txn).sync wal)

/-! ## What the writer writes -/

theorem appendFrames_eq (w : WalWriter) (txn : List Frame) :
    w.appendFrames txn =
      { w with
        running := sumAfter w.header w.running txn
        offset := w.offset + (encodeFrames w.header w.running txn).length
        pendingOffset := if txn = [] then w.pendingOffset else some (w.pendingOffset.getD w.offset)
        pending := w.pending ++ encodeFrames w.header w.running txn } := by
  induction txn generalizing w with
  | nil => simp [WalWriter.appendFrames, sumAfter, encodeFrames]
  | cons f txn ih =>
    have e : w.appendFrames (f :: txn) =
        (w.appendFrame f.pageNumber f.content f.dbSize).appendFrames txn := rfl
    rw [e, ih]
    simp only [WalWriter.appendFrame, sumAfter, encodeFrames, foldl_cons, append_assoc,
      length_append, Nat.add_assoc, reduceCtorEq, if_false]
    split <;> simp

variable {txn : List Frame} {wal : Bytes} {h : WalHeader}

/-- A writer with nothing pending writes a transaction's frames at its
offset with one write. -/
theorem sync_appendFrames {w : WalWriter} (file : Bytes) (hw : w.pendingOffset = none) (hp : w.pending = [])
    (ht : txn ≠ []) :
    (w.appendFrames txn).sync file =
      (writeAt file (encodeFrames w.header w.running txn) w.offset,
        { w with
          running := sumAfter w.header w.running txn
          offset := w.offset + (encodeFrames w.header w.running txn).length }) := by
  rw [appendFrames_eq]
  simp only [WalWriter.sync, hw, hp, if_neg ht, Option.getD_none, nil_append]

theorem openScan_ok (hp : WalHeader.parse wal = .ok h) :
    WalWriter.openScan wal h.pageSize =
      .ok ⟨h, (lastValidFrameState h wal).2, (lastValidFrameState h wal).1, none, []⟩ := by
  simp only [WalWriter.openScan, hp, bind, Except.bind, ne_eq, not_true, if_false]

theorem openScan_parse {ps : UInt32} {w : WalWriter} (h : WalWriter.openScan wal ps = .ok w) :
    ∃ hd, WalHeader.parse wal = .ok hd ∧ hd.pageSize = ps := by
  unfold WalWriter.openScan at h
  cases hp : WalHeader.parse wal with
  | error e => rw [hp] at h; cases h
  | ok hd =>
    simp only [hp, bind, Except.bind] at h
    split at h
    · cases h
    · rename_i hs
      exact ⟨hd, rfl, not_not.1 hs⟩

/-- The bytes a transaction leaves in the file. -/
def commitBytes (h : WalHeader) (wal : Bytes) (txn : List Frame) : Bytes :=
  writeAt wal (encodeFrames h (lastValidFrameState h wal).2 txn) (lastValidFrameState h wal).1

/-- The chain starts behind the header, so no commit touches the header. -/
theorem parse_commitBytes (txn : List Frame) (hp : WalHeader.parse wal = .ok h) :
    WalHeader.parse (commitBytes h wal txn) = .ok h := by
  have hl := parse_length hp
  have hoff : headerLen ≤ (lastValidFrameState h wal).1 := by
    rw [lastValidFrameState_eq, endFrom_offset]; exact Nat.le_add_right _ _
  rw [headerLen] at hoff
  rw [← hp]
  refine parse_congr ?_ hl ?_
  · rw [commitBytes, writeAt_length]; omega
  · exact slice_writeAt_before _ _ _ _ _ (by omega) (by omega)

/-! ## Resume hints -/

/-- The chain of `wal` passes through the hint's offset with the hint's
running checksum. -/
def HintOk (h : WalHeader) (wal : Bytes) (hint : WalResumeHint) : Prop :=
  hint.offset = hint.expectedSize ∧
    (hint.header = h → lastValidFrameState h wal = endFrom h wal hint.offset hint.running)

theorem rereadHeader_eq (hp : WalHeader.parse wal = .ok h) : rereadHeader wal = some h := by
  have hl := parse_length hp
  have hs : (slice wal 0 headerLen).length = headerLen :=
    slice_length_of_le (by rw [headerLen]; omega)
  have hq : WalHeader.parse (slice wal 0 headerLen) = .ok h := by
    rw [← hp]
    refine parse_congr (by rw [hs, headerLen]) hl ?_
    rw [slice_slice _ _ _ _ _ (by rw [headerLen])]
  rw [rereadHeader, if_pos hs, hq]

theorem rereadHeader_parse (hr : rereadHeader wal = some h) : WalHeader.parse wal = .ok h := by
  unfold rereadHeader at hr
  split at hr
  · rename_i hl
    have h32 : 32 ≤ wal.length := by rw [slice_length, headerLen] at hl; omega
    split at hr
    · rename_i hp
      cases hr
      rw [← hp]
      exact parse_congr h32 (Nat.le_of_eq hl.symm) (by rw [slice_slice _ _ _ _ _ (by rw [headerLen])])
    · cases hr
  · cases hr
/-- Both paths of `open_existing` resume where the chain ends. -/
theorem openExisting_ok (hint : Option WalResumeHint) (hp : WalHeader.parse wal = .ok h)
    (hh : ∀ x, hint = some x → HintOk h wal x) :
    WalWriter.openExisting (some wal) h.pageSize hint =
      .ok ⟨h, (lastValidFrameState h wal).2, (lastValidFrameState h wal).1, none, []⟩ := by
  cases hint with
  | none => exact openScan_ok hp
  | some hint =>
    obtain ⟨hoff, hend⟩ := hh hint rfl
    simp only [WalWriter.openExisting, rereadHeader_eq hp, Option.some.injEq]
    split
    · rename_i hm
      have he : lastValidFrameState h wal = (hint.offset, hint.running) := by
        rw [hend hm.2.symm]
        exact (framesFrom_past_end _ (by have := h.frameSize_pos; omega)).2
      rw [he, ← hm.2]
    · exact openScan_ok hp

/-- A commit keeps every hint: the chain only grows. -/
theorem HintOk.commit {hint : WalResumeHint} (txn : List Frame) (hp : WalHeader.parse wal = .ok h)
    (hh : HintOk h wal hint) : HintOk h (commitBytes h wal txn) hint := by
  refine ⟨hh.1, fun he => ?_⟩
  have hl : headerLen ≤ wal.length := parse_length hp
  have hend := hh.2 he
  have hel : (lastValidFrameState h wal).1 ≤ wal.length := endFrom_le h wal _ _ hl
  have hlen : (lastValidFrameState h wal).1 ≤ (commitBytes h wal txn).length := by
    rw [commitBytes, writeAt_length]; omega
  have hsame : ∀ o, o + h.frameSize ≤ (lastValidFrameState h wal).1 →
      slice (commitBytes h wal txn) o h.frameSize = slice wal o h.frameSize := fun o ho =>
    slice_writeAt_before _ _ _ _ _ ho (by omega)
  have h1 := (@chain_congr_before h wal (commitBytes h wal txn) headerLen h.headerChecksum
    hlen hsame).2
  have h2 := (@chain_congr_before h wal (commitBytes h wal txn) hint.offset hint.running
    (by rw [← hend]; exact hlen) (by rw [← hend]; exact hsame)).2
  rw [← hend] at h2
  exact h1.trans h2.symm

/-- The writer after a commit. -/
def commitWriter (h : WalHeader) (wal : Bytes) (txn : List Frame) : WalWriter :=
  ⟨h, sumAfter h (lastValidFrameState h wal).2 txn,
    (lastValidFrameState h wal).1 + (encodeFrames h (lastValidFrameState h wal).2 txn).length, none, []⟩

/-- What a commit leaves, whichever path `open_existing` took. -/
theorem appendTransaction_eq {hint : Option WalResumeHint} (hp : WalHeader.parse wal = .ok h)
    (hh : ∀ x, hint = some x → HintOk h wal x) (ht : txn ≠ []) :
    appendTransaction wal h.pageSize hint txn =
      .ok (commitBytes h wal txn, commitWriter h wal txn) := by
  simp only [appendTransaction, openExisting_ok hint hp hh, bind, Except.bind]
  rw [sync_appendFrames wal rfl rfl ht]
  rfl

theorem hintOk_commitWriter (hl : headerLen ≤ wal.length) (hc : ∀ f ∈ txn, f.content.length = h.pageSize.toNat) :
    HintOk h (commitBytes h wal txn) (commitWriter h wal txn).resumeHint := by
  refine ⟨rfl, fun _ => ?_⟩
  simp only [WalWriter.resumeHint, commitWriter, encodeFrames_length _ hc]
  exact (frames_writeAt hc hl).2

/-! ## What a commit publishes -/

/-- The valid frames behind the last commit frame: a transaction that never
wrote its commit frame. -/
def abandoned (fs : List Frame) : List Frame := fs.rtakeWhile fun f => f.dbSize = 0

theorem committed_append_abandoned (fs : List Frame) : committed fs ++ abandoned fs = fs := by
  induction fs using List.reverseRecOn with
  | nil => rfl
  | append_singleton fs f ih =>
    by_cases hf : f.dbSize = 0
    · rw [committed_concat_of_not_commit _ hf, abandoned, rtakeWhile_concat_pos _ _ _ (by simpa),
        ← append_assoc]
      exact congrArg (· ++ [f]) ih
    · rw [committed_concat_of_commit _ hf, abandoned, rtakeWhile_concat_neg _ _ _ (by simpa),
        append_nil]

/-- The frames of the old file that continue the chain behind an appended
transaction, as far as they are committed. -/
def revived (h : WalHeader) (wal : Bytes) (txn : List Frame) : List Frame :=
  let e := lastValidFrameState h wal
  committed (framesFrom h wal (e.1 + txn.length * h.frameSize) (sumAfter h e.2 txn))

theorem committed_commitBytes {last : Frame} (hp : WalHeader.parse wal = .ok h)
    (hc : ∀ f ∈ txn, f.content.length = h.pageSize.toNat) (hlast : txn.getLast? = some last) (hsize : last.dbSize ≠ 0) :
    committed (frames h (commitBytes h wal txn)) = frames h wal ++ txn ++ revived h wal txn := by
  have hcommit : committed (frames h wal ++ txn) = frames h wal ++ txn := by
    obtain ⟨ini, rfl⟩ := List.getLast?_eq_some_iff.1 hlast
    rw [← append_assoc, committed_concat_of_commit _ hsize]
  rw [commitBytes, (frames_writeAt hc (parse_length hp)).1, committed_append hcommit]
  rfl

/-- No page reads something else than the transaction and the committed map
under it: where an old frame behind the appended ones chains on, it repeats
what the page holds, and elsewhere an abandoned frame of a page the
transaction leaves alone repeats the committed content. -/
def ResumesClean (h : WalHeader) (wal : Bytes) (txn : List Frame) : Prop :=
  ∀ p : UInt32,
    let old := lastWrite (writes (committed (frames h wal))) p
    let new := lastWrite (writes txn) p
    match lastWrite (writes (revived h wal txn)) p with
    | some c => new.or old = some c
    | none => new = none → ∀ c, lastWrite (writes (abandoned (frames h wal))) p = some c → old = some c

/-- Four layers of one page read as the two that should be visible. -/
theorem layers_eq_iff (revived new tail old : Option Bytes) :
    revived.or (new.or (tail.or old)) = new.or old ↔
      match revived with
      | some c => new.or old = some c
      | none => new = none → ∀ c, tail = some c → old = some c := by
  cases revived with
  | some c => exact eq_comm
  | none => cases new <;> cases tail <;> simp [eq_comm]

/-- What a commit leaves is the old map overlaid with the transaction
exactly when it resumes clean. -/
theorem committedPages_commitBytes_iff {last : Frame} (hp : WalHeader.parse wal = .ok h)
    (hc : ∀ f ∈ txn, f.content.length = h.pageSize.toNat) (hlast : txn.getLast? = some last) (hsize : last.dbSize ≠ 0) :
    (committedPages h (commitBytes h wal txn)).1 = overlay (committedPages h wal).1 (writes txn) ↔
      ResumesClean h wal txn := by
  rw [committedPages_eq, committedPages_eq, committed_commitBytes hp hc hlast hsize]
  nth_rewrite 1 [← committed_append_abandoned (frames h wal)]
  have hp : ∀ p : UInt32, _ := fun p => layers_eq_iff (lastWrite (writes (revived h wal txn)) p)
    (lastWrite (writes txn) p) (lastWrite (writes (abandoned (frames h wal))) p)
    (lastWrite (writes (committed (frames h wal))) p)
  constructor
  · intro heq p
    refine (hp p).1 ?_
    simpa only [getElem?_overlay, writes_append, lastWrite_append, ExtTreeMap.getElem?_empty,
      Option.or_none] using congrArg (·[p]?) heq
  · intro hclean
    apply ExtTreeMap.ext_getElem?
    intro p
    simpa only [getElem?_overlay, writes_append, lastWrite_append, ExtTreeMap.getElem?_empty,
      Option.or_none] using (hp p).2 (hclean p)

/-- **Appending a transaction**: opening a file, appending the frames of a
transaction (one page each, the last one a commit frame) and syncing
succeeds and keeps the header; the committed map is then the old one
overlaid with the transaction exactly when `ResumesClean`. -/
theorem committedPages_commit_iff (wal : Bytes) (h : WalHeader) (txn : List Frame) (last : Frame)
    (hp : WalHeader.parse wal = .ok h) (hc : ∀ f ∈ txn, f.content.length = h.pageSize.toNat)
    (hlast : txn.getLast? = some last) (hsize : last.dbSize ≠ 0) :
    ∃ wal' w, appendTransaction wal h.pageSize none txn = .ok (wal', w) ∧
      WalHeader.parse wal' = .ok h ∧
      ((committedPages h wal').1 = overlay (committedPages h wal).1 (writes txn) ↔
        ResumesClean h wal txn) := by
  have hne : txn ≠ [] := by rintro rfl; cases hlast
  exact ⟨commitBytes h wal txn, _, appendTransaction_eq hp (by simp) hne, parse_commitBytes txn hp,
    committedPages_commitBytes_iff hp hc hlast hsize⟩

/-! ## Files with known frames -/

/-- The file that holds a header and the frames `fs`, as `create` and
`sync` leave it. -/
def walOf (h : WalHeader) (fs : List Frame) : Bytes :=
  h.serialize ++ encodeFrames h h.headerChecksum fs

theorem walOf_length {fs : List Frame} (hf : ∀ f ∈ fs, f.content.length = h.pageSize.toNat) :
    (walOf h fs).length = headerLen + fs.length * h.frameSize := by
  rw [walOf, length_append, serialize_length, encodeFrames_length _ hf]

theorem frames_walOf {fs : List Frame} (hf : ∀ f ∈ fs, f.content.length = h.pageSize.toNat) :
    frames h (walOf h fs) = fs ∧
      lastValidFrameState h (walOf h fs) =
        (headerLen + fs.length * h.frameSize, sumAfter h h.headerChecksum fs) := by
  have hl := walOf_length hf
  have hs : slice (walOf h fs) headerLen (fs.length * h.frameSize) =
      encodeFrames h h.headerChecksum fs := by
    rw [walOf, slice_append_right _ _ _ _ (by rw [serialize_length]), serialize_length,
      Nat.sub_self, ← encodeFrames_length h.headerChecksum hf, slice_self_length]
  have ht := chain_through headerLen h.headerChecksum hf (Nat.le_of_eq hl.symm) hs
  have hpos := h.frameSize_pos
  have hend := @framesFrom_past_end h (walOf h fs) (headerLen + fs.length * h.frameSize)
    (sumAfter h h.headerChecksum fs) (by omega)
  rw [hend.1, hend.2, append_nil] at ht
  exact ht

theorem parse_walOf (native : Bool) (ps s1 s2 seq : UInt32) (fs : List Frame)
    (hps : validPageSize ps) :
    WalHeader.parse (walOf (WalHeader.new native ps s1 s2 seq) fs) =
      .ok (WalHeader.new native ps s1 s2 seq) := by
  rw [← parse_serialize native ps s1 s2 seq hps]
  have hl : (WalHeader.new native ps s1 s2 seq).serialize.length = 32 := serialize_length _
  refine parse_congr ?_ (by omega) ?_
  · rw [walOf, length_append]; omega
  · exact slice_append_left _ _ _ _ (by omega)

/-- A file of committed frames only has no tail to revive. -/
theorem resumesClean_walOf {fs : List Frame} (hf : ∀ f ∈ fs, f.content.length = h.pageSize.toNat)
    (hc : committed fs = fs) (txn : List Frame) : ResumesClean h (walOf h fs) txn := by
  have hframes := frames_walOf hf
  have hrev : revived h (walOf h fs) txn = [] := by
    simp only [revived, hframes.2]
    rw [(framesFrom_past_end _ (by rw [walOf_length hf]; have := h.frameSize_pos; omega)).1]
    rfl
  have hab : abandoned fs = [] := by
    have happ := committed_append_abandoned fs
    rw [hc] at happ
    exact append_right_eq_self.1 happ
  intro p
  simp only [hrev, hframes.1, hab]
  intro _ c hc
  cases hc

/-! ## An abandoned transaction

A file whose only frame writes page 2 and never committed, and a
transaction that writes page 1: page 2 is committed with it. -/

def header512 : WalHeader := WalHeader.new true 512 7 9 0

def abandonedFrame : Frame := ⟨2, 0, List.replicate 512 5⟩

def nextTxn : List Frame := [⟨1, 1, List.replicate 512 6⟩]

theorem abandonedFrame_page : ∀ f ∈ [abandonedFrame], f.content.length = header512.pageSize.toNat := by
  intro f hf
  rw [mem_singleton.1 hf]
  exact length_replicate

theorem nextTxn_page : ∀ f ∈ nextTxn, f.content.length = header512.pageSize.toNat := by
  intro f hf
  rw [mem_singleton.1 hf]
  exact length_replicate

theorem parse_abandoned : WalHeader.parse (walOf header512 [abandonedFrame]) = .ok header512 :=
  parse_walOf _ _ _ _ _ _ (by decide)

/-- **Counterexample**: page 2 was in no committed transaction, neither
before nor in the appended one, and is in the committed map afterwards. -/
theorem abandoned_frame_committed :
    WalHeader.parse (walOf header512 [abandonedFrame]) = .ok header512 ∧
      ∃ wal' w,
        appendTransaction (walOf header512 [abandonedFrame]) header512.pageSize none nextTxn =
          .ok (wal', w) ∧
        (committedPages header512 wal').1 ≠
          overlay (committedPages header512 (walOf header512 [abandonedFrame])).1 (writes nextTxn) := by
  refine ⟨parse_abandoned, _, _,
    appendTransaction_eq parse_abandoned (by simp) (cons_ne_nil _ _), ?_⟩
  intro heq
  have h2 := congrArg (·[(2 : UInt32)]?) heq
  rw [committedPages_eq, committedPages_eq, committed_commitBytes parse_abandoned nextTxn_page rfl
    (by decide), (frames_walOf abandonedFrame_page).1] at h2
  simp only [getElem?_overlay, writes_append, lastWrite_append] at h2
  have hc : committed [abandonedFrame] = [] := committed_concat_of_not_commit [] rfl
  have hn : lastWrite (writes nextTxn) 2 = none := rfl
  have ha : lastWrite (writes [abandonedFrame]) 2 = some (List.replicate 512 5) := rfl
  rw [hc, hn, ha] at h2
  cases hr : lastWrite (writes (revived header512 (walOf header512 [abandonedFrame]) nextTxn)) 2 with
  | none => rw [hr] at h2; cases h2
  | some c => rw [hr] at h2; cases h2

/-- A commit of page 2. -/
def pageTwoTxn : List Frame := [⟨2, 2, List.replicate 512 5⟩]

theorem pageTwoTxn_page : ∀ f ∈ pageTwoTxn, f.content.length = header512.pageSize.toNat := by
  intro f hf
  rw [mem_singleton.1 hf]
  exact length_replicate

/-- A file with a commit and nothing behind it meets the condition. -/
theorem commit_after_clean_file :
    ∃ wal' w, appendTransaction (walOf header512 pageTwoTxn) header512.pageSize none nextTxn = .ok (wal', w) ∧
      (committedPages header512 wal').1 =
        overlay (committedPages header512 (walOf header512 pageTwoTxn)).1 (writes nextTxn) := by
  obtain ⟨wal', w, ho, -, hiff⟩ := committedPages_commit_iff (walOf header512 pageTwoTxn) header512 nextTxn
    ⟨1, 1, List.replicate 512 6⟩ (parse_walOf _ _ _ _ _ _ (by decide)) nextTxn_page rfl (by decide)
  refine ⟨wal', w, ho, hiff.2 (resumesClean_walOf ?_ ?_ nextTxn)⟩
  · exact pageTwoTxn_page
  · exact committed_concat_of_commit [] (by decide : (2 : UInt32) ≠ 0)

end DbStorage.Wal
