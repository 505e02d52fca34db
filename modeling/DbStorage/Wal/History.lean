import DbStorage.Wal.Writer

/-!
# The history of a WAL file

A file created by `WalWriter::create` and extended by any sequence of
appended transactions, `sync`s and `open_existing` reopenings (with or
without a resume hint) holds the header and the frames of the synced
transactions, one behind the other (`WriterInv`). So `committed_pages` reads
their last-writer-wins map, and of a file cut behind its header the map of
the transactions whose commit frame survived the cut
(`committed_history`).
-/
namespace DbStorage.Wal
open Bytes Std List

/-! ## Transactions -/

/-- The pages one commit writes, in order, and the database size its last
frame declares. -/
structure Transaction (pageSize : UInt32) where
  pages : List (UInt32 × Bytes)
  dbSize : UInt32
  nonempty : pages ≠ []
  full : ∀ w ∈ pages, w.2.length = pageSize.toNat
  commits : dbSize ≠ 0

namespace Transaction
variable {ps : UInt32} (t : Transaction ps)

/-- The frames before the commit frame declare no size. -/
def body : List Frame := t.pages.dropLast.map fun w => ⟨w.1, 0, w.2⟩

def commitFrame : Frame := ⟨(t.pages.getLast t.nonempty).1, t.dbSize, (t.pages.getLast t.nonempty).2⟩

def frames : List Frame := t.body ++ [t.commitFrame]

theorem writes_frames : writes t.frames = t.pages := by
  conv_rhs => rw [← dropLast_append_getLast t.nonempty]
  simp [frames, body, commitFrame, writes, Function.comp_def]

theorem frames_full : ∀ f ∈ t.frames, f.content.length = ps.toNat := by
  intro f hf
  refine t.full (f.pageNumber, f.content) ?_
  rw [← t.writes_frames]
  exact mem_map_of_mem hf

theorem committed_frames : committed t.frames = t.frames := committed_concat_of_commit _ t.commits

/-- A transaction cut before its commit frame commits nothing. -/
theorem committed_take {k : Nat} (hk : k < t.frames.length) : committed (t.frames.take k) = [] := by
  have hb : t.frames.take k = t.body.take k := by
    rw [frames, take_append_of_le_length]
    simp only [frames, length_append, length_singleton] at hk
    omega
  rw [hb, committed, rdropWhile_eq_nil_iff]
  intro f hf
  obtain ⟨w, -, rfl⟩ := mem_map.1 (mem_of_mem_take hf)
  simp

end Transaction

/-- The frames of several transactions, one behind the other. -/
def allFrames {ps : UInt32} (ts : List (Transaction ps)) : List Frame := ts.flatMap (·.frames)

/-- The map the transactions leave when each overwrites the ones before it,
and the last size they declare. -/
def replay {ps : UInt32} (ts : List (Transaction ps)) : PageMap × UInt32 :=
  (overlay ∅ (ts.flatMap (·.pages)), (ts.getLast?.map (·.dbSize)).getD 0)

/-- The transactions, starting at offset `off`, whose commit frame ends at
or before byte `n`. -/
def wholeBefore {ps : UInt32} (h : WalHeader) (n : Nat) : Nat → List (Transaction ps) → List (Transaction ps)
  | _, [] => []
  | off, t :: ts =>
    let next := off + t.frames.length * h.frameSize
    if next ≤ n then t :: wholeBefore h n next ts else []

variable {n : Nat} {fs : List Frame}

section
variable {ps : UInt32} {ts : List (Transaction ps)}

theorem allFrames_cons (t : Transaction ps) : allFrames (t :: ts) = t.frames ++ allFrames ts := rfl

theorem allFrames_append (us : List (Transaction ps)) :
    allFrames (ts ++ us) = allFrames ts ++ allFrames us := flatMap_append

theorem allFrames_full {h : WalHeader} (hps : h.pageSize = ps) :
    ∀ f ∈ allFrames ts, f.content.length = h.pageSize.toNat := by
  intro f hf
  rw [hps]
  obtain ⟨t, -, hf⟩ := mem_flatMap.1 hf
  exact t.frames_full f hf

theorem committed_allFrames : committed (allFrames ts) = allFrames ts := by
  induction ts with
  | nil => rfl
  | cons t ts ih => rw [allFrames_cons, committed_append t.committed_frames, ih]

variable {h : WalHeader}

/-- What a reader finds in a file whose frames commit exactly `ts`. -/
theorem committedPages_of_frames {wal : Bytes} (hf : committed (frames h wal) = allFrames ts) :
    committedPages h wal = replay ts := by
  have hw : writes (allFrames ts) = ts.flatMap (·.pages) := by
    simp only [allFrames, writes, map_flatMap]
    exact flatMap_congr fun t _ => t.writes_frames
  have hl : ((allFrames ts).getLast?.map (·.dbSize)).getD 0 = (ts.getLast?.map (·.dbSize)).getD 0 := by
    rcases eq_nil_or_concat ts with rfl | ⟨us, u, rfl⟩
    · rfl
    · rw [concat_eq_append]
      have hu : allFrames (us ++ [u]) = allFrames us ++ u.body ++ [u.commitFrame] := by
        rw [allFrames_append, allFrames_cons, Transaction.frames]
        simp [allFrames]
      rw [hu]
      simp [Transaction.commitFrame]
  rw [committedPages_eq, lastSize, hf, hw, hl, replay]

/-- Cutting the frames of whole transactions after `k` frames keeps the
transactions whose commit frame is among them. -/
theorem committed_take_allFrames {k off : Nat} (hlo : off + k * h.frameSize ≤ n) (hhi : n < off + (k + 1) * h.frameSize) :
    committed ((allFrames ts).take k) = allFrames (wholeBefore h n off ts) := by
  have hpos := h.frameSize_pos
  induction ts generalizing off k with
  | nil => simp [allFrames, wholeBefore, committed]
  | cons t ts ih =>
    rw [allFrames_cons]
    by_cases hk : t.frames.length ≤ k
    · -- the commit frame of `t` is among the first `k`
      obtain ⟨m, rfl⟩ := Nat.exists_eq_add_of_le hk
      have hin : off + t.frames.length * h.frameSize ≤ n := by
        have := Nat.mul_le_mul_right h.frameSize hk
        omega
      have hrest := @ih m (off + t.frames.length * h.frameSize)
        (by rw [Nat.add_mul] at hlo; omega) (by rw [Nat.add_assoc, Nat.add_mul] at hhi; omega)
      rw [wholeBefore, if_pos hin, take_append, take_of_length_le hk,
        Nat.add_sub_cancel_left, committed_append t.committed_frames, hrest, allFrames_cons]
    · have hout : ¬ off + t.frames.length * h.frameSize ≤ n := by
        have : (k + 1) * h.frameSize ≤ _ := Nat.mul_le_mul_right h.frameSize (Nat.lt_of_not_le hk)
        omega
      rw [wholeBefore, if_neg hout, take_append_of_le_length (by omega),
        t.committed_take (by omega)]
      rfl

end

/-- Only whole frames survive a cut. -/
theorem frames_cut (h : WalHeader) (wal : Bytes) (hn : headerLen ≤ n) (hw : headerLen ≤ wal.length) :
    frames h (wal.take n) = (frames h wal).take ((n - headerLen) / h.frameSize) := by
  have hk : headerLen + (n - headerLen) / h.frameSize * h.frameSize ≤ n := by
    have := Nat.div_mul_le_self (n - headerLen) h.frameSize
    omega
  have hlen : (frames h (wal.take n)).length ≤ (n - headerLen) / h.frameSize := by
    refine (frames_length_le ?_).trans (Nat.div_le_div_right ?_)
    · rw [length_take]; omega
    · rw [length_take]; omega
  rw [← frames_take, ← take_of_length_le hlen, ← frames_take, take_take, Nat.min_eq_left hk]

/-! ## Writer sessions -/

/-- What a caller does with a WAL file after `create`. -/
inductive WriterOp (pageSize : UInt32) where
  /-- `append_frame` for every page of a transaction. -/
  | append (t : Transaction pageSize)
  /-- `sync`, after which the caller may keep `resume_hint`. -/
  | sync
  /-- Drop the writer and `open_existing`, with one of the kept hints or
  none. -/
  | reopen (hint : Option Nat)

/-- The file, its writer and the hints kept so far. -/
structure Session where
  file : Bytes
  writer : WalWriter
  hints : List WalResumeHint

namespace Session
variable {ps : UInt32}

/-- `WalWriter::create` on a path with a file or none. -/
def create (file : Option Bytes) (h : WalHeader) : Session :=
  let (file, writer) := WalWriter.create file h
  ⟨file, writer, []⟩

def step (s : Session) : WriterOp ps → Except WalError Session
  | .append t => .ok { s with writer := s.writer.appendFrames t.frames }
  | .sync =>
    let (file, writer) := s.writer.sync s.file
    .ok ⟨file, writer, s.hints ++ [writer.resumeHint]⟩
  | .reopen hint => do
    let writer ← WalWriter.openExisting (some s.file) ps (hint.bind (s.hints[·]?))
    .ok { s with writer }

def run (s : Session) : List (WriterOp ps) → Except WalError Session
  | [] => .ok s
  | op :: ops => do (← s.step op).run ops

end Session

/-- The transactions a sequence of calls writes to the file, when `buffered`
were appended before it: a reopening loses what was never synced. -/
def written {ps : UInt32} : List (Transaction ps) → List (WriterOp ps) → List (Transaction ps)
  | _, [] => []
  | buffered, .append t :: ops => written (buffered ++ [t]) ops
  | buffered, .sync :: ops => buffered ++ written [] ops
  | _, .reopen _ :: ops => written [] ops

/-- The writer of a file that holds the frames `fs`, with the frames `gs`
appended and not yet synced. -/
def writerOf (h : WalHeader) (fs gs : List Frame) : WalWriter :=
  ⟨h, sumAfter h h.headerChecksum (fs ++ gs), (walOf h (fs ++ gs)).length,
    if gs = [] then none else some (walOf h fs).length,
    encodeFrames h (sumAfter h h.headerChecksum fs) gs⟩

theorem encodeFrames_append (h : WalHeader) (r : Sum) (fs gs : List Frame) :
    encodeFrames h r (fs ++ gs) = encodeFrames h r fs ++ encodeFrames h (sumAfter h r fs) gs := by
  induction fs generalizing r with
  | nil => rfl
  | cons f fs ih => simp only [cons_append, encodeFrames, ih, append_assoc]; rfl

theorem walOf_append (h : WalHeader) (fs gs : List Frame) :
    walOf h (fs ++ gs) = walOf h fs ++ encodeFrames h (sumAfter h h.headerChecksum fs) gs := by
  rw [walOf, walOf, encodeFrames_append, append_assoc]

theorem sumAfter_append (h : WalHeader) (r : Sum) (fs gs : List Frame) :
    sumAfter h r (fs ++ gs) = sumAfter h (sumAfter h r fs) gs := foldl_append

theorem writerOf_appendFrames (h : WalHeader) (fs gs es : List Frame) :
    (writerOf h fs gs).appendFrames es = writerOf h fs (gs ++ es) := by
  rw [appendFrames_eq]
  simp only [writerOf, ← append_assoc fs gs es]
  rw [sumAfter_append h _ (fs ++ gs) es, walOf_append h (fs ++ gs) es, encodeFrames_append,
    sumAfter_append h _ fs gs]
  cases gs <;> cases es <;> simp

theorem writerOf_sync (h : WalHeader) (fs gs : List Frame) :
    (writerOf h fs gs).sync (walOf h fs) = (walOf h (fs ++ gs), writerOf h (fs ++ gs) []) := by
  by_cases hg : gs = []
  · subst hg
    simp [WalWriter.sync, writerOf]
  · simp only [WalWriter.sync, writerOf, if_neg hg, if_true, append_nil, encodeFrames]
    rw [walOf_append, writeAt_end]

theorem walOf_eq_commitBytes {h : WalHeader} (gs : List Frame) (hf : ∀ f ∈ fs, f.content.length = h.pageSize.toNat) :
    walOf h (fs ++ gs) = commitBytes h (walOf h fs) gs := by
  simp only [commitBytes, (frames_walOf hf).2, ← walOf_length hf, writeAt_end, walOf_append]

/-- The hint kept after a sync points at the end of the file. -/
theorem hintOk_writerOf {h : WalHeader} (hf : ∀ f ∈ fs, f.content.length = h.pageSize.toNat) :
    HintOk h (walOf h fs) (writerOf h fs []).resumeHint := by
  refine ⟨rfl, fun _ => ?_⟩
  have hpos := h.frameSize_pos
  simp only [WalWriter.resumeHint, writerOf, append_nil]
  rw [(frames_walOf hf).2, (framesFrom_past_end _ (by omega)).2, walOf_length hf]

/-- The file holds the synced transactions, the writer the buffered ones,
and every kept hint still points into the chain. -/
structure WriterInv {ps : UInt32} (h : WalHeader) (s : Session) (synced buffered : List (Transaction ps)) :
    Prop where
  file : s.file = walOf h (allFrames synced)
  writer : s.writer = writerOf h (allFrames synced) (allFrames buffered)
  hints : ∀ hint ∈ s.hints, HintOk h s.file hint

section
variable {ps : UInt32} {h : WalHeader} {s : Session} {synced buffered : List (Transaction ps)}

/-- The header covers a file that is no longer than it. -/
theorem writerInv_create {file : Option Bytes} (hfile : (file.getD []).length ≤ headerLen) :
    WriterInv h (Session.create file h) ([] : List (Transaction ps)) [] where
  file := by simpa [Session.create, WalWriter.create, walOf, allFrames, encodeFrames, writeAt] using hfile
  writer := by
    simp [Session.create, WalWriter.create, writerOf, walOf, allFrames, encodeFrames, sumAfter,
      serialize_length]
  hints := by simp [Session.create]

theorem WriterInv.append (hs : WriterInv h s synced buffered) (t : Transaction ps) :
    WriterInv h { s with writer := s.writer.appendFrames t.frames } synced (buffered ++ [t]) := by
  refine ⟨hs.file, ?_, hs.hints⟩
  simp only [hs.writer, writerOf_appendFrames, allFrames_append]
  simp [allFrames]

theorem WriterInv.sync (hs : WriterInv h s synced buffered) (hps : h.pageSize = ps)
    (hp : ∀ fs, WalHeader.parse (walOf h fs) = .ok h) :
    ∃ s', s.step (.sync : WriterOp ps) = .ok s' ∧ WriterInv h s' (synced ++ buffered) [] := by
  have hsync := writerOf_sync h (allFrames synced) (allFrames buffered)
  rw [← hs.file, ← hs.writer, ← allFrames_append] at hsync
  refine ⟨⟨_, _, _⟩, by simp only [Session.step, hsync]; rfl, rfl, rfl, ?_⟩
  show ∀ hint ∈ s.hints ++ _, HintOk h (walOf h (allFrames (synced ++ buffered))) hint
  intro hint hm
  rcases mem_append.1 hm with hm | hm
  · rw [allFrames_append, walOf_eq_commitBytes _ (allFrames_full hps), ← hs.file]
    exact (hs.hints hint hm).commit _ (hs.file ▸ hp _)
  · rw [mem_singleton.1 hm]
    exact hintOk_writerOf (allFrames_full hps)

theorem WriterInv.reopen (hs : WriterInv h s synced buffered) (hps : h.pageSize = ps)
    (hp : ∀ fs, WalHeader.parse (walOf h fs) = .ok h) (k : Option Nat) :
    ∃ s', s.step (.reopen k : WriterOp ps) = .ok s' ∧ WriterInv h s' synced [] := by
  have hopen := openExisting_ok (k.bind (s.hints[·]?)) (hs.file ▸ hp _ : WalHeader.parse s.file = .ok h)
    (by
      intro hint hk
      obtain ⟨i, -, hi⟩ := Option.bind_eq_some_iff.1 hk
      exact hs.hints hint (mem_of_getElem? hi))
  have hfull := @allFrames_full ps synced h hps
  rw [hps, hs.file, (frames_walOf hfull).2, ← walOf_length hfull, ← hs.file] at hopen
  refine ⟨{ s with writer := writerOf h (allFrames synced) [] }, ?_, hs.file, rfl, hs.hints⟩
  simp [Session.step, hopen, bind, Except.bind, writerOf, encodeFrames, ← hs.file]

/-- Every sequence of calls on a well-kept file succeeds and leaves it well
kept, with the synced transactions behind the old ones. -/
theorem WriterInv.run (hs : WriterInv h s synced buffered) (hps : h.pageSize = ps)
    (hp : ∀ fs, WalHeader.parse (walOf h fs) = .ok h) (ops : List (WriterOp ps)) :
    ∃ s' left, s.run ops = .ok s' ∧ WriterInv h s' (synced ++ written buffered ops) left := by
  induction ops generalizing s synced buffered with
  | nil => exact ⟨s, buffered, rfl, by simpa [written] using hs⟩
  | cons op ops ih =>
    cases op with
    | append t =>
      obtain ⟨s', left, hrun, hs'⟩ := ih (hs.append t)
      exact ⟨s', left, hrun, hs'⟩
    | sync =>
      obtain ⟨s₁, hstep, hs₁⟩ := hs.sync hps hp
      obtain ⟨s', left, hrun, hs'⟩ := ih hs₁
      refine ⟨s', left, by simp only [Session.run, hstep, bind, Except.bind, hrun], ?_⟩
      rwa [append_assoc] at hs'
    | reopen k =>
      obtain ⟨s₁, hstep, hs₁⟩ := hs.reopen hps hp k
      obtain ⟨s', left, hrun, hs'⟩ := ih hs₁
      exact ⟨s', left, by simp only [Session.run, hstep, bind, Except.bind, hrun], hs'⟩

/-- Reading a well-kept file, cut at any byte behind its header. -/
theorem WriterInv.committedPages_cut (hs : WriterInv h s synced buffered) (hps : h.pageSize = ps) (hn : headerLen ≤ n) :
    committedPages h (s.file.take n) = replay (wholeBefore h n headerLen synced) := by
  have hfull := @allFrames_full ps synced h hps
  have hpos := h.frameSize_pos
  refine committedPages_of_frames ?_
  rw [frames_cut h s.file hn (by rw [hs.file, walOf_length hfull]; omega), hs.file, (frames_walOf hfull).1]
  have hdiv := Nat.div_add_mod (n - headerLen) h.frameSize
  have hmod := Nat.mod_lt (n - headerLen) hpos
  rw [Nat.mul_comm] at hdiv
  exact committed_take_allFrames (by omega) (by rw [Nat.add_mul]; omega)

end

/-- **The history of a WAL file**: every sequence of appends, syncs and
reopenings after `create`, on no file or on one that ends within its header,
succeeds; `committed_pages` of the file is the
last-writer-wins map of the synced transactions with the last size they
declare, and of the file cut at any byte behind its header that of the
transactions whose commit frame lies before the cut. -/
theorem committed_history (native : Bool) (ps salt1 salt2 seq : UInt32) (hps : validPageSize ps) (file : Option Bytes)
    (hfile : (file.getD []).length ≤ headerLen) (ops : List (WriterOp ps)) :
    let h := WalHeader.new native ps salt1 salt2 seq
    ∃ s, (Session.create file h).run ops = .ok s ∧
      WalHeader.parse s.file = .ok h ∧
      committedPages h s.file = replay (written [] ops) ∧
      ∀ n, headerLen ≤ n →
        WalHeader.parse (s.file.take n) = .ok h ∧
        committedPages h (s.file.take n) = replay (wholeBefore h n headerLen (written [] ops)) := by
  intro h
  have hp : ∀ fs, WalHeader.parse (walOf h fs) = .ok h := fun fs =>
    parse_walOf native ps salt1 salt2 seq fs hps
  obtain ⟨s, left, hrun, hs⟩ := (@writerInv_create ps h file hfile).run rfl hp ops
  rw [nil_append] at hs
  have hparse : WalHeader.parse s.file = .ok h := hs.file ▸ hp _
  refine ⟨s, hrun, hparse, ?_, fun n hn => ⟨?_, hs.committedPages_cut rfl hn⟩⟩
  · have hframes := (frames_walOf (@allFrames_full ps (written [] ops) h rfl)).1
    refine committedPages_of_frames ?_
    rw [hs.file, hframes, committed_allFrames]
  · have hl := parse_length hparse
    rw [headerLen] at hn
    rw [← hparse]
    exact parse_congr (by rw [length_take]; omega) hl (slice_take _ (by omega))

def firstTxn : Transaction 512 where
  pages := [(2, List.replicate 512 3), (1, List.replicate 512 4)]
  dbSize := 2
  nonempty := cons_ne_nil _ _
  full := by decide +kernel
  commits := by decide

def secondTxn : Transaction 512 where
  pages := [(2, List.replicate 512 5)]
  dbSize := 3
  nonempty := cons_ne_nil _ _
  full := by decide +kernel
  commits := by decide

/-- Two transactions on a file of ten bytes with a reopening between them, and
one that is lost because it was never synced: the file holds the two, and cut one byte short
of the second commit only the first. -/
theorem history_of_two_commits :
    ∃ s, (Session.create (some (replicate 10 9)) header512).run
        [.append firstTxn, .sync, .reopen none, .append firstTxn, .reopen (some 0), .append secondTxn, .sync] =
          .ok s ∧
      committedPages header512 s.file = replay [firstTxn, secondTxn] ∧
      committedPages header512 (s.file.take 1639) = replay [firstTxn] := by
  obtain ⟨s, hrun, -, hmap, hcut⟩ := committed_history true 512 7 9 0 (by decide) (some (replicate 10 9)) (by decide)
    [.append firstTxn, .sync, .reopen none, .append firstTxn, .reopen (some 0), .append secondTxn, .sync]
  exact ⟨s, hrun, hmap, (hcut 1639 (by decide)).2⟩

end DbStorage.Wal
