import DbStorage.Core.LTS
import DbStorage.Vfs.PageFile
import DbStorage.Wal.Writer

/-!
# Passive checkpoints (`pager/checkpoint.rs`)

A pass copies the committed pages of the WAL into the main file, as far as
the active reader marks allow, and publishes in the wal-index how many
frames it has backfilled (`nBackfill`). A pass that cannot move that mark
forward copies nothing.

The system `backfill` runs commits and passes over one WAL file of any
content with a valid header. Results: `pass_copies` (what a pass that
copies leaves in the main file), and `checkpoint_complete_holds`: in every
run whose commits leave more whole frames in the file than the published
mark, a pass that reports completion leaves a main file that holds every
committed page. `stale_tail_skipped` shows a commit over a stale tail that
no later pass copies.
-/
namespace DbStorage.Wal
open Bytes Std Vfs

/-- mirrors checkpoint.rs:27-37 -/
structure CheckpointResult where
  backfilledFrames : UInt32
  totalFrames : UInt32
  checkpointComplete : Bool
  deriving DecidableEq

/-- mirrors checkpoint.rs:49-54 -/
def pageCountFromSize (size : Nat) (pageSize : UInt32) : UInt32 :=
  let n := (size + (pageSize.toNat - 1)) / max pageSize.toNat 1
  if n < 2 ^ 32 then UInt32.ofNat n else 0

/-- Whole frames by file length, as a `u32`.
mirrors checkpoint.rs:105-110 -/
def totalFrames (h : WalHeader) (wal : Bytes) : UInt32 :=
  UInt32.ofNat ((wal.length - headerLen) / max h.frameSize 1)

/-- mirrors checkpoint.rs:125-131 -/
def safeFrame (marks : List UInt32) (total : UInt32) : UInt32 :=
  min ((marks.filter (0 < ·)).min?.getD total) total

/-- The pages a pass copies, ascending by page number.
mirrors checkpoint.rs:154-181 -/
def backfillPages (h : WalHeader) (wal : Bytes) (safe : UInt32) (mainSize : Nat) :
    List (UInt32 × Bytes) :=
  let boundary := wal.take (headerLen + safe.toNat * h.frameSize)
  let (pages, dbSize) := committedPages h boundary
  let maxPage := max dbSize (pageCountFromSize mainSize h.pageSize)
  pages.toList.filter fun w => !(w.1 == 0 || w.1 > maxPage)

/-- What a pass does once it has read the WAL: return at once, or copy pages
and publish the mark. -/
inductive Pass where
  | done (result : CheckpointResult)
  | copy (pages : List (UInt32 × Bytes)) (safe : UInt32) (result : CheckpointResult)
  deriving DecidableEq

/-- mirrors checkpoint.rs:110-192 -/
def planPass (h : WalHeader) (wal : Bytes) (marks : List UInt32) (alreadyBackfilled : UInt32)
    (mainSize : Nat) : Pass :=
  let total := totalFrames h wal
  if total = 0 then .done ⟨0, 0, true⟩
  else
    let safe := safeFrame marks total
    if safe = 0 then .done ⟨0, total, false⟩
    else if safe ≤ alreadyBackfilled then
      .done ⟨alreadyBackfilled, total, alreadyBackfilled == total⟩
    else .copy (backfillPages h wal safe mainSize) safe ⟨safe, total, safe == total⟩

/-- One pass: its result, the main file and the published mark. `nBackfill`
is `none` on a backend without a wal-index, which reads 0 and publishes
nothing.
mirrors checkpoint.rs:59-192 -/
def checkpointPassive (main : Bytes) (wal : Option Bytes) (marks : List UInt32)
    (nBackfill : Option UInt32) (expectedPageSize : UInt32) :
    Except WalError (CheckpointResult × Bytes × Option UInt32) :=
  match wal with
  | none => .ok (⟨0, 0, true⟩, main, nBackfill)
  | some wal =>
    if wal.length < headerLen then .ok (⟨0, 0, true⟩, main, nBackfill)
    else do
      let h ← WalHeader.parse wal
      if h.pageSize ≠ expectedPageSize then .error (.invalidPageSize h.pageSize)
      else match planPass h wal marks (nBackfill.getD 0) main.length with
        | .done r => .ok (r, main, nBackfill)
        | .copy pages safe r => .ok (r, writePages main h.pageSize pages, nBackfill.map fun _ => safe)

/-! ## One pass -/

theorem not_gt_max {a b x : UInt32} (h : x ≤ a) : ¬ x > max a b := by
  show ¬ (if a ≤ b then b else a) < x
  split <;> rw [UInt32.lt_iff_toNat_lt] <;> simp only [UInt32.le_iff_toNat_le] at * <;> omega

/-- `main` holds the pages of `m`, and elsewhere what `main₀` held. -/
structure Holds (pageSize : UInt32) (main₀ main : Bytes) (m : PageMap) : Prop where
  page : ∀ p c, m[p]? = some c → readPage main pageSize p = .ok c
  other : ∀ p c, m[p]? = none → readPage main₀ pageSize p = .ok c → readPage main pageSize p = .ok c

/-- The committed frames name pages of the committed database. -/
def PagesInRange (h : WalHeader) (wal : Bytes) : Prop :=
  ∀ f ∈ committed (frames h wal), f.pageNumber ≠ 0 ∧ f.pageNumber ≤ lastSize (frames h wal)

variable {h : WalHeader} {wal main₀ : Bytes} {safe : UInt32} {txn : List Frame}

theorem totalFrames_toNat (hs : slots h wal < 2 ^ 32) : (totalFrames h wal).toNat = slots h wal := by
  have e : max h.frameSize 1 = h.frameSize := Nat.max_eq_left h.frameSize_pos
  rw [totalFrames, e, ← slots, UInt32.toNat_ofNat', Nat.mod_eq_of_lt hs]

theorem committedPages_getElem? (h : WalHeader) (wal : Bytes) (p : UInt32) :
    (committedPages h wal).1[p]? = lastWrite (writes (committed (frames h wal))) p := by
  rw [committedPages_eq]
  simp only [getElem?_overlay, ExtTreeMap.getElem?_empty, Option.or_none]

theorem mem_committed_of_lastWrite {p : UInt32} {c : Bytes}
    (hl : lastWrite (writes (committed (frames h wal))) p = some c) :
    ∃ f ∈ committed (frames h wal), f.pageNumber = p ∧ f.content = c := by
  have hm := mem_of_lastWrite hl
  obtain ⟨f, hf, he⟩ := List.mem_map.1 hm
  exact ⟨f, hf, congrArg Prod.fst he, congrArg Prod.snd he⟩

/-- Every page a pass copies is a page of its committed map, of one page size. -/
theorem mem_backfillPages {n : Nat} {w : UInt32 × Bytes} (hw : w ∈ backfillPages h wal safe n) :
    w.1 ≠ 0 ∧ w.2.length = h.pageSize.toNat ∧
      (committedPages h (wal.take (headerLen + safe.toNat * h.frameSize))).1[w.1]? = some w.2 := by
  simp only [backfillPages, List.mem_filter] at hw
  obtain ⟨hm, hc⟩ := hw
  have hg := ExtTreeMap.mem_toList_iff_getElem?_eq_some.1 hm
  have h0 : w.1 ≠ 0 := by
    intro h0
    rw [h0] at hc
    simp at hc
  refine ⟨h0, ?_, hg⟩
  rw [committedPages_getElem?] at hg
  obtain ⟨f, hf, -, he⟩ := mem_committed_of_lastWrite hg
  rw [← he]
  exact mem_framesFrom_length _ _ ((committed_isPrefix _).subset hf)

/-- A pass that may copy all frames copies every committed page. -/
theorem lastWrite_backfillPages (n : Nat) (p : UInt32) (hl : headerLen ≤ wal.length) (hr : PagesInRange h wal)
    (hs : slots h wal ≤ safe.toNat) : lastWrite (backfillPages h wal safe n) p = (committedPages h wal).1[p]? := by
  have hfr : frames h (wal.take (headerLen + safe.toNat * h.frameSize)) = frames h wal := by
    rw [frames_take, List.take_of_length_le (Nat.le_trans (frames_length_le hl) hs)]
  have hcp : committedPages h (wal.take (headerLen + safe.toNat * h.frameSize)) =
      committedPages h wal := by rw [committedPages_eq, committedPages_eq, hfr]
  simp only [backfillPages, hcp]
  cases hp : (committedPages h wal).1[p]? with
  | none =>
    rw [lastWrite_eq_none]
    rintro w hw rfl
    have := ExtTreeMap.mem_toList_iff_getElem?_eq_some.1 (List.mem_filter.1 hw).1
    rw [hp] at this
    cases this
  | some c =>
    have hmem : ∃ f ∈ committed (frames h wal), f.pageNumber = p ∧ f.content = c := by
      rw [committedPages_getElem?] at hp
      exact mem_committed_of_lastWrite hp
    obtain ⟨f, hf, rfl, -⟩ := hmem
    obtain ⟨h0, hle⟩ := hr f hf
    have hsize : (committedPages h wal).2 = lastSize (frames h wal) := by rw [committedPages_eq]
    rw [lastWrite_filter (fun q => !(q == 0 || q > max (committedPages h wal).2
      (pageCountFromSize n h.pageSize))), lastWrite_toList, hp]
    have hmax : ¬ f.pageNumber > max (committedPages h wal).2 (pageCountFromSize n h.pageSize) := by
      rw [hsize]
      exact not_gt_max hle
    simp [h0, hmax]

/-- A pass that copies all frames leaves every committed page in the main file. -/
theorem pass_copies {main : Bytes} (hp : WalHeader.parse wal = .ok h) (hr : PagesInRange h wal)
    (hs : slots h wal ≤ safe.toNat)
    (hk : ∀ p c, (committedPages h wal).1[p]? = none → readPage main₀ h.pageSize p = .ok c → readPage main h.pageSize p = .ok c) :
    Holds h.pageSize main₀ (writePages main h.pageSize (backfillPages h wal safe main.length))
      (committedPages h wal).1 := by
  have hpages : ∀ w ∈ backfillPages h wal safe main.length, w.1 ≠ 0 ∧ w.2.length = h.pageSize.toNat :=
    fun w hw => ⟨(mem_backfillPages hw).1, (mem_backfillPages hw).2.1⟩
  have hw := fun p => readPage_writePages main p (parse_pageSize hp).pos hpages
  simp only [lastWrite_backfillPages main.length _ (parse_length hp) hr hs] at hw
  constructor
  · intro p c hc
    have := hw p
    rwa [hc] at this
  · intro p c hc h0
    have := hw p
    rw [hc] at this
    exact this c (hk p c hc h0)

/-! ## Commits and passes -/

/-- One WAL and its main file: the resume hints commits have handed out, and
the result when the last operation was a pass. -/
structure Backfill where
  main : Bytes
  wal : Bytes
  nBackfill : Option UInt32
  hints : List WalResumeHint
  result : Option CheckpointResult

inductive BackfillOp where
  | commit (hint : Option WalResumeHint) (txn : List Frame)
  | pass

/-- Commits (with a hint an earlier commit handed out, or without one) and
passes that find no active reader, over a WAL with header `h`. -/
def backfill (h : WalHeader) (main₀ : Bytes) : LTS Backfill BackfillOp where
  init s := s.main = main₀ ∧ WalHeader.parse s.wal = .ok h ∧ PagesInRange h s.wal ∧
    s.nBackfill.getD 0 = 0 ∧ s.hints = [] ∧ s.result = none
  step s op s' := match op with
    | .commit hint txn =>
      (∀ x, hint = some x → x ∈ s.hints) ∧ txn ≠ [] ∧
        (∀ f ∈ txn, f.content.length = h.pageSize.toNat) ∧
        ∃ wal' w, appendTransaction s.wal h.pageSize hint txn = .ok (wal', w) ∧
          PagesInRange h wal' ∧
          s' = { s with wal := wal', hints := w.resumeHint :: s.hints, result := none }
    | .pass =>
      ∃ r main' n, checkpointPassive s.main (some s.wal) [] s.nBackfill h.pageSize =
          .ok (r, main', n) ∧
        s' = { s with main := main', nBackfill := n, result := some r }

/-- A commit leaves more whole frames in the file than are marked as
backfilled; a pass can count the whole frames in 32 bits. -/
def PastBackfill (h : WalHeader) (s : Backfill) : BackfillOp → Prop
  | .commit _ txn =>
    (s.nBackfill.getD 0).toNat < max (slots h s.wal) ((frames h s.wal).length + txn.length)
  | .pass => slots h s.wal < 2 ^ 32

structure BackfillInv (h : WalHeader) (main₀ : Bytes) (s : Backfill) : Prop where
  parse : WalHeader.parse s.wal = .ok h
  range : PagesInRange h s.wal
  hints : ∀ x ∈ s.hints, HintOk h s.wal x
  /-- Only committed pages are ever written. -/
  kept : ∀ p c, (committedPages h s.wal).1[p]? = none → readPage main₀ h.pageSize p = .ok c →
    readPage s.main h.pageSize p = .ok c
  /-- The mark reaches the end of the file only when nothing is left to copy. -/
  current : (s.nBackfill.getD 0).toNat = slots h s.wal →
    Holds h.pageSize main₀ s.main (committedPages h s.wal).1
  complete : ∀ r, s.result = some r → r.checkpointComplete = true →
    Holds h.pageSize main₀ s.main (committedPages h s.wal).1

theorem slots_commitBytes (hc : ∀ f ∈ txn, f.content.length = h.pageSize.toNat) :
    slots h (commitBytes h wal txn) = max (slots h wal) ((frames h wal).length + txn.length) := by
  have hpos := h.frameSize_pos
  have he : (lastValidFrameState h wal).1 = headerLen + (frames h wal).length * h.frameSize :=
    endFrom_offset h wal _ _
  rw [slots, commitBytes, writeAt_length, encodeFrames_length _ hc, he, slots]
  have h1 : headerLen + (frames h wal).length * h.frameSize + txn.length * h.frameSize - headerLen =
      ((frames h wal).length + txn.length) * h.frameSize := by rw [Nat.add_mul]; omega
  have h2 : max wal.length (headerLen + (frames h wal).length * h.frameSize +
      txn.length * h.frameSize) - headerLen =
      max (wal.length - headerLen) (((frames h wal).length + txn.length) * h.frameSize) := by
    rw [← h1]; omega
  rw [h2]
  rcases Nat.le_total (wal.length - headerLen) (((frames h wal).length + txn.length) * h.frameSize)
    with hle | hle
  · have : (wal.length - headerLen) / h.frameSize ≤ (frames h wal).length + txn.length := by
      rw [← Nat.mul_div_cancel ((frames h wal).length + txn.length) hpos]
      exact Nat.div_le_div_right hle
    rw [Nat.max_eq_right hle, Nat.mul_div_cancel _ hpos, Nat.max_eq_right this]
  · have : (frames h wal).length + txn.length ≤ (wal.length - headerLen) / h.frameSize := by
      rw [Nat.le_div_iff_mul_le hpos]; exact hle
    rw [Nat.max_eq_left hle, Nat.max_eq_left this]

/-- A page with no committed frame after a commit had none before. -/
theorem committedPages_commitBytes_none {p : UInt32} (hp : WalHeader.parse wal = .ok h)
    (hc : ∀ f ∈ txn, f.content.length = h.pageSize.toNat) (hn : (committedPages h (commitBytes h wal txn)).1[p]? = none) :
    (committedPages h wal).1[p]? = none := by
  rw [committedPages_getElem?, lastWrite_eq_none] at hn ⊢
  intro w hw
  refine hn w ?_
  rw [commitBytes, (frames_writeAt hc (parse_length hp)).1, List.append_assoc]
  exact (List.IsPrefix.map _ (committed_mono _ _)).subset hw

theorem BackfillInv.commit {s s' : Backfill} {hint : Option WalResumeHint} (hi : BackfillInv h main₀ s)
    (hs : (backfill h main₀).step s (.commit hint txn) s') (hc : PastBackfill h s (.commit hint txn)) :
    BackfillInv h main₀ s' := by
  obtain ⟨hh, hne, hlen, wal', w, happ, hrange, rfl⟩ := hs
  rw [appendTransaction_eq hi.parse (fun x hx => hi.hints x (hh x hx)) hne] at happ
  cases happ
  constructor
  · exact parse_commitBytes txn hi.parse
  · exact hrange
  · intro x hx
    rcases List.mem_cons.1 hx with rfl | hx
    · exact hintOk_commitWriter (parse_length hi.parse) hlen
    · exact (hi.hints x hx).commit txn hi.parse
  · exact fun p c hp => hi.kept p c (committedPages_commitBytes_none hi.parse hlen hp)
  · intro heq
    rw [slots_commitBytes hlen] at heq
    exact absurd heq (Nat.ne_of_lt hc)
  · intro r hr; cases hr

theorem planPass_copy {marks : List UInt32} {already : UInt32} {n : Nat} {pages : List (UInt32 × Bytes)}
    {r : CheckpointResult} (hp : planPass h wal marks already n = .copy pages safe r) :
    pages = backfillPages h wal safe n ∧ safe = safeFrame marks (totalFrames h wal) := by
  simp only [planPass] at hp
  split at hp
  · cases hp
  · split at hp
    · cases hp
    · split at hp <;> cases hp
      exact ⟨rfl, rfl⟩

/-- What a pass without reader marks does: report completion only when there
is no frame or the mark is at the end, or copy all frames. -/
theorem planPass_nil (h : WalHeader) (wal : Bytes) (already : UInt32) (n : Nat)
    (hs : slots h wal < 2 ^ 32) :
    (∃ r, planPass h wal [] already n = .done r ∧
        (r.checkpointComplete = true → slots h wal = 0 ∨ already.toNat = slots h wal)) ∨
      ∃ safe r, planPass h wal [] already n = .copy (backfillPages h wal safe n) safe r ∧
        safe.toNat = slots h wal := by
  have htot := totalFrames_toNat hs
  have hsafe : safeFrame [] (totalFrames h wal) = totalFrames h wal := by
    simp only [safeFrame, List.filter_nil, List.min?_nil, Option.getD_none]
    show (if _ ≤ _ then _ else _) = _
    split <;> rfl
  simp only [planPass, hsafe]
  split
  · rename_i h0
    exact .inl ⟨_, rfl, fun _ => .inl (by rw [← htot, h0]; rfl)⟩
  · split
    · refine .inl ⟨_, rfl, fun hc => .inr ?_⟩
      rw [← htot, eq_of_beq hc]
    · exact .inr ⟨_, _, rfl, htot⟩

theorem BackfillInv.pass {s s' : Backfill} (hi : BackfillInv h main₀ s) (hs : (backfill h main₀).step s .pass s')
    (hc : PastBackfill h s .pass) : BackfillInv h main₀ s' := by
  obtain ⟨r, main', n, hck, rfl⟩ := hs
  have hl : ¬ s.wal.length < headerLen := Nat.not_lt.2 (parse_length hi.parse)
  simp only [checkpointPassive, if_neg hl, hi.parse, bind, Except.bind, ne_eq, not_true,
    if_false] at hck
  rcases planPass_nil h s.wal (s.nBackfill.getD 0) s.main.length hc with
    ⟨r', hplan, hcomp⟩ | ⟨safe, r', hplan, hsafe⟩
  · -- nothing is copied
    rw [hplan] at hck
    cases hck
    refine ⟨hi.parse, hi.range, hi.hints, hi.kept, hi.current, fun r hr hcompl => ?_⟩
    cases hr
    rcases hcomp hcompl with h0 | hnb
    · have hnil : frames h s.wal = [] :=
        List.length_eq_zero_iff.1 (Nat.le_zero.1 (h0 ▸ frames_length_le (Nat.le_of_not_lt hl)))
      refine ⟨fun p c hp => ?_, hi.kept⟩
      rw [committedPages_getElem?, hnil] at hp
      cases hp
    · exact hi.current hnb
  · rw [hplan] at hck
    cases hck
    have hholds := pass_copies hi.parse hi.range (Nat.le_of_eq hsafe.symm) hi.kept
    exact ⟨hi.parse, hi.range, hi.hints, hholds.other, fun _ => hholds, fun _ _ _ => hholds⟩

theorem backfill_inductive (h : WalHeader) (main₀ : Bytes) :
    ((backfill h main₀).restrict (PastBackfill h)).Inductive (BackfillInv h main₀) where
  init s hs := by
    obtain ⟨rfl, hp, hr, hn, hh, hres⟩ := hs
    refine ⟨hp, hr, by simp [hh], fun _ _ _ hc => hc, fun hnb => ?_, by simp [hres]⟩
    have hnil : frames h s.wal = [] := by
      have hl : headerLen ≤ s.wal.length := parse_length hp
      have := frames_length_le (h := h) hl
      rw [← hnb, hn] at this
      exact List.length_eq_zero_iff.1 (Nat.le_zero.1 this)
    refine ⟨fun p c hc => ?_, fun _ _ _ hc => hc⟩
    rw [committedPages_getElem?, hnil] at hc
    cases hc
  step s op s' hi hs := by
    cases op with
    | commit hint txn => exact hi.commit hs.1 hs.2
    | pass => exact hi.pass hs.1 hs.2

/-- **Complete means copied**: over a WAL of any content with a valid header,
in every run of commits and passes in which each commit leaves more whole
frames than the published mark (and the frames can be counted in 32 bits), a
pass that reports completion leaves a main file that holds the content of
the latest committed frame of every page, and for a page without one what
the main file held at the start. -/
theorem checkpoint_complete_holds (h : WalHeader) (main₀ : Bytes) (s : Backfill) (r : CheckpointResult)
    (hreach : ((backfill h main₀).restrict (PastBackfill h)).Reachable s)
    (hres : s.result = some r) (hcomplete : r.checkpointComplete = true) :
    Holds h.pageSize main₀ s.main (committedPages h s.wal).1 :=
  ((backfill_inductive h main₀).reachable s hreach).complete r hres hcomplete

/-! ## A commit over a stale tail

The file has room for one whole frame, left by another generation. The
first pass counts it by the file's length and publishes 1; the commit then
writes its only frame into that room, and every later pass finds the mark
at the end of the file. -/

def staleWal : Bytes := header512.serialize ++ List.replicate 536 0

def zeroMain : Bytes := List.replicate 512 0

def afterStalePass : Backfill := ⟨zeroMain, staleWal, some 1, [], some ⟨1, 1, true⟩⟩

def afterStaleCommit : Backfill :=
  { afterStalePass with
    wal := commitBytes header512 staleWal nextTxn
    hints := [(commitWriter header512 staleWal nextTxn).resumeHint]
    result := none }

theorem stale_commit_step :
    (backfill header512 zeroMain).step afterStalePass (.commit none nextTxn) afterStaleCommit := by
  refine ⟨by simp, List.cons_ne_nil _ _, nextTxn_page, commitBytes header512 staleWal nextTxn,
    commitWriter header512 staleWal nextTxn, by decide +kernel, ?_, rfl⟩
  unfold PagesInRange
  decide +kernel

/-- **Counterexample**: after a pass, a commit and a pass that reports
completion, page 1 of the main file is not the committed one. -/
theorem stale_tail_skipped :
    ∃ s r, (backfill header512 zeroMain).Reachable s ∧ s.result = some r ∧
      r.checkpointComplete = true ∧
      ¬ Holds 512 zeroMain s.main (committedPages header512 s.wal).1 := by
  refine ⟨{ afterStaleCommit with result := some ⟨1, 1, true⟩ }, ⟨1, 1, true⟩,
    ⟨⟨zeroMain, staleWal, some 0, [], none⟩, [.pass, .commit none nextTxn, .pass], ?_,
      .cons ?_ (.cons stale_commit_step (.cons ?_ (.nil _)))⟩, rfl, rfl, ?_⟩
  · refine ⟨rfl, by decide +kernel, ?_, rfl, rfl, rfl⟩
    unfold PagesInRange
    decide +kernel
  · exact ⟨⟨1, 1, true⟩, zeroMain, some 1, by decide +kernel, rfl⟩
  · exact ⟨⟨1, 1, true⟩, zeroMain, some 1, by decide +kernel, rfl⟩
  · intro hh
    have hc : (committedPages header512 afterStaleCommit.wal).1[(1 : UInt32)]? =
        some (List.replicate 512 6) := by decide +kernel
    exact absurd (hh.page 1 _ hc) (by decide +kernel)

/-! A commit and a pass over a WAL without frames meet the condition. -/

def freshCommitted : Backfill :=
  ⟨zeroMain, commitBytes header512 (walOf header512 []) nextTxn, some 0,
    [(commitWriter header512 (walOf header512 []) nextTxn).resumeHint], none⟩

def freshCopied : Backfill :=
  { freshCommitted with
    main := writePages zeroMain 512 [(1, List.replicate 512 6)]
    nBackfill := some 1
    result := some ⟨1, 1, true⟩ }

theorem fresh_commit_step :
    (backfill header512 zeroMain).step ⟨zeroMain, walOf header512 [], some 0, [], none⟩
      (.commit none nextTxn) freshCommitted := by
  refine ⟨by simp, List.cons_ne_nil _ _, nextTxn_page, _, _, by decide +kernel, ?_, rfl⟩
  unfold PagesInRange
  decide +kernel

theorem fresh_reachable :
    ((backfill header512 zeroMain).restrict (PastBackfill header512)).Reachable freshCopied := by
  refine ⟨⟨zeroMain, walOf header512 [], some 0, [], none⟩, [.commit none nextTxn, .pass], ?_,
    .cons ⟨fresh_commit_step, ?_⟩ (.cons ⟨?_, ?_⟩ (.nil _))⟩
  · refine ⟨rfl, by decide +kernel, ?_, rfl, rfl, rfl⟩
    unfold PagesInRange
    decide +kernel
  · unfold PastBackfill; decide +kernel
  · exact ⟨⟨1, 1, true⟩, _, some 1, by decide +kernel, rfl⟩
  · unfold PastBackfill; decide +kernel

theorem checkpoint_complete_fresh :
    freshCopied.result = some ⟨1, 1, true⟩ ∧
      Holds header512.pageSize zeroMain freshCopied.main
        (committedPages header512 freshCopied.wal).1 :=
  ⟨rfl, checkpoint_complete_holds header512 zeroMain freshCopied ⟨1, 1, true⟩ fresh_reachable rfl rfl⟩

end DbStorage.Wal
