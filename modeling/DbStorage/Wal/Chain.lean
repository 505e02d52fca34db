import DbStorage.Core.Overlay
import DbStorage.Wal.Format

/-!
# The frame chain (`committed_pages`, `last_valid_frame_state`)

Both walks of `pager/wal.rs` follow one chain of frames from the
header on. `framesFrom` is that chain as a list, `endFrom` the offset and
running checksum behind it. `committed` cuts the chain after its last
commit frame.

Results: `committedPages_eq` (the undo-log loop computes the overlay of the
committed frames, and the database size of the last of them),
and `frames_writeAt` (frames written where the chain ends extend it).
-/
namespace DbStorage.Wal
open Bytes Std List

/-- A running checksum. -/
abbrev Sum := UInt32 × UInt32

/-- Page contents by page number (`HashMap<u32, Vec<u8>>`). -/
abbrev PageMap := ExtTreeMap UInt32 Bytes

/-! ## The two walks -/

/-- The loop's locals: the live page map, the undo log (newest first) and
the last commit's database size. -/
structure Walk where
  pages : PageMap
  undo : List (UInt32 × Option Bytes)
  committedDbSize : UInt32

/-- One accepted frame.
mirrors wal.rs:357-363 -/
def Walk.frame (s : Walk) (f : Frame) : Walk :=
  let preImage := s.pages[f.pageNumber]?
  let pages := s.pages.insert f.pageNumber f.content
  if f.dbSize ≠ 0 then ⟨pages, [], f.dbSize⟩
  else ⟨pages, (f.pageNumber, preImage) :: s.undo, s.committedDbSize⟩

/-- The `while` loop of `committed_pages`; every iteration consumes a frame,
so `wal.length` rounds are enough (`framesFrom_eq`).
mirrors wal.rs:317-366 -/
def walk (h : WalHeader) (wal : Bytes) : Nat → Nat → Sum → Walk → Walk
  | 0, _, _, s => s
  | n + 1, offset, running, s =>
    match nextFrame h wal offset running with
    | none => s
    | some (f, running) => walk h wal n (offset + h.frameSize) running (s.frame f)

/-- Rolls the uncommitted tail back, newest insert first.
mirrors wal.rs:371-380 -/
def unwind : PageMap → List (UInt32 × Option Bytes) → PageMap
  | pages, [] => pages
  | pages, (pageNumber, some content) :: undo => unwind (pages.insert pageNumber content) undo
  | pages, (pageNumber, none) :: undo => unwind (pages.erase pageNumber) undo

/-- mirrors wal.rs:304-383 -/
def committedPages (h : WalHeader) (wal : Bytes) : PageMap × UInt32 :=
  let s := walk h wal wal.length headerLen h.headerChecksum ⟨∅, [], 0⟩
  (unwind s.pages s.undo, s.committedDbSize)

/-- The `while` loop of `last_valid_frame_state`.
mirrors wal.rs:407-439 -/
def lastValidLoop (h : WalHeader) (wal : Bytes) : Nat → Nat → Sum → Nat × Sum
  | 0, offset, running => (offset, running)
  | n + 1, offset, running =>
    match nextFrame h wal offset running with
    | none => (offset, running)
    | some (_, running) => lastValidLoop h wal n (offset + h.frameSize) running

/-- mirrors wal.rs:402-442 -/
def lastValidFrameState (h : WalHeader) (wal : Bytes) : Nat × Sum :=
  lastValidLoop h wal wal.length headerLen h.headerChecksum

/-! ## The chain -/

/-- At most `n` frames of the chain from `offset` on. -/
def chain (h : WalHeader) (wal : Bytes) : Nat → Nat → Sum → List Frame
  | 0, _, _ => []
  | n + 1, offset, running =>
    match nextFrame h wal offset running with
    | none => []
    | some (f, running) => f :: chain h wal n (offset + h.frameSize) running

/-- The chain from `offset` on. -/
def framesFrom (h : WalHeader) (wal : Bytes) (offset : Nat) (running : Sum) : List Frame :=
  chain h wal wal.length offset running

/-- Where the chain from `offset` on ends. -/
def endFrom (h : WalHeader) (wal : Bytes) (offset : Nat) (running : Sum) : Nat × Sum :=
  lastValidLoop h wal wal.length offset running

/-- The valid frames of a file. -/
def frames (h : WalHeader) (wal : Bytes) : List Frame := framesFrom h wal headerLen h.headerChecksum

variable {h : WalHeader} {wal w : Bytes} {f : Frame} {fs : List Frame}

theorem chain_fuel {n m off : Nat} {r : Sum} (hn : wal.length - off ≤ n) (hm : wal.length - off ≤ m) :
    chain h wal n off r = chain h wal m off r ∧
      lastValidLoop h wal n off r = lastValidLoop h wal m off r := by
  induction n generalizing m off r with
  | zero =>
    cases m with
    | zero => exact ⟨rfl, rfl⟩
    | succ m =>
      have hnone : nextFrame h wal off r = none := by
        rw [nextFrame_eq, if_neg]; have := h.frameSize_pos; omega
      simp only [chain, lastValidLoop, hnone, and_self]
  | succ n ih =>
    cases m with
    | zero =>
      have hnone : nextFrame h wal off r = none := by
        rw [nextFrame_eq, if_neg]; have := h.frameSize_pos; omega
      simp only [chain, lastValidLoop, hnone, and_self]
    | succ m =>
      simp only [chain, lastValidLoop]
      have := h.frameSize_pos
      cases hx : nextFrame h wal off r with
      | none => exact ⟨rfl, rfl⟩
      | some p =>
        have ih := @ih m (off + h.frameSize) p.2 (by omega) (by omega)
        exact ⟨congrArg (p.1 :: ·) ih.1, ih.2⟩

/-- The chain's unfolding equation, with no bound on the rounds. -/
theorem framesFrom_eq (h : WalHeader) (wal : Bytes) (off : Nat) (r : Sum) :
    framesFrom h wal off r = match nextFrame h wal off r with
      | none => []
      | some (f, r) => f :: framesFrom h wal (off + h.frameSize) r := by
  have hf : framesFrom h wal off r = chain h wal (wal.length + 1) off r :=
    (chain_fuel (by omega) (by omega)).1
  rw [hf, chain]
  rfl

theorem endFrom_eq (h : WalHeader) (wal : Bytes) (off : Nat) (r : Sum) :
    endFrom h wal off r = match nextFrame h wal off r with
      | none => (off, r)
      | some (_, r) => endFrom h wal (off + h.frameSize) r := by
  have hf : endFrom h wal off r = lastValidLoop h wal (wal.length + 1) off r :=
    (chain_fuel (by omega) (by omega)).2
  rw [hf, lastValidLoop]
  rfl

theorem chain_induction {motive : Nat → Sum → Prop} (stop : ∀ off r, nextFrame h w off r = none → motive off r)
    (next : ∀ off r f r', nextFrame h w off r = some (f, r') → motive (off + h.frameSize) r' → motive off r) (off : Nat)
    (r : Sum) : motive off r := by
  induction hn : w.length - off using Nat.strong_induction_on generalizing off r with
  | _ n ih =>
    cases hx : nextFrame h w off r with
    | none => exact stop off r hx
    | some p =>
      obtain ⟨f, r'⟩ := p
      have hl := (nextFrame_content_length hx).1
      have := h.frameSize_pos
      exact next off r f r' hx (ih _ (by omega) _ _ rfl)

theorem endFrom_offset (h : WalHeader) (wal : Bytes) (off : Nat) (r : Sum) :
    (endFrom h wal off r).1 = off + (framesFrom h wal off r).length * h.frameSize := by
  induction off, r using chain_induction (h := h) (w := wal) with
  | stop off r hx => rw [endFrom_eq, framesFrom_eq, hx]; simp
  | next off r f r' hx ih =>
    rw [endFrom_eq, framesFrom_eq, hx]
    simp only [ih, length_cons, Nat.succ_mul]
    omega

theorem endFrom_le (h : WalHeader) (wal : Bytes) (off : Nat) (r : Sum) (hl : off ≤ wal.length) :
    (endFrom h wal off r).1 ≤ wal.length := by
  induction off, r using chain_induction (h := h) (w := wal) with
  | stop off r hx => rw [endFrom_eq, hx]; exact hl
  | next off r f r' hx ih =>
    rw [endFrom_eq, hx]
    exact ih (nextFrame_content_length hx).1

theorem mem_framesFrom_length (off : Nat) (r : Sum) (hf : f ∈ framesFrom h wal off r) :
    f.content.length = h.pageSize.toNat := by
  induction off, r using chain_induction (h := h) (w := wal) with
  | stop off r hx => rw [framesFrom_eq, hx] at hf; cases hf
  | next off r g r' hx ih =>
    rw [framesFrom_eq, hx] at hf
    rcases mem_cons.1 hf with rfl | hf
    · exact (nextFrame_content_length hx).2
    · exact ih hf

theorem framesFrom_past_end {off : Nat} (r : Sum) (hl : wal.length < off + h.frameSize) :
    framesFrom h wal off r = [] ∧ endFrom h wal off r = (off, r) := by
  have hx : nextFrame h wal off r = none := by rw [nextFrame_eq, if_neg (by omega)]
  rw [framesFrom_eq, endFrom_eq, hx]
  exact ⟨rfl, rfl⟩

theorem lastValidFrameState_eq (h : WalHeader) (wal : Bytes) :
    lastValidFrameState h wal = endFrom h wal headerLen h.headerChecksum := rfl

/-! ## What is committed -/

/-- The chain up to its last commit frame. -/
def committed (fs : List Frame) : List Frame := fs.rdropWhile fun f => f.dbSize = 0

/-- The page writes of a list of frames, oldest first. -/
def writes (fs : List Frame) : List (UInt32 × Bytes) := fs.map fun f => (f.pageNumber, f.content)

/-- The database size the last commit frame declares, 0 when there is none. -/
def lastSize (fs : List Frame) : UInt32 := ((committed fs).getLast?.map (·.dbSize)).getD 0

@[simp] theorem writes_append (a b : List Frame) : writes (a ++ b) = writes a ++ writes b :=
  map_append

theorem committed_concat_of_commit (fs : List Frame) (hf : f.dbSize ≠ 0) : committed (fs ++ [f]) = fs ++ [f] := by
  rw [committed, rdropWhile_concat_neg]; simpa using hf

theorem committed_concat_of_not_commit (fs : List Frame) (hf : f.dbSize = 0) :
    committed (fs ++ [f]) = committed fs := by
  rw [committed, rdropWhile_concat_pos]
  · rfl
  · simpa using hf

theorem committed_isPrefix (fs : List Frame) : committed fs <+: fs := rdropWhile_prefix _ _

/-- What follows a commit frame does not undo it. -/
theorem committed_append {a b : List Frame} (ha : committed a = a) :
    committed (a ++ b) = a ++ committed b := by
  induction b using List.reverseRecOn with
  | nil => simpa [committed] using ha
  | append_singleton b f ih =>
    rw [← append_assoc]
    by_cases hf : f.dbSize = 0
    · rw [committed_concat_of_not_commit _ hf, committed_concat_of_not_commit _ hf, ih]
    · rw [committed_concat_of_commit _ hf, committed_concat_of_commit _ hf, append_assoc]

theorem walk_eq (h : WalHeader) (wal : Bytes) (n off : Nat) (r : Sum) (s : Walk) :
    walk h wal n off r s = (chain h wal n off r).foldl Walk.frame s := by
  induction n generalizing off r s with
  | zero => rfl
  | succ n ih =>
    simp only [walk, chain]
    cases nextFrame h wal off r with
    | none => rfl
    | some p => exact ih _ _ _

theorem unwind_undo (pages : PageMap) (k : UInt32) (v : Bytes) (undo : List (UInt32 × Option Bytes)) :
    unwind (pages.insert k v) ((k, pages[k]?) :: undo) = unwind pages undo := by
  have hr := insert_restore pages k v
  cases hk : pages[k]? with
  | some old => rw [hk] at hr; simp only [unwind, hr]
  | none => rw [hk] at hr; simp only [unwind, hr]

/-- The undo log always leads back to the committed map. -/
theorem foldl_frame (fs : List Frame) :
    let s := fs.foldl Walk.frame ⟨∅, [], 0⟩
    s.pages = overlay ∅ (writes fs) ∧
      unwind s.pages s.undo = overlay ∅ (writes (committed fs)) ∧
      s.committedDbSize = lastSize fs := by
  induction fs using List.reverseRecOn with
  | nil => exact ⟨rfl, rfl, rfl⟩
  | append_singleton fs f ih =>
    obtain ⟨ihp, ihu, ihs⟩ := ih
    simp only [foldl_append, foldl_cons, foldl_nil]
    generalize fs.foldl Walk.frame ⟨∅, [], 0⟩ = s at *
    have hp : s.pages.insert f.pageNumber f.content = overlay ∅ (writes (fs ++ [f])) := by
      rw [writes_append, overlay_append, ← ihp]; rfl
    by_cases hf : f.dbSize = 0
    · simp only [Walk.frame, ne_eq, hf, not_true, if_false, hp, true_and, lastSize,
        committed_concat_of_not_commit _ hf]
      rw [← hp, unwind_undo]
      exact ⟨ihu, ihs⟩
    · simp only [Walk.frame, ne_eq, hf, not_false_iff, if_true, hp, true_and, lastSize,
        committed_concat_of_commit _ hf, unwind]
      simp

/-- `committed_pages` is the overlay of the committed frames, with the last
commit's database size. -/
theorem committedPages_eq (h : WalHeader) (wal : Bytes) :
    committedPages h wal =
      (overlay ∅ (writes (committed (frames h wal))), lastSize (frames h wal)) := by
  obtain ⟨-, hu, hs⟩ := foldl_frame (frames h wal)
  simp only [committedPages, walk_eq]
  exact Prod.ext hu hs

theorem committed_mono (a b : List Frame) : committed a <+: committed (a ++ b) := by
  induction b using List.reverseRecOn with
  | nil => simp
  | append_singleton b f ih =>
    rw [← append_assoc]
    by_cases hf : f.dbSize = 0
    · rw [committed_concat_of_not_commit _ hf]; exact ih
    · rw [committed_concat_of_commit _ hf, append_assoc]
      exact (committed_isPrefix a).trans (prefix_append _ _)

/-- The number of whole frames a file has room for. -/
def slots (h : WalHeader) (wal : Bytes) : Nat := (wal.length - headerLen) / h.frameSize

theorem frames_length_le (hl : headerLen ≤ wal.length) : (frames h wal).length ≤ slots h wal := by
  have he := endFrom_le h wal headerLen h.headerChecksum hl
  rw [endFrom_offset] at he
  rw [slots, Nat.le_div_iff_mul_le h.frameSize_pos]
  exact Nat.le_sub_of_add_le (by rw [Nat.add_comm]; exact he)

theorem framesFrom_take (h : WalHeader) (wal : Bytes) (n off : Nat) (r : Sum) (i : Nat)
    (ho : off = headerLen + i * h.frameSize) :
    framesFrom h (wal.take (headerLen + n * h.frameSize)) off r =
      (framesFrom h wal off r).take (n - i) := by
  have hpos := h.frameSize_pos
  induction off, r using chain_induction (h := h) (w := wal) generalizing i with
  | stop off r hx =>
    have hx' : nextFrame h (wal.take (headerLen + n * h.frameSize)) off r = none := by
      rw [nextFrame_eq] at hx ⊢
      split
      · rename_i hl
        rw [length_take] at hl
        rw [if_pos (by omega)] at hx
        rw [← hx]
        congr 1
        simp only [slice, drop_take, take_take]
        congr 1
        omega
      · rfl
    rw [framesFrom_eq, framesFrom_eq h wal, hx, hx']
    simp
  | next off r f r' hx ih =>
    have hl := (nextFrame_content_length hx).1
    by_cases hin : i < n
    · have hmul : (i + 1) * h.frameSize ≤ n * h.frameSize := Nat.mul_le_mul_right _ hin
      rw [Nat.succ_mul] at hmul
      have hx' : nextFrame h (wal.take (headerLen + n * h.frameSize)) off r = some (f, r') := by
        rw [← hx]
        apply nextFrame_congr
        · rw [length_take]; omega
        · intro _
          simp only [slice, drop_take, take_take]
          congr 1
          omega
      rw [framesFrom_eq, framesFrom_eq h wal, hx, hx']
      simp only
      rw [ih (i + 1) (by rw [Nat.succ_mul]; omega), show n - i = n - (i + 1) + 1 by omega,
        take_succ_cons]
    · have hmul : n * h.frameSize ≤ i * h.frameSize := Nat.mul_le_mul_right _ (by omega)
      have hx' : nextFrame h (wal.take (headerLen + n * h.frameSize)) off r = none := by
        rw [nextFrame_eq, if_neg]
        rw [length_take]; omega
      rw [framesFrom_eq, hx', show n - i = 0 by omega, take_zero]

/-- The first `n` slots of a file hold the first `n` frames of its chain. -/
theorem frames_take (h : WalHeader) (wal : Bytes) (n : Nat) :
    frames h (wal.take (headerLen + n * h.frameSize)) = (frames h wal).take n :=
  framesFrom_take h wal n headerLen h.headerChecksum 0 (by omega)

/-! ## Appending -/

/-- The bytes of consecutive frames. -/
def encodeFrames (h : WalHeader) : Sum → List Frame → Bytes
  | _, [] => []
  | r, f :: fs => encodeFrame h r f ++ encodeFrames h (h.frameSum r f) fs

/-- The running checksum after consecutive frames. -/
def sumAfter (h : WalHeader) (r : Sum) (fs : List Frame) : Sum := fs.foldl h.frameSum r

theorem encodeFrames_length (r : Sum) (hf : ∀ f ∈ fs, f.content.length = h.pageSize.toNat) :
    (encodeFrames h r fs).length = fs.length * h.frameSize := by
  induction fs generalizing r with
  | nil => simp [encodeFrames]
  | cons f fs ih =>
    rw [encodeFrames, length_append, encodeFrame_length, hf f mem_cons_self,
      ih _ fun g hg => hf g (mem_cons_of_mem _ hg), length_cons, Nat.succ_mul,
      WalHeader.frameSize]
    omega

/-- A file that holds encoded frames at `off` chains through them. -/
theorem chain_through (off : Nat) (r : Sum) (hf : ∀ f ∈ fs, f.content.length = h.pageSize.toNat)
    (hl : off + fs.length * h.frameSize ≤ w.length) (hs : slice w off (fs.length * h.frameSize) = encodeFrames h r fs) :
    framesFrom h w off r =
        fs ++ framesFrom h w (off + fs.length * h.frameSize) (sumAfter h r fs) ∧
      endFrom h w off r = endFrom h w (off + fs.length * h.frameSize) (sumAfter h r fs) := by
  induction fs generalizing off r with
  | nil => simp [sumAfter]
  | cons f fs ih =>
    have hc := hf f mem_cons_self
    have hfl : (encodeFrame h r f).length = h.frameSize := by
      rw [encodeFrame_length, hc, WalHeader.frameSize]
    rw [length_cons, Nat.succ_mul] at hl hs ⊢
    rw [encodeFrames] at hs
    have hhead : slice w off h.frameSize = encodeFrame h r f := by
      have e := congrArg (fun x => slice x 0 h.frameSize) hs
      rwa [slice_slice _ _ _ _ _ (by omega), slice_append_left _ _ _ _ (by omega), Nat.add_zero,
        ← hfl, slice_self_length, hfl] at e
    have htail : slice w (off + h.frameSize) (fs.length * h.frameSize) =
        encodeFrames h (h.frameSum r f) fs := by
      have e := congrArg (fun x => slice x h.frameSize (fs.length * h.frameSize)) hs
      rw [slice_slice _ _ _ _ _ (by omega), slice_append_right _ _ _ _ (by omega), hfl,
        Nat.sub_self] at e
      rw [e, ← encodeFrames_length (h.frameSum r f) fun g hg => hf g (mem_cons_of_mem _ hg),
        slice_self_length]
    have hnext : nextFrame h w off r = some (f, h.frameSum r f) := by
      rw [nextFrame_eq, if_pos (by omega), hhead, decodeFrame_encodeFrame h r f hc]
    have ih := ih (off + h.frameSize) (h.frameSum r f)
      (fun g hg => hf g (mem_cons_of_mem _ hg)) (by omega) htail
    have ho : off + h.frameSize + fs.length * h.frameSize =
        off + (fs.length * h.frameSize + h.frameSize) := by omega
    rw [ho] at ih
    constructor
    · rw [framesFrom_eq, hnext]; simp only [ih.1]; rfl
    · rw [endFrom_eq, hnext]; simp only [ih.2]; rfl

/-- Two files that agree from `off` on have the same chain from there on. -/
theorem chain_congr_after {w' : Bytes} (lo : Nat) (hn : ∀ o r, lo ≤ o → nextFrame h w o r = nextFrame h w' o r)
    (off : Nat) (r : Sum) (hlo : lo ≤ off) :
    framesFrom h w off r = framesFrom h w' off r ∧ endFrom h w off r = endFrom h w' off r := by
  induction off, r using chain_induction (h := h) (w := w) with
  | stop off r hx =>
    have hx' := (hn off r hlo).symm.trans hx
    rw [framesFrom_eq, framesFrom_eq h w', endFrom_eq, endFrom_eq h w', hx, hx']
    exact ⟨rfl, rfl⟩
  | next off r f r' hx ih =>
    have hx' := (hn off r hlo).symm.trans hx
    have ih := ih (by omega)
    rw [framesFrom_eq, framesFrom_eq h w', endFrom_eq, endFrom_eq h w', hx, hx']
    exact ⟨congrArg (f :: ·) ih.1, ih.2⟩

/-- A file that agrees up to the end of a chain has that chain as a part of its own. -/
theorem chain_congr_before {w' : Bytes} (off : Nat) (r : Sum) (hl : (endFrom h w off r).1 ≤ w'.length)
    (hs : ∀ o, o + h.frameSize ≤ (endFrom h w off r).1 → slice w' o h.frameSize = slice w o h.frameSize) :
    framesFrom h w' off r = framesFrom h w off r ++
        framesFrom h w' (endFrom h w off r).1 (endFrom h w off r).2 ∧
      endFrom h w' off r = endFrom h w' (endFrom h w off r).1 (endFrom h w off r).2 := by
  induction off, r using chain_induction (h := h) (w := w) with
  | stop off r hx => rw [framesFrom_eq h w, endFrom_eq h w, hx]; exact ⟨rfl, rfl⟩
  | next off r f r' hx ih =>
    have he : endFrom h w off r = endFrom h w (off + h.frameSize) r' := by rw [endFrom_eq, hx]
    have hlt : off + h.frameSize ≤ (endFrom h w off r).1 := by
      rw [he, endFrom_offset]; exact Nat.le_add_right _ _
    have hx' : nextFrame h w' off r = some (f, r') := by
      rw [← hx, nextFrame_eq, nextFrame_eq, if_pos (by omega),
        if_pos (nextFrame_content_length hx).1, hs _ hlt]
    have ih := ih (by rw [← he]; exact hl) (by rw [← he]; exact hs)
    rw [framesFrom_eq h w', framesFrom_eq h w off, endFrom_eq h w' off, hx, hx', he]
    exact ⟨congrArg (f :: ·) ih.1, ih.2⟩

/-- Frames written at the end of a file's chain extend the chain; behind
them it goes on with whatever the file still holds there. -/
theorem frames_writeAt (hf : ∀ f ∈ fs, f.content.length = h.pageSize.toNat) (hl : headerLen ≤ wal.length) :
    let e := lastValidFrameState h wal
    let w := writeAt wal (encodeFrames h e.2 fs) e.1
    let e' := e.1 + fs.length * h.frameSize
    frames h w = frames h wal ++ fs ++ framesFrom h wal e' (sumAfter h e.2 fs) ∧
      lastValidFrameState h w = endFrom h w e' (sumAfter h e.2 fs) := by
  intro e w e'
  have hel : e.1 ≤ wal.length := endFrom_le h wal _ _ hl
  have hdl : (encodeFrames h e.2 fs).length = fs.length * h.frameSize := encodeFrames_length e.2 hf
  have hwl : w.length = max wal.length e' := by rw [writeAt_length, hdl]
  have hb := @chain_congr_before h wal w headerLen h.headerChecksum (by
    show e.1 ≤ w.length; omega) (by
    intro o ho; exact slice_writeAt_before _ _ _ _ _ ho (Nat.le_trans ho hel))
  have ht := @chain_through h w fs e.1 e.2 hf (by omega) (by
    rw [slice_writeAt_inside _ _ _ _ _ (Nat.le_refl _) (by omega), Nat.sub_self, ← hdl,
      slice_self_length])
  have ha := (@chain_congr_after h w wal e' (by
    intro o r ho
    have := h.frameSize_pos
    apply nextFrame_congr
    · omega
    · intro _; exact slice_writeAt_after _ _ _ _ _ (by omega)) e' (sumAfter h e.2 fs)
    (Nat.le_refl _)).1
  constructor
  · calc frames h w = frames h wal ++ framesFrom h w e.1 e.2 := hb.1
      _ = frames h wal ++ (fs ++ framesFrom h w e' (sumAfter h e.2 fs)) := by rw [ht.1]
      _ = _ := by rw [ha, append_assoc]
  · exact hb.2.trans ht.2

end DbStorage.Wal
