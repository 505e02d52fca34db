import DbStorage.Wal.Chain

/-!
# What `committed_pages` is for

The specification is by frame index and names nothing of the walk: frame `i`
is the `i`-th slot behind the header, `sumAt i` the checksum of the header
and the first `i` slots, and a slot is valid when it is whole, carries the
header's salts and stores the checksum up to its own end.

Results: `frames_eq_map` (the walk's chain is the longest run of valid
slots) and `committedPages_meets_spec` (the undo-log loop maps each page to
its last content before the cut, with the cut's database size).
-/
namespace DbStorage.Wal
open Bytes Std

/-! ## The specification -/

/-- The bytes of slot `i`. -/
def slot (h : WalHeader) (wal : Bytes) (i : Nat) : Bytes :=
  slice wal (headerLen + i * h.frameSize) h.frameSize

/-- Slot `i` read as a frame. -/
def frameAt (h : WalHeader) (wal : Bytes) (i : Nat) : Frame where
  pageNumber := ofBe32 (slice (slot h wal i) 0 4)
  dbSize := ofBe32 (slice (slot h wal i) 4 4)
  content := slice (slot h wal i) frameHeaderLen h.pageSize.toNat

/-- The running checksum of the header and the first `i` slots: each adds
its first eight bytes and its page. -/
def sumAt (h : WalHeader) (wal : Bytes) : Nat → Sum
  | 0 => h.headerChecksum
  | i + 1 => checksum h.nativeChecksum (frameAt h wal i).content
      (checksum h.nativeChecksum (slice (slot h wal i) 0 8) (sumAt h wal i))

/-- Slot `i` is whole, has the header's salts and its checksum verifies. -/
structure ValidFrame (h : WalHeader) (wal : Bytes) (i : Nat) : Prop where
  whole : headerLen + (i + 1) * h.frameSize ≤ wal.length
  salt1 : ofBe32 (slice (slot h wal i) 8 4) = h.salt1
  salt2 : ofBe32 (slice (slot h wal i) 12 4) = h.salt2
  sum : sumAt h wal (i + 1) = (ofBe32 (slice (slot h wal i) 16 4), ofBe32 (slice (slot h wal i) 20 4))

/-- `n` slots are the longest valid run, and the first `k` of them end with
its last commit frame. -/
structure Cut (h : WalHeader) (wal : Bytes) (n k : Nat) : Prop where
  valid : ∀ i < n, ValidFrame h wal i
  longest : ¬ ValidFrame h wal n
  le : k ≤ n
  commit : k = 0 ∨ (frameAt h wal (k - 1)).dbSize ≠ 0
  last : ∀ i, k ≤ i → i < n → (frameAt h wal i).dbSize = 0

/-- `c` is the last content of page `p` in the first `k` slots, `none` when
they have none. -/
def LastContent (h : WalHeader) (wal : Bytes) (k : Nat) (p : UInt32) : Option Bytes → Prop
  | none => ∀ i < k, (frameAt h wal i).pageNumber ≠ p
  | some c => ∃ i < k, (frameAt h wal i).pageNumber = p ∧ (frameAt h wal i).content = c ∧
      ∀ j, i < j → j < k → (frameAt h wal j).pageNumber ≠ p

theorem Cut.unique {h : WalHeader} {wal : Bytes} {n k n' k' : Nat} (c : Cut h wal n k)
    (c' : Cut h wal n' k') : n' = n ∧ k' = k := by
  have hn : n' = n := by
    rcases Nat.lt_trichotomy n n' with hlt | heq | hgt
    · exact absurd (c'.valid n hlt) c.longest
    · exact heq.symm
    · exact absurd (c.valid n' hgt) c'.longest
  subst hn
  refine ⟨rfl, ?_⟩
  -- the commit frame of the later cut would lie in the other's uncommitted tail
  rcases Nat.lt_trichotomy k k' with hlt | heq | hgt
  · rcases c'.commit with h0 | hne
    · omega
    · exact absurd (c.last (k' - 1) (by omega) (by have := c'.le; omega)) hne
  · exact heq.symm
  · rcases c.commit with h0 | hne
    · omega
    · exact absurd (c'.last (k - 1) (by omega) (by have := c.le; omega)) hne

/-! ## The walk meets it -/

/-- One round of the walk at slot `i` accepts exactly a valid slot. -/
theorem nextFrame_slot (h : WalHeader) (wal : Bytes) (i : Nat) :
    (ValidFrame h wal i → nextFrame h wal (headerLen + i * h.frameSize) (sumAt h wal i) =
      some (frameAt h wal i, sumAt h wal (i + 1))) ∧
    (¬ ValidFrame h wal i →
      nextFrame h wal (headerLen + i * h.frameSize) (sumAt h wal i) = none) := by
  have hoff : headerLen + i * h.frameSize + h.frameSize = headerLen + (i + 1) * h.frameSize := by
    rw [Nat.succ_mul, Nat.add_assoc]
  rw [nextFrame_eq, hoff]
  constructor
  · intro hv
    rw [if_pos hv.whole]
    exact if_pos ⟨⟨hv.salt1, hv.salt2⟩, hv.sum⟩
  · intro hv
    by_cases hw : headerLen + (i + 1) * h.frameSize ≤ wal.length
    · rw [if_pos hw]
      refine if_neg ?_
      rintro ⟨⟨h1, h2⟩, hs⟩
      exact hv ⟨hw, h1, h2, hs⟩
    · rw [if_neg hw]

/-- The chain from slot `i` on is the run of valid slots from there. -/
theorem framesFrom_slot (h : WalHeader) (wal : Bytes) (i : Nat) :
    ∃ n, (∀ j, i ≤ j → j < i + n → ValidFrame h wal j) ∧ ¬ ValidFrame h wal (i + n) ∧
      framesFrom h wal (headerLen + i * h.frameSize) (sumAt h wal i) =
        (List.range' i n).map (frameAt h wal) := by
  -- every valid slot is whole, so the bytes behind slot `i` bound the run
  induction hm : wal.length - (headerLen + i * h.frameSize) using Nat.strong_induction_on
    generalizing i with
  | _ m ih =>
    by_cases hv : ValidFrame h wal i
    · have hwhole := hv.whole
      have hpos := h.frameSize_pos
      rw [Nat.succ_mul] at hwhole
      obtain ⟨n, hn, hstop, hfs⟩ := ih _ (by rw [Nat.succ_mul]; omega) (i + 1) rfl
      refine ⟨n + 1, ?_, ?_, ?_⟩
      · intro j hij hj
        rcases Nat.eq_or_lt_of_le hij with rfl | hlt
        · exact hv
        · exact hn j hlt (by omega)
      · rwa [show i + (n + 1) = i + 1 + n by omega]
      · rw [framesFrom_eq, (nextFrame_slot h wal i).1 hv]
        simp only [List.range'_succ, List.map_cons]
        rw [← hfs, Nat.succ_mul, Nat.add_assoc]
    · refine ⟨0, fun j hij hj => by omega, hv, ?_⟩
      rw [framesFrom_eq, (nextFrame_slot h wal i).2 hv]
      rfl

/-- The walk's chain is the longest run of valid slots. -/
theorem frames_eq_map (h : WalHeader) (wal : Bytes) :
    ∃ n, (∀ i < n, ValidFrame h wal i) ∧ ¬ ValidFrame h wal n ∧
      frames h wal = (List.range n).map (frameAt h wal) := by
  obtain ⟨n, hn, hstop, hfs⟩ := framesFrom_slot h wal 0
  refine ⟨n, fun i hi => hn i (Nat.zero_le i) (by omega), by rwa [Nat.zero_add] at hstop, ?_⟩
  rw [List.range_eq_range', ← hfs, Nat.zero_mul, Nat.add_zero]
  rfl

theorem committed_map (h : WalHeader) (wal : Bytes) (n : Nat) :
    ∃ k ≤ n, (k = 0 ∨ (frameAt h wal (k - 1)).dbSize ≠ 0) ∧
      (∀ i, k ≤ i → i < n → (frameAt h wal i).dbSize = 0) ∧
      committed ((List.range n).map (frameAt h wal)) = (List.range k).map (frameAt h wal) := by
  induction n with
  | zero => exact ⟨0, Nat.le_refl 0, .inl rfl, fun i _ hi => by omega, by simp [committed]⟩
  | succ n ih =>
    rw [List.range_succ, List.map_append, List.map_singleton]
    by_cases hc : (frameAt h wal n).dbSize = 0
    · obtain ⟨k, hk, hcommit, hlast, heq⟩ := ih
      refine ⟨k, by omega, hcommit, ?_, ?_⟩
      · intro i hki hi
        rcases Nat.eq_or_lt_of_le (Nat.le_of_lt_succ hi) with rfl | hlt
        · exact hc
        · exact hlast i hki hlt
      · rw [committed_concat_of_not_commit _ hc, heq]
    · refine ⟨n + 1, Nat.le_refl _, .inr hc, fun i hki hi => by omega, ?_⟩
      rw [committed_concat_of_commit _ hc, List.range_succ, List.map_append, List.map_singleton]

/-- The last write among the first `k` slots is the page's last content. -/
theorem lastContent_lastWrite (h : WalHeader) (wal : Bytes) (k : Nat) (p : UInt32) :
    LastContent h wal k p (lastWrite (writes ((List.range k).map (frameAt h wal))) p) := by
  induction k with
  | zero => exact fun i hi => absurd hi (Nat.not_lt_zero i)
  | succ k ih =>
    rw [List.range_succ, List.map_append, List.map_singleton, writes_append, lastWrite_append]
    by_cases hp : (frameAt h wal k).pageNumber = p
    · have hw : lastWrite (writes [frameAt h wal k]) p = some (frameAt h wal k).content := by
        simp [writes, lastWrite, hp]
      rw [hw, Option.some_or]
      exact ⟨k, Nat.lt_succ_self k, hp, rfl, fun j hkj hj => by omega⟩
    · have hw : lastWrite (writes [frameAt h wal k]) p = none := by
        simp [writes, lastWrite, hp]
      rw [hw, Option.none_or]
      cases hl : lastWrite (writes ((List.range k).map (frameAt h wal))) p with
      | none =>
        rw [hl] at ih
        intro i hi
        rcases Nat.eq_or_lt_of_le (Nat.le_of_lt_succ hi) with rfl | hlt
        · exact hp
        · exact ih i hlt
      | some c =>
        rw [hl] at ih
        obtain ⟨i, hi, hpage, hcontent, hlater⟩ := ih
        refine ⟨i, by omega, hpage, hcontent, ?_⟩
        intro j hij hj
        rcases Nat.eq_or_lt_of_le (Nat.le_of_lt_succ hj) with rfl | hlt
        · exact hp
        · exact hlater j hij hlt

/-- The size the walk reports is the one of the frame the cut ends with. -/
theorem lastSize_map {h : WalHeader} {wal : Bytes} {n k : Nat}
    (heq : committed ((List.range n).map (frameAt h wal)) = (List.range k).map (frameAt h wal)) :
    lastSize ((List.range n).map (frameAt h wal)) =
      if k = 0 then 0 else (frameAt h wal (k - 1)).dbSize := by
  rw [lastSize, heq]
  cases k with
  | zero => rfl
  | succ k => simp [List.range_succ]

/-- For every header and every file: there is exactly one cut, each page of
the result is its last content before the cut, and the size is the one of
the frame the cut ends with. -/
theorem committedPages_meets_spec (h : WalHeader) (wal : Bytes) :
    ∃ n k, Cut h wal n k ∧ (∀ n' k', Cut h wal n' k' → n' = n ∧ k' = k) ∧
      (∀ p, LastContent h wal k p (committedPages h wal).1[p]?) ∧
      (committedPages h wal).2 = if k = 0 then 0 else (frameAt h wal (k - 1)).dbSize := by
  obtain ⟨n, hvalid, hstop, hfs⟩ := frames_eq_map h wal
  obtain ⟨k, hk, hcommit, hlast, heq⟩ := committed_map h wal n
  have hcut : Cut h wal n k := ⟨hvalid, hstop, hk, hcommit, hlast⟩
  refine ⟨n, k, hcut, fun n' k' hcut' => hcut.unique hcut', ?_, ?_⟩
  · intro p
    rw [committedPages_eq, hfs, heq, getElem?_overlay]
    simpa using lastContent_lastWrite h wal k p
  · rw [committedPages_eq, hfs]
    exact lastSize_map heq

end DbStorage.Wal
