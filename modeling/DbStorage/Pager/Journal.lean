import DbStorage.Vfs.PageFile

/-!
# Rollback journal (`pager/journal.rs`)

A journal is a header padded to one sector (the pager passes the page size
as sector size) and records of `4 + page_size + 4` bytes. `recover` replays
the records up to the first one that is cut short or whose checksum does
not carry the header's nonce.

Results: `parse_headerRegion`, `recordAt_writeRecord`, and
`replay_writeRecords`: what `recover` applies from a journal whose first `k` records were written over
the file of an older journal is exactly those `k` records, because
`page_checksum` tells the nonces apart (`pageChecksum_inj`).
-/
namespace DbStorage.Pager
open Bytes Vfs

/-- mirrors journal.rs:27 -/
def journalHeaderLen : Nat := 28

/-- mirrors pager/mod.rs:56 -/
def journalMagic : Bytes := [0xd9, 0xd5, 0x05, 0xf9, 0x20, 0xa1, 0x63, 0xd7]

/-- mirrors journal.rs:31-46; no modelled file operation fails,
so the VFS variant is left out, and nothing builds `RecordTruncated`. -/
inductive JournalError where
  | headerTooShort (got : Nat)
  deriving DecidableEq

/-- mirrors journal.rs:79-81 -/
def recordLen (pageSize : UInt32) : Nat := 4 + pageSize.toNat + 4

/-- mirrors journal.rs:86-97 -/
structure JournalHeader where
  nRec : UInt32
  nonce : UInt32
  initialPageCount : UInt32
  sectorSize : UInt32
  pageSize : UInt32
  deriving DecidableEq

/-- mirrors journal.rs:104-125 -/
def JournalHeader.parse (buf : Bytes) : Except JournalError JournalHeader :=
  match getRange buf 0 journalHeaderLen with
  | none => .error (.headerTooShort buf.length)
  | some b =>
    .ok ⟨ofBe32 (slice b 8 4), ofBe32 (slice b 12 4), ofBe32 (slice b 16 4), ofBe32 (slice b 20 4),
      ofBe32 (slice b 24 4)⟩

/-- mirrors journal.rs:130-139 -/
def JournalHeader.serialize (h : JournalHeader) (magic : Bytes) : Bytes :=
  magic ++ be32 h.nRec ++ be32 h.nonce ++ be32 h.initialPageCount ++ be32 h.sectorSize ++
    be32 h.pageSize

/-- The sampling loop, from `idx` down in steps of 200.
mirrors journal.rs:156-167 -/
def checksumLoop (page : Bytes) : Nat → Nat → UInt32 → UInt32
  | 0, _, cksum => cksum
  | fuel + 1, idx, cksum =>
    if 0 < idx ∧ idx < page.length then
      checksumLoop page fuel (idx - 200) (cksum + UInt32.ofNat (page.getD idx 0).toNat)
    else cksum

/-- mirrors journal.rs:153-168; every round lowers the index, so
`page.length` rounds are enough. -/
def pageChecksum (nonce : UInt32) (page : Bytes) : UInt32 :=
  checksumLoop page page.length (page.length - 200) nonce

/-- The header's sector, zero-padded.
mirrors journal.rs:212-217 -/
def headerRegion (h : JournalHeader) : Except JournalError Bytes :=
  if h.sectorSize.toNat < journalHeaderLen then .error (.headerTooShort h.sectorSize.toNat)
  else .ok (writeAt (List.replicate h.sectorSize.toNat 0) (h.serialize journalMagic) 0)

/-- mirrors journal.rs:239-240,281 -/
def recordOffset (sectorSize pageSize : UInt32) (index : Nat) : Nat :=
  sectorSize.toNat + index * recordLen pageSize

/-- mirrors journal.rs:241-244 -/
def recordBytes (nonce pageNum : UInt32) (original : Bytes) : Bytes :=
  be32 pageNum ++ original ++ be32 (pageChecksum nonce original)

/-- Record `index` as `recover` reads it: page number, content and stored
checksum, `none` when it is cut short.
mirrors journal.rs:281-301 -/
def recordAt (sectorSize pageSize : UInt32) (journal : Bytes) (index : Nat) :
    Option (UInt32 × Bytes × UInt32) := do
  let offset := recordOffset sectorSize pageSize index
  let record ← getRange journal offset (offset + recordLen pageSize)
  let pageNumBytes ← getRange record 0 4
  let pageData ← getRange record 4 (4 + pageSize.toNat)
  let checksumBytes ← getRange record (4 + pageSize.toNat) record.length
  some (ofBe32 pageNumBytes, pageData, ofBe32 checksumBytes)

/-- The pages `recover` writes, from record `index` on.
mirrors journal.rs:280-311 -/
def replayFrom (h : JournalHeader) (journal : Bytes) : Nat → Nat → List (UInt32 × Bytes)
  | 0, _ => []
  | n + 1, index =>
    match recordAt h.sectorSize h.pageSize journal index with
    | none => []
    | some (pageNum, pageData, checksum) =>
      if pageChecksum h.nonce pageData ≠ checksum then []
      else (pageNum, pageData) :: replayFrom h journal n (index + 1)

/-- The pages `recover` writes to the main file, in order. -/
def replay (h : JournalHeader) (journal : Bytes) : List (UInt32 × Bytes) :=
  replayFrom h journal h.nRec.toNat 0

/-! ## Checksum -/

theorem checksumLoop_add (page : Bytes) (fuel idx : Nat) (a b : UInt32) :
    checksumLoop page fuel idx (a + b) = a + checksumLoop page fuel idx b := by
  induction fuel generalizing idx b with
  | zero => rfl
  | succ fuel ih =>
    simp only [checksumLoop]
    split
    · rw [UInt32.add_assoc, ih]
    · rfl

/-- One page's checksum determines the nonce. -/
theorem pageChecksum_inj {n n' : UInt32} {page : Bytes}
    (h : pageChecksum n page = pageChecksum n' page) : n = n' := by
  have e : ∀ m, pageChecksum m page =
      m + checksumLoop page page.length (page.length - 200) 0 := fun m => by
    rw [← checksumLoop_add, UInt32.add_zero]; rfl
  rw [e n, e n'] at h
  exact (UInt32.add_left_inj _).1 h

/-! ## Header and records read back -/

theorem serialize_length (h : JournalHeader) : (h.serialize journalMagic).length = 28 := by
  simp [JournalHeader.serialize, journalMagic]

variable {h : JournalHeader} {j : Bytes} {i : Nat} {ps ss : UInt32}

theorem headerRegion_length {r : Bytes} (hr : headerRegion h = .ok r) :
    r.length = h.sectorSize.toNat ∧ 28 ≤ r.length ∧ slice r 0 28 = h.serialize journalMagic := by
  unfold headerRegion at hr
  split at hr
  · cases hr
  · rename_i hs
    cases hr
    rw [journalHeaderLen] at hs
    have hl := serialize_length h
    refine ⟨?_, ?_, ?_⟩
    · rw [writeAt_length, List.length_replicate, hl]; omega
    · rw [writeAt_length, List.length_replicate, hl]; omega
    · rw [slice_writeAt_inside _ _ _ _ _ (Nat.le_refl _) (by omega), Nat.sub_self, ← hl,
        slice_self_length]

/-- A journal that starts with a header's region parses as that header. -/
theorem parse_headerRegion (hl : 28 ≤ j.length) (hs : slice j 0 28 = h.serialize journalMagic) :
    JournalHeader.parse j = .ok h := by
  unfold JournalHeader.parse
  rw [getRange_of_le (by omega) (by rw [journalHeaderLen]; omega)]
  simp only [journalHeaderLen, Nat.sub_zero, hs]
  have e1 : slice (h.serialize journalMagic) 8 4 = be32 h.nRec := by
    simp [JournalHeader.serialize, journalMagic, slice, be32]
  have e2 : slice (h.serialize journalMagic) 12 4 = be32 h.nonce := by
    simp [JournalHeader.serialize, journalMagic, slice, be32]
  have e3 : slice (h.serialize journalMagic) 16 4 = be32 h.initialPageCount := by
    simp [JournalHeader.serialize, journalMagic, slice, be32]
  have e4 : slice (h.serialize journalMagic) 20 4 = be32 h.sectorSize := by
    simp [JournalHeader.serialize, journalMagic, slice, be32]
  have e5 : slice (h.serialize journalMagic) 24 4 = be32 h.pageSize := by
    simp [JournalHeader.serialize, journalMagic, slice, be32]
  rw [e1, e2, e3, e4, e5]
  simp only [ofBe32_be32]

theorem recordAt_eq (ss ps : UInt32) (j : Bytes) (i : Nat) :
    recordAt ss ps j i =
      if recordOffset ss ps i + recordLen ps ≤ j.length then
        let r := slice j (recordOffset ss ps i) (recordLen ps)
        some (ofBe32 (slice r 0 4), slice r 4 ps.toNat, ofBe32 (slice r (4 + ps.toNat) 4))
      else none := by
  unfold recordAt
  by_cases hl : recordOffset ss ps i + recordLen ps ≤ j.length
  · have hr : (slice j (recordOffset ss ps i) (recordLen ps)).length = 4 + ps.toNat + 4 :=
      slice_length_of_le hl
    rw [if_pos hl]
    simp only
    rw [getRange_of_le (by omega) hl]
    simp only [Option.bind_eq_bind, Option.bind_some, Nat.add_sub_cancel_left]
    rw [getRange_of_le (by omega) (by omega), getRange_of_le (by omega) (by omega),
      getRange_of_le (by omega) (by omega)]
    simp only [Option.bind_some, hr, Nat.sub_zero, Nat.add_sub_cancel_left]
  · have hn : getRange j (recordOffset ss ps i) (recordOffset ss ps i + recordLen ps) = none := by
      simp only [getRange, if_neg (show ¬ (_ ∧ _) from fun hh => hl hh.2)]
    rw [if_neg hl]
    simp only [hn, Option.bind_eq_bind, Option.bind_none]

theorem recordBytes_length {nonce p ps : UInt32} {d : Bytes} (hd : d.length = ps.toNat) :
    (recordBytes nonce p d).length = recordLen ps := by
  simp only [recordBytes, List.length_append, be32_length, hd, recordLen]

theorem recordOffset_succ (ss ps : UInt32) (i : Nat) :
    recordOffset ss ps (i + 1) = recordOffset ss ps i + recordLen ps := by
  simp only [recordOffset, Nat.succ_mul]; omega

theorem recordOffset_mono (ss ps : UInt32) {j : Nat} (h : i ≤ j) : recordOffset ss ps i ≤ recordOffset ss ps j := by
  have := Nat.mul_le_mul_right (recordLen ps) h
  simp only [recordOffset]; omega

theorem recordBytes_fields (nonce p : UInt32) {d : Bytes} (hd : d.length = ps.toNat) :
    slice (recordBytes nonce p d) 0 4 = be32 p ∧ slice (recordBytes nonce p d) 4 ps.toNat = d ∧
      slice (recordBytes nonce p d) (4 + ps.toNat) 4 = be32 (pageChecksum nonce d) := by
  refine ⟨by simp [recordBytes, slice, be32], by simp [recordBytes, slice, be32, ← hd], ?_⟩
  have hlen : (be32 p ++ d).length = 4 + ps.toNat := by simp [hd]
  rw [recordBytes, slice_append_right _ _ _ _ (by omega), hlen, Nat.sub_self]
  exact slice_self_length _

theorem recordAt_writeRecord {nonce p : UInt32} {d : Bytes} (j : Bytes) (i : Nat) (hd : d.length = ps.toNat) :
    recordAt ss ps (writeAt j (recordBytes nonce p d) (recordOffset ss ps i)) i =
      some (p, d, pageChecksum nonce d) := by
  have hl : (recordBytes nonce p d).length = recordLen ps := recordBytes_length hd
  have hs : slice (writeAt j (recordBytes nonce p d) (recordOffset ss ps i)) (recordOffset ss ps i)
      (recordLen ps) = recordBytes nonce p d := by
    rw [slice_writeAt_inside _ _ _ _ _ (Nat.le_refl _) (by omega), Nat.sub_self, ← hl,
      slice_self_length]
  rw [recordAt_eq, if_pos (by rw [writeAt_length]; omega), hs]
  obtain ⟨e1, e2, e3⟩ := recordBytes_fields nonce p hd
  simp only [e1, e2, e3, ofBe32_be32]

theorem recordAt_writeAt_before (j data : Bytes) {off : Nat} (h : recordOffset ss ps i + recordLen ps ≤ off)
    (hj : off ≤ j.length) : recordAt ss ps (writeAt j data off) i = recordAt ss ps j i := by
  rw [recordAt_eq, recordAt_eq, if_pos (by rw [writeAt_length]; omega), if_pos (by omega),
    slice_writeAt_before _ _ _ _ _ h (by omega)]

theorem recordAt_writeAt_after (j data : Bytes) {off : Nat} (h : off + data.length ≤ recordOffset ss ps i) :
    recordAt ss ps (writeAt j data off) i = recordAt ss ps j i := by
  have hpos : 0 < recordLen ps := by simp only [recordLen]; omega
  rw [recordAt_eq, recordAt_eq, slice_writeAt_after _ _ _ _ _ h]
  have : recordOffset ss ps i + recordLen ps ≤ (writeAt j data off).length ↔
      recordOffset ss ps i + recordLen ps ≤ j.length := by rw [writeAt_length]; omega
  simp only [this]

/-! ## Replaying -/

/-- The records `R` written at slots `i`, `i + 1`, ... -/
def writeRecords (nonce ss ps : UInt32) : Bytes → Nat → List (UInt32 × Bytes) → Bytes
  | j, _, [] => j
  | j, i, w :: R =>
    writeRecords nonce ss ps (writeAt j (recordBytes nonce w.1 w.2) (recordOffset ss ps i)) (i + 1) R

theorem writeRecords_slots {nonce ss ps : UInt32} {R : List (UInt32 × Bytes)} (j : Bytes) (i : Nat)
    (hR : ∀ w ∈ R, w.2.length = ps.toNat) (hj : recordOffset ss ps i ≤ j.length) :
    (∀ m, m < i → recordAt ss ps (writeRecords nonce ss ps j i R) m = recordAt ss ps j m) ∧
    (∀ m w, R[m]? = some w → recordAt ss ps (writeRecords nonce ss ps j i R) (i + m) =
      some (w.1, w.2, pageChecksum nonce w.2)) ∧
    (∀ m, i + R.length ≤ m → recordAt ss ps (writeRecords nonce ss ps j i R) m = recordAt ss ps j m) := by
  induction R generalizing j i with
  | nil => simp [writeRecords]
  | cons w R ih =>
    have hw := hR w List.mem_cons_self
    have hwl := @recordBytes_length nonce w.1 ps w.2 hw
    have hoff := recordOffset_succ ss ps i
    obtain ⟨ih1, ih2, ih3⟩ := ih (writeAt j (recordBytes nonce w.1 w.2) (recordOffset ss ps i)) (i + 1)
      (fun v hv => hR v (List.mem_cons_of_mem _ hv)) (by rw [writeAt_length]; omega)
    simp only [writeRecords]
    refine ⟨fun m hm => ?_, fun m v hv => ?_, fun m hm => ?_⟩
    · rw [ih1 m (by omega)]
      have := recordOffset_mono ss ps (show m + 1 ≤ i by omega)
      rw [recordOffset_succ] at this
      exact recordAt_writeAt_before _ _ this hj
    · cases m with
      | zero =>
        simp only [List.getElem?_cons_zero, Option.some.injEq] at hv
        subst hv
        exact (ih1 i (by omega)).trans (recordAt_writeRecord j i hw)
      | succ m =>
        rw [List.getElem?_cons_succ] at hv
        rw [show i + (m + 1) = i + 1 + m by omega, ih2 m v hv]
    · rw [List.length_cons] at hm
      rw [ih3 m (by omega)]
      have := recordOffset_mono ss ps (show i + 1 ≤ m by omega)
      exact recordAt_writeAt_after _ _ (by omega)

/-- Every whole record of `j` carries a nonce of `nonces`. -/
def OlderRecords (ss ps : UInt32) (nonces : List UInt32) (j : Bytes) : Prop :=
  ∀ i p d ck, recordAt ss ps j i = some (p, d, ck) → ∃ n ∈ nonces, ck = pageChecksum n d

theorem replayFrom_eq {R : List (UInt32 × Bytes)} (n i : Nat) (hn : R.length ≤ n)
    (hR : ∀ m w, R[m]? = some w → recordAt h.sectorSize h.pageSize j (i + m) = some (w.1, w.2, pageChecksum h.nonce w.2))
    (hend : ∀ p d ck, recordAt h.sectorSize h.pageSize j (i + R.length) = some (p, d, ck) → pageChecksum h.nonce d ≠ ck) :
    replayFrom h j n i = R := by
  induction R generalizing n i with
  | nil =>
    cases n with
    | zero => rfl
    | succ n =>
      rw [replayFrom]
      cases hr : recordAt h.sectorSize h.pageSize j i with
      | none => rfl
      | some r => simp only [hend r.1 r.2.1 r.2.2 hr, ne_eq, not_false_iff, if_true]
  | cons w R ih =>
    cases n with
    | zero => simp at hn
    | succ n =>
      have h0 := hR 0 w rfl
      rw [Nat.add_zero] at h0
      rw [replayFrom, h0]
      simp only [ne_eq, not_true, if_false]
      rw [ih n (i + 1) (by simpa using hn) ?_ ?_]
      · intro m v hv
        rw [show i + 1 + m = i + (m + 1) by omega]
        exact hR (m + 1) v (by rwa [List.getElem?_cons_succ])
      · intro p d ck hr
        refine hend p d ck ?_
        rw [List.length_cons, show i + (R.length + 1) = i + 1 + R.length by omega]
        exact hr

/-- **Older records are never applied**: over the file of older journals
(of the same sector and page size, with other nonces) write a header and the
first records `R`, at most as many as the header announces; then `recover`
applies exactly `R`. -/
theorem replay_writeRecords {region : Bytes} {R : List (UInt32 × Bytes)} {nonces : List UInt32}
    (hreg : headerRegion h = .ok region) (hold : OlderRecords h.sectorSize h.pageSize nonces j)
    (hnew : h.nonce ∉ nonces) (hR : ∀ w ∈ R, w.2.length = h.pageSize.toNat) (hn : R.length ≤ h.nRec.toNat) :
    replay h (writeRecords h.nonce h.sectorSize h.pageSize (writeAt j region 0) 0 R) = R := by
  have hrl := (headerRegion_length hreg).1
  have h0 : recordOffset h.sectorSize h.pageSize 0 = h.sectorSize.toNat := by simp [recordOffset]
  have hold' : OlderRecords h.sectorSize h.pageSize nonces (writeAt j region 0) := by
    intro i p d ck hr
    have := recordOffset_mono h.sectorSize h.pageSize (Nat.zero_le i)
    rw [recordAt_writeAt_after _ _ (by omega)] at hr
    exact hold i p d ck hr
  obtain ⟨-, h2, h3⟩ := @writeRecords_slots h.nonce h.sectorSize h.pageSize R (writeAt j region 0) 0
    hR (by rw [writeAt_length]; omega)
  refine replayFrom_eq _ 0 hn h2 fun p d ck hr heq => ?_
  rw [h3 _ (Nat.le_refl _)] at hr
  obtain ⟨n, hmem, rfl⟩ := hold' _ p d ck hr
  exact hnew (pageChecksum_inj heq ▸ hmem)

end DbStorage.Pager
