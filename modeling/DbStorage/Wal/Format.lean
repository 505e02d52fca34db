import DbStorage.Core.Bytes

/-!
# WAL file format (`pager/wal.rs`)

The 32-byte WAL header, the running checksum and the 24-byte frame header.
`usize` and `u64` offsets are naturals: every offset is bounded by the
length of a file, far below 2^64, so the source's saturating additions
never saturate. `u32` fields are `UInt32`, and the checksum wraps as in the
source. The host is little-endian (`u32::from_ne_bytes` is `ofLe32`), as on
every platform the crate supports.

Results: `parse_congr` (the parsed header depends on the first 32 bytes
only), `parse_serialize` (a header built by `WalHeader.new` parses back),
`decodeFrame_encodeFrame` (the walk reads back a frame the writer encoded).
-/
namespace DbStorage.Wal
open Bytes

/-- mirrors wal.rs:41 -/
def headerLen : Nat := 32

/-- mirrors wal.rs:42 -/
def frameHeaderLen : Nat := 24

/-- mirrors wal.rs:47 -/
def formatVersion : UInt32 := 3007000

/-- mirrors wal.rs:51-81; the VFS variant carries the failure
kind only (`notFound` is what `flush_wal_locked` matches on). -/
inductive WalError where
  | headerTooShort (len : Nat)
  | invalidMagic (magic : UInt32)
  | invalidPageSize (pageSize : UInt32)
  | headerChecksumMismatch (stored computed : UInt32 × UInt32)
  | notFound
  deriving DecidableEq

/-- mirrors wal.rs:122-137 -/
structure WalHeader where
  nativeChecksum : Bool
  pageSize : UInt32
  salt1 : UInt32
  salt2 : UInt32
  formatVersion : UInt32
  checkpointSeq : UInt32
  headerChecksum : UInt32 × UInt32
  deriving DecidableEq

/-- mirrors wal.rs:143-151 -/
def readU32 (buf : Bytes) (offset : Nat) : Except WalError UInt32 :=
  match getRange buf offset (offset + 4) with
  | some b => .ok (ofBe32 b)
  | none => .error (.headerTooShort buf.length)

/-- mirrors wal.rs:284-288 -/
def readU32Opt (buf : Bytes) (offset : Nat) : Option UInt32 :=
  (getRange buf offset (offset + 4)).map ofBe32

/-- mirrors wal.rs:272-279 -/
def readWord (native : Bool) (b : Bytes) : UInt32 := if native then ofLe32 b else ofBe32 b

/-- mirrors wal.rs:257-267; a trailing partial chunk is ignored. -/
def checksum (native : Bool) : Bytes → UInt32 × UInt32 → UInt32 × UInt32
  | b0 :: b1 :: b2 :: b3 :: b4 :: b5 :: b6 :: b7 :: rest, (s1, s2) =>
    let s1 := s1 + readWord native [b0, b1, b2, b3] + s2
    let s2 := s2 + readWord native [b4, b5, b6, b7] + s1
    checksum native rest (s1, s2)
  | _, s => s

/-- `u32::is_power_of_two` -/
def isPowerOfTwo (n : UInt32) : Bool := n != 0 && n &&& (n - 1) == 0

/-- The header's magic selects the checksum's byte order.
mirrors wal.rs:163-167 -/
def nativeOfMagic (magic : UInt32) : Except WalError Bool :=
  if magic = 0x377f0682 then .ok true
  else if magic = 0x377f0683 then .ok false
  else .error (.invalidMagic magic)

/-- mirrors wal.rs:157-196 -/
def WalHeader.parse (bytes : Bytes) : Except WalError WalHeader :=
  if bytes.length < headerLen then .error (.headerTooShort bytes.length) else do
  let magic ← readU32 bytes 0
  let native ← nativeOfMagic magic
  let pageSize ← readU32 bytes 8
  if pageSize < 512 ∨ isPowerOfTwo pageSize = false ∨ pageSize > 65536 then
    .error (.invalidPageSize pageSize)
  else do
  let formatVersion ← readU32 bytes 4
  let checkpointSeq ← readU32 bytes 12
  let salt1 ← readU32 bytes 16
  let salt2 ← readU32 bytes 20
  let stored1 ← readU32 bytes 24
  let stored2 ← readU32 bytes 28
  let computed := checksum native (slice bytes 0 24) (0, 0)
  if computed ≠ (stored1, stored2) then
    .error (.headerChecksumMismatch (stored1, stored2) computed)
  else
    .ok ⟨native, pageSize, salt1, salt2, formatVersion, checkpointSeq, (stored1, stored2)⟩

/-- mirrors wal.rs:232-248 -/
def WalHeader.serialize (h : WalHeader) : Bytes :=
  be32 (if h.nativeChecksum then 0x377f0682 else 0x377f0683) ++ be32 h.formatVersion ++
  be32 h.pageSize ++ be32 h.checkpointSeq ++ be32 h.salt1 ++ be32 h.salt2 ++
  be32 h.headerChecksum.1 ++ be32 h.headerChecksum.2

/-- mirrors wal.rs:203-227 -/
def WalHeader.new (native : Bool) (pageSize salt1 salt2 checkpointSeq : UInt32) : WalHeader :=
  let header : WalHeader := ⟨native, pageSize, salt1, salt2, Wal.formatVersion, checkpointSeq, (0, 0)⟩
  { header with headerChecksum := checksum native (slice header.serialize 0 24) (0, 0) }

/-- `FRAME_HEADER_LEN + page_size` -/
def WalHeader.frameSize (h : WalHeader) : Nat := frameHeaderLen + h.pageSize.toNat

theorem WalHeader.frameSize_pos (h : WalHeader) : 0 < h.frameSize := by
  simp only [WalHeader.frameSize, frameHeaderLen]; omega

@[simp] theorem serialize_length (h : WalHeader) : h.serialize.length = headerLen := by
  simp [WalHeader.serialize, headerLen]

/-! ## Parsing -/

variable {b : Bytes} {off : Nat} {h : WalHeader}

theorem readU32_congr {b' : Bytes} (h : off + 4 ≤ 32) (hl : 32 ≤ b.length) (hl' : 32 ≤ b'.length)
    (hs : slice b 0 32 = slice b' 0 32) : readU32 b off = readU32 b' off := by
  unfold readU32
  rw [getRange_of_le (by omega) (by omega), getRange_of_le (by omega) (by omega)]
  have e : ∀ x : Bytes, slice x off 4 = slice (slice x 0 32) off 4 := by
    intro x; rw [slice_slice _ _ _ _ _ h, Nat.zero_add]
  simp only [Nat.add_sub_cancel_left]
  rw [e b, e b', hs]

/-- The header depends on the first 32 bytes only. -/
theorem parse_congr {b' : Bytes} (hl : 32 ≤ b.length) (hl' : 32 ≤ b'.length) (hs : slice b 0 32 = slice b' 0 32) :
    WalHeader.parse b = WalHeader.parse b' := by
  have h24 : slice b 0 24 = slice b' 0 24 := by
    have e : ∀ x : Bytes, slice x 0 24 = slice (slice x 0 32) 0 24 := by
      intro x; rw [slice_slice _ _ _ _ _ (by omega)]
    rw [e b, e b', hs]
  unfold WalHeader.parse
  rw [if_neg (by simp only [headerLen]; omega), if_neg (by simp only [headerLen]; omega), h24]
  have r : ∀ off, off + 4 ≤ 32 → readU32 b off = readU32 b' off := fun off h =>
    readU32_congr h hl hl' hs
  rw [r 0 (by omega), r 4 (by omega), r 8 (by omega), r 12 (by omega), r 16 (by omega),
    r 20 (by omega), r 24 (by omega), r 28 (by omega)]

theorem parse_length (hp : WalHeader.parse b = .ok h) : 32 ≤ b.length := by
  unfold WalHeader.parse at hp
  split at hp
  · cases hp
  · simp only [headerLen] at *; omega

theorem readU32_of_le (h : off + 4 ≤ b.length) : readU32 b off = .ok (ofBe32 (slice b off 4)) := by
  simp only [readU32, getRange_of_le (show off ≤ off + 4 by omega) h, Nat.add_sub_cancel_left]

theorem parse_of_le (h : 32 ≤ b.length) : WalHeader.parse b = (nativeOfMagic (ofBe32 (slice b 0 4))).bind fun native =>
      let pageSize := ofBe32 (slice b 8 4)
      if pageSize < 512 ∨ isPowerOfTwo pageSize = false ∨ pageSize > 65536 then
        .error (.invalidPageSize pageSize)
      else
        let stored := (ofBe32 (slice b 24 4), ofBe32 (slice b 28 4))
        let computed := checksum native (slice b 0 24) (0, 0)
        if computed ≠ stored then .error (.headerChecksumMismatch stored computed)
        else .ok ⟨native, pageSize, ofBe32 (slice b 16 4), ofBe32 (slice b 20 4), ofBe32 (slice b 4 4),
          ofBe32 (slice b 12 4), stored⟩ := by
  unfold WalHeader.parse
  rw [if_neg (by simp only [headerLen]; omega)]
  simp (disch := omega) only [readU32_of_le, bind, Except.bind]

theorem parse_salts {hd : WalHeader} (h : WalHeader.parse b = .ok hd) :
    hd.salt1 = ofBe32 (slice b 16 4) ∧ hd.salt2 = ofBe32 (slice b 20 4) := by
  rw [parse_of_le (parse_length h)] at h
  cases hn : nativeOfMagic (ofBe32 (slice b 0 4)) with
  | error e => rw [hn] at h; cases h
  | ok native =>
    rw [hn] at h
    simp only [Except.bind] at h
    split at h
    · cases h
    · split at h
      · cases h
      · cases h; exact ⟨rfl, rfl⟩

/-- Parsing never fails as a missing file does. -/
theorem parse_ne_notFound (b : Bytes) : WalHeader.parse b ≠ .error .notFound := by
  intro h
  by_cases hl : 32 ≤ b.length
  · rw [parse_of_le hl] at h
    unfold nativeOfMagic at h
    grind [Except.bind]
  · rw [WalHeader.parse, if_pos (by simp only [headerLen]; omega)] at h
    cases h

/-! ## Frames -/

/-- One WAL frame: page number, database size after the commit (0 when the
frame does not commit) and page content. -/
structure Frame where
  pageNumber : UInt32
  dbSize : UInt32
  content : Bytes
  deriving DecidableEq

/-- The running checksum after frame `f`. -/
def WalHeader.frameSum (h : WalHeader) (running : UInt32 × UInt32) (f : Frame) : UInt32 × UInt32 :=
  checksum h.nativeChecksum f.content
    (checksum h.nativeChecksum (be32 f.pageNumber ++ be32 f.dbSize) running)

/-- One iteration's checks in the frame walk of `committed_pages` and
`last_valid_frame_state` (the two loops make the same ones): a whole frame
with the header's salts whose checksum continues `running`. Returns the
frame and the checksum after it; `none` is the source's `break`.
mirrors wal.rs:317-355,407-437 -/
def nextFrame (h : WalHeader) (wal : Bytes) (offset : Nat) (running : UInt32 × UInt32) :
    Option (Frame × (UInt32 × UInt32)) :=
  if offset + h.frameSize ≤ wal.length then do
    let fh ← getRange wal offset (offset + frameHeaderLen)
    let pageNumber ← readU32Opt fh 0
    let dbSize ← readU32Opt fh 4
    let salt1 ← readU32Opt fh 8
    let salt2 ← readU32Opt fh 12
    let c1 ← readU32Opt fh 16
    let c2 ← readU32Opt fh 20
    if salt1 ≠ h.salt1 ∨ salt2 ≠ h.salt2 then none else do
    let content ← getRange wal (offset + frameHeaderLen) (offset + h.frameSize)
    let fhHeader ← getRange fh 0 8
    let afterHeader := checksum h.nativeChecksum fhHeader running
    let afterPage := checksum h.nativeChecksum content afterHeader
    if afterPage ≠ (c1, c2) then none else some (⟨pageNumber, dbSize, content⟩, afterPage)
  else none

/-- The bytes `append_frame` writes for `f`.
mirrors wal.rs:511-534 -/
def encodeFrame (h : WalHeader) (running : UInt32 × UInt32) (f : Frame) : Bytes :=
  let afterPage := h.frameSum running f
  be32 f.pageNumber ++ be32 f.dbSize ++ be32 h.salt1 ++ be32 h.salt2 ++ be32 afterPage.1 ++
    be32 afterPage.2 ++ f.content

@[simp] theorem encodeFrame_length (h : WalHeader) (r : UInt32 × UInt32) (f : Frame) :
    (encodeFrame h r f).length = frameHeaderLen + f.content.length := by
  simp [encodeFrame, frameHeaderLen]; omega

/-- The walk's checks as a function of the frame's own bytes. -/
def decodeFrame (h : WalHeader) (fb : Bytes) (running : UInt32 × UInt32) :
    Option (Frame × (UInt32 × UInt32)) :=
  let f : Frame := ⟨ofBe32 (slice fb 0 4), ofBe32 (slice fb 4 4), slice fb 24 h.pageSize.toNat⟩
  let after := checksum h.nativeChecksum f.content (checksum h.nativeChecksum (slice fb 0 8) running)
  if (ofBe32 (slice fb 8 4) = h.salt1 ∧ ofBe32 (slice fb 12 4) = h.salt2) ∧
      after = (ofBe32 (slice fb 16 4), ofBe32 (slice fb 20 4)) then some (f, after) else none

theorem readU32Opt_eq (h : off + 4 ≤ b.length) : readU32Opt b off = some (ofBe32 (slice b off 4)) := by
  simp only [readU32Opt, getRange_of_le (show off ≤ off + 4 by omega) h, Option.map_some,
    Nat.add_sub_cancel_left]

theorem nextFrame_eq (h : WalHeader) (wal : Bytes) (offset : Nat) (running : UInt32 × UInt32) :
    nextFrame h wal offset running =
      if offset + h.frameSize ≤ wal.length then decodeFrame h (slice wal offset h.frameSize) running
      else none := by
  unfold nextFrame
  by_cases hl : offset + h.frameSize ≤ wal.length
  · rw [if_pos hl, if_pos hl]
    have hfs : h.frameSize = 24 + h.pageSize.toNat := rfl
    have hfh : (slice wal offset frameHeaderLen).length = 24 :=
      slice_length_of_le (by simp only [frameHeaderLen]; omega)
    rw [getRange_of_le (by omega) (by simp only [frameHeaderLen]; omega), Nat.add_sub_cancel_left]
    simp only [Option.bind_eq_bind, Option.bind_some]
    rw [readU32Opt_eq (by omega), readU32Opt_eq (by omega), readU32Opt_eq (by omega),
      readU32Opt_eq (by omega), readU32Opt_eq (by omega), readU32Opt_eq (by omega),
      getRange_of_le (by simp only [frameHeaderLen]; omega) (by omega),
      getRange_of_le (by omega) (by omega)]
    have e : offset + h.frameSize - (offset + frameHeaderLen) = h.pageSize.toNat := by
      simp only [frameHeaderLen]; omega
    have s : ∀ o l, o + l ≤ 24 →
        slice (slice wal offset frameHeaderLen) o l = slice (slice wal offset h.frameSize) o l := by
      intro o l hol
      rw [slice_slice _ _ _ _ _ (by simp only [frameHeaderLen]; omega),
        slice_slice _ _ _ _ _ (by omega)]
    rw [e, s 0 4 (by omega), s 4 4 (by omega), s 8 4 (by omega), s 12 4 (by omega),
      s 16 4 (by omega), s 20 4 (by omega), s 0 (8 - 0) (by omega),
      ← slice_slice wal offset h.frameSize frameHeaderLen h.pageSize.toNat (by
        simp only [frameHeaderLen]; omega)]
    simp only [Option.bind_some, decodeFrame, frameHeaderLen, Nat.sub_zero]
    grind
  · rw [if_neg hl, if_neg hl]

theorem decodeFrame_encodeFrame (h : WalHeader) (r : UInt32 × UInt32) (f : Frame)
    (hc : f.content.length = h.pageSize.toNat) :
    decodeFrame h (encodeFrame h r f) r = some (f, h.frameSum r f) := by
  have e1 : slice (encodeFrame h r f) 0 4 = be32 f.pageNumber := by simp [encodeFrame, slice, be32]
  have e2 : slice (encodeFrame h r f) 4 4 = be32 f.dbSize := by simp [encodeFrame, slice, be32]
  have e3 : slice (encodeFrame h r f) 8 4 = be32 h.salt1 := by simp [encodeFrame, slice, be32]
  have e4 : slice (encodeFrame h r f) 12 4 = be32 h.salt2 := by simp [encodeFrame, slice, be32]
  have e5 : slice (encodeFrame h r f) 16 4 = be32 (h.frameSum r f).1 := by
    simp [encodeFrame, slice, be32]
  have e6 : slice (encodeFrame h r f) 20 4 = be32 (h.frameSum r f).2 := by
    simp [encodeFrame, slice, be32]
  have e7 : slice (encodeFrame h r f) 0 8 = be32 f.pageNumber ++ be32 f.dbSize := by
    simp [encodeFrame, slice, be32]
  have e8 : slice (encodeFrame h r f) 24 h.pageSize.toNat = f.content := by
    simp [encodeFrame, slice, be32, ← hc]
  simp only [decodeFrame, e1, e2, e3, e4, e5, e6, e7, e8, ofBe32_be32]
  simp [WalHeader.frameSum]

theorem nextFrame_content_length {wal : Bytes} {r r' : UInt32 × UInt32} {f : Frame}
    (hn : nextFrame h wal off r = some (f, r')) :
    off + h.frameSize ≤ wal.length ∧ f.content.length = h.pageSize.toNat := by
  rw [nextFrame_eq] at hn
  split at hn
  · rename_i hl
    refine ⟨hl, ?_⟩
    simp only [decodeFrame] at hn
    split at hn
    · simp only [Option.some.injEq, Prod.mk.injEq] at hn
      rw [← hn.1, slice_length_of_le]
      rw [slice_length_of_le hl]
      exact Nat.le_refl _
    · cases hn
  · cases hn

/-- The walk's step depends only on the file's bytes at the frame. -/
theorem nextFrame_congr {wal wal' : Bytes} (r : UInt32 × UInt32)
    (hl : off + h.frameSize ≤ wal.length ↔ off + h.frameSize ≤ wal'.length)
    (hs : off + h.frameSize ≤ wal.length → slice wal off h.frameSize = slice wal' off h.frameSize) :
    nextFrame h wal off r = nextFrame h wal' off r := by
  rw [nextFrame_eq, nextFrame_eq]
  by_cases hw : off + h.frameSize ≤ wal.length
  · rw [if_pos hw, if_pos (hl.1 hw), hs hw]
  · rw [if_neg hw, if_neg (fun h => hw (hl.2 h))]

/-- The page sizes a WAL header may declare. -/
def validPageSize (pageSize : UInt32) : Prop :=
  ¬ (pageSize < 512 ∨ isPowerOfTwo pageSize = false ∨ pageSize > 65536)

instance (pageSize : UInt32) : Decidable (validPageSize pageSize) :=
  inferInstanceAs (Decidable (¬ _))

theorem parse_pageSize (hp : WalHeader.parse b = .ok h) : validPageSize h.pageSize := by
  unfold WalHeader.parse at hp
  simp only [bind, Except.bind] at hp
  repeat' split at hp
  all_goals first
    | cases hp; done
    | (cases hp; assumption)

theorem validPageSize.pos {ps : UInt32} (h : validPageSize ps) : 0 < ps.toNat := by
  unfold validPageSize at h
  have : ¬ ps < 512 := fun hl => h (.inl hl)
  rw [UInt32.lt_iff_toNat_lt] at this
  have : (512 : UInt32).toNat = 512 := rfl
  omega

/-- A header built by `WalHeader.new` parses back from its own bytes. -/
theorem parse_serialize (native : Bool) (ps s1 s2 seq : UInt32) (hps : validPageSize ps) :
    WalHeader.parse (WalHeader.new native ps s1 s2 seq).serialize =
      .ok (WalHeader.new native ps s1 s2 seq) := by
  generalize hh : WalHeader.new native ps s1 s2 seq = h
  have hsum : h.headerChecksum = checksum h.nativeChecksum (slice h.serialize 0 24) (0, 0) := by
    subst hh; simp [WalHeader.new, WalHeader.serialize, slice, be32]
  have hpage : validPageSize h.pageSize := by subst hh; exact hps
  have e0 : slice h.serialize 0 4 = be32 (if h.nativeChecksum then 0x377f0682 else 0x377f0683) := by
    simp [WalHeader.serialize, slice, be32]
  have e1 : slice h.serialize 4 4 = be32 h.formatVersion := by simp [WalHeader.serialize, slice, be32]
  have e2 : slice h.serialize 8 4 = be32 h.pageSize := by simp [WalHeader.serialize, slice, be32]
  have e3 : slice h.serialize 12 4 = be32 h.checkpointSeq := by
    simp [WalHeader.serialize, slice, be32]
  have e4 : slice h.serialize 16 4 = be32 h.salt1 := by simp [WalHeader.serialize, slice, be32]
  have e5 : slice h.serialize 20 4 = be32 h.salt2 := by simp [WalHeader.serialize, slice, be32]
  have e6 : slice h.serialize 24 4 = be32 h.headerChecksum.1 := by
    simp [WalHeader.serialize, slice, be32]
  have e7 : slice h.serialize 28 4 = be32 h.headerChecksum.2 := by
    simp [WalHeader.serialize, slice, be32]
  have hl : h.serialize.length = 32 := serialize_length h
  unfold WalHeader.parse
  rw [if_neg (by rw [hl, headerLen]; omega), readU32_of_le (by omega), readU32_of_le (by omega),
    readU32_of_le (by omega), readU32_of_le (by omega), readU32_of_le (by omega), readU32_of_le (by omega),
    readU32_of_le (by omega), readU32_of_le (by omega), e0, e1, e2, e3, e4, e5, e6, e7]
  simp only [ofBe32_be32]
  unfold validPageSize at hpage
  have hm : nativeOfMagic (if h.nativeChecksum then 0x377f0682 else 0x377f0683) =
      .ok h.nativeChecksum := by
    cases h.nativeChecksum <;> decide
  simp only [hm, bind, Except.bind, if_neg hpage, ← hsum, ne_eq, not_true, if_false]

end DbStorage.Wal
