import DbStorage.Record.Text

/-!
# Records (`record/encode.rs`, `record/decode.rs`)

A record is a header, its own length and one serial type for each column as
varints, followed by the bodies of the columns. A real is its 64 bits.

Results: `decodeRecord_encodeRecord` (what is encoded is decoded again),
`encodeVarint_minimal` and `integerSerialType_minimal` (no shorter form is
read as the same number), put together in `record_codec`.
-/
namespace DbStorage.Record
open Bytes List

inductive Value where
  | null
  | integer (i : Int64)
  | real (bits : UInt64)
  | text (s : List Char)
  | blob (b : Bytes)
  deriving DecidableEq

/-- `f64::is_nan` -/
def isNan (bits : UInt64) : Bool := bits.toNat / 2 ^ 52 % 2 ^ 11 == 2 ^ 11 - 1 && bits.toNat % 2 ^ 52 != 0

/-! ## Encoding -/

/-- The low `k` bytes of a number, the highest first. -/
def beBytes : Nat → Nat → Bytes
  | 0, _ => []
  | k + 1, n => UInt8.ofNat (n / 256 ^ k) :: beBytes k n

/-- mirrors encode.rs:85-103 -/
def integerSerialType (i : Int64) : Nat :=
  let n := i.toInt
  if n = 0 then 8
  else if n = 1 then 9
  else if -2 ^ 7 ≤ n ∧ n < 2 ^ 7 then 1
  else if -2 ^ 15 ≤ n ∧ n < 2 ^ 15 then 2
  else if -2 ^ 23 ≤ n ∧ n ≤ 2 ^ 23 - 1 then 3
  else if -2 ^ 31 ≤ n ∧ n < 2 ^ 31 then 4
  else if -2 ^ 47 ≤ n ∧ n ≤ 2 ^ 47 - 1 then 5
  else 6

/-- The bytes of the body of an integer with this serial type. -/
def integerWidth (serialType : Nat) : Nat :=
  match serialType with
  | 1 => 1
  | 2 => 2
  | 3 => 3
  | 4 => 4
  | 5 => 6
  | 6 => 8
  | _ => 0

/-- mirrors encode.rs:117-127 -/
def writeIntegerBody (i : Int64) (serialType : Nat) : Bytes := beBytes (integerWidth serialType) i.toUInt64.toNat

/-- mirrors encode.rs:150-152 -/
def blobSerialType (len : Nat) : Nat := min (12 + 2 * len) (2 ^ 64 - 1)

/-- mirrors encode.rs:154-156 -/
def textSerialType (len : Nat) : Nat := min (13 + 2 * len) (2 ^ 64 - 1)

/-- The serial type; `serialTypeAndBodyLen` has the length that is reported
with it.
mirrors encode.rs:163-177 -/
def serialType (value : Value) (encoding : TextEncoding) : Nat :=
  match value with
  | .null => 0
  | .integer i => integerSerialType i
  | .real _ => 7
  | .blob b => blobSerialType b.length
  | .text s => textSerialType (encodedTextLen s encoding)

/-- mirrors encode.rs:179-187 -/
def writeBody (value : Value) (serialType : Nat) (encoding : TextEncoding) : Bytes :=
  match value with
  | .null => []
  | .integer i => writeIntegerBody i serialType
  | .real bits => beBytes 8 bits.toNat
  | .blob b => b
  | .text s => writeTextBody s encoding

/-- `usize::saturating_add` -/
def saturatingAdd (a b : Nat) : Nat := min (a + b) (2 ^ 64 - 1)

/-- mirrors encode.rs:228-233 -/
def headerBodyLen (serialTypes : List Nat) : Nat :=
  serialTypes.foldl (fun len st => saturatingAdd len (varintLen st)) 0

/-- The varint of the header's length has at most nine bytes, so the loop
ends after at most eight steps.
mirrors encode.rs:237-241 -/
def growHeaderLen (bodyLen : Nat) : Nat → Nat → Nat
  | 0, headerLen => headerLen
  | n + 1, headerLen =>
    if saturatingAdd (varintLen headerLen) bodyLen ≠ headerLen then growHeaderLen bodyLen n (saturatingAdd headerLen 1)
    else headerLen

/-- The length of the header, which counts its own varint. -/
def headerLen (serialTypes : List Nat) : Nat :=
  growHeaderLen (headerBodyLen serialTypes) 8 (saturatingAdd (headerBodyLen serialTypes) 1)

/-- mirrors encode.rs:195-251 -/
def encodeRecord (values : List Value) (encoding : TextEncoding) : Bytes :=
  let serialTypes := values.map (serialType · encoding)
  encodeVarint (headerLen serialTypes) ++ (serialTypes.flatMap encodeVarint ++
    (values.zip serialTypes).flatMap fun (value, st) => writeBody value st encoding)

/-! ## Decoding -/

/-- mirrors decode.rs:278-288 -/
def decodeVarintAt (buf : Bytes) (pos : Nat) : Except RecordError (Nat × Nat) :=
  if pos ≤ buf.length then
    match decodeVarint (buf.drop pos) with
    | .error (.unexpectedEof offset) => .error (.unexpectedEof (pos + offset))
    | r => r
  else .error (.unexpectedEof pos)

/-- mirrors decode.rs:290-296 -/
def takeBytes (buf : Bytes) (pos len : Nat) : Except RecordError Bytes :=
  match buf.getRange pos (pos + len) with
  | some b => .ok b
  | none => .error (.unexpectedEof pos)

/-- The number that bytes hold, the highest first. -/
def beNat (b : Bytes) : Nat := b.foldl (fun v x => v * 256 + x.toNat) 0

/-- A number of `k` bytes with its sign. -/
def signExtend (k n : Nat) : Int64 := Int64.ofInt (if n < 2 ^ (8 * k - 1) then n else (n : Int) - 256 ^ k)

/-- mirrors decode.rs:317-357 -/
def decodeInteger (buf : Bytes) (pos k : Nat) : Except RecordError (Value × Nat) := do
  let b ← takeBytes buf pos k
  .ok (.integer (signExtend k (beNat b)), k)

/-- mirrors decode.rs:309-390 -/
def decodeSerialValue (serialType : Nat) (buf : Bytes) (pos : Nat) (encoding : TextEncoding) :
    Except RecordError (Value × Nat) :=
  match serialType with
  | 0 => .ok (.null, 0)
  | 1 => decodeInteger buf pos 1
  | 2 => decodeInteger buf pos 2
  | 3 => decodeInteger buf pos 3
  | 4 => decodeInteger buf pos 4
  | 5 => decodeInteger buf pos 6
  | 6 => decodeInteger buf pos 8
  | 7 => do
    let b ← takeBytes buf pos 8
    let bits := UInt64.ofNat (beNat b)
    if isNan bits then .ok (.null, 8) else .ok (.real bits, 8)
  | 8 => .ok (.integer 0, 0)
  | 9 => .ok (.integer 1, 0)
  | 10 => .ok (.null, 0)
  | 11 => .ok (.null, 0)
  | n =>
    if n % 2 = 0 then do
      let len := (n - 12) / 2
      let b ← takeBytes buf pos len
      .ok (.blob b, len)
    else do
      let len := (n - 13) / 2
      let b ← takeBytes buf pos len
      let s ← decodeText b encoding
      .ok (.text s, len)

/-- The serial types from `pos` on. Each takes a byte of the payload, so the
payload's length is enough fuel.
mirrors decode.rs:23-40 -/
def decodeSerialTypes (payload : Bytes) (headerLen : Nat) : Nat → Nat → Except RecordError (List Nat)
  | 0, pos => .error (.unexpectedEof pos)
  | n + 1, pos =>
    if pos < headerLen then do
      let (serialType, len) ← decodeVarintAt payload pos
      if headerLen < pos + len then .error (.headerOverrun pos headerLen)
      else do
        let rest ← decodeSerialTypes payload headerLen n (pos + len)
        .ok (serialType :: rest)
    else .ok []

/-- The values of the bodies from `bodyPos` on, and where the last one ends.
mirrors decode.rs:42-48 -/
def decodeBodies (payload : Bytes) (encoding : TextEncoding) : List Nat → Nat → Except RecordError (List Value × Nat)
  | [], bodyPos => .ok ([], bodyPos)
  | serialType :: serialTypes, bodyPos => do
    let (value, len) ← decodeSerialValue serialType payload bodyPos encoding
    let (values, stop) ← decodeBodies payload encoding serialTypes (bodyPos + len)
    .ok (value :: values, stop)

/-- mirrors decode.rs:13-55 -/
def decodeRecord (payload : Bytes) (encoding : TextEncoding) : Except RecordError (List Value) := do
  let (headerLen, n) ← decodeVarintAt payload 0
  if headerLen < n then .error (.headerTooShort headerLen n)
  else do
    let serialTypes ← decodeSerialTypes payload headerLen (payload.length + 1) n
    let (values, bodyPos) ← decodeBodies payload encoding serialTypes headerLen
    if bodyPos ≠ payload.length then .error (.trailingData (payload.length - bodyPos))
    else .ok values

/-! ## Varints -/

variable {v k pos len : Nat} {buf : Bytes} {i : Int64} {encoding : TextEncoding} {serialTypes : List Nat}
  {values : List Value}

theorem decodeVarintLoop_bound {n i acc : Nat} (h : decodeVarintLoop n i acc buf = .ok (v, k)) :
    i < k ∧ k ≤ i + n + 1 ∧ (k ≤ i + n → v < (acc + 1) * 128 ^ (k - i)) := by
  induction n generalizing i acc buf with
  | zero =>
    cases buf with
    | nil => cases h
    | cons byte rest =>
      cases h
      exact ⟨Nat.lt_succ_self i, Nat.le_refl _, fun hk => absurd hk (by omega)⟩
  | succ n ih =>
    cases buf with
    | nil => cases h
    | cons byte rest =>
      have hmod : byte.toNat % 128 < 128 := Nat.mod_lt _ (by decide)
      rw [decodeVarintLoop] at h
      split at h
      · cases h
        refine ⟨Nat.lt_succ_self i, by omega, fun _ => ?_⟩
        rw [Nat.add_sub_cancel_left, Nat.pow_one]
        omega
      · obtain ⟨h1, h2, h3⟩ := ih h
        refine ⟨by omega, by omega, fun hk => ?_⟩
        have hlt := h3 (by omega)
        have hpow : 128 ^ (k - i) = 128 * 128 ^ (k - (i + 1)) := by
          rw [← Nat.pow_succ', show (k - (i + 1)).succ = k - i by omega]
        calc v < (acc * 128 + byte.toNat % 128 + 1) * 128 ^ (k - (i + 1)) := hlt
          _ ≤ ((acc + 1) * 128) * 128 ^ (k - (i + 1)) := Nat.mul_le_mul_right _ (by omega)
          _ = (acc + 1) * 128 ^ (k - i) := by rw [hpow, Nat.mul_assoc]

/-- No bytes that are read as `v` are fewer than those of its encoding. -/
theorem encodeVarint_minimal (h : decodeVarint buf = .ok (v, k)) : (encodeVarint v).length ≤ k := by
  obtain ⟨h1, h2, h3⟩ := decodeVarintLoop_bound h
  rw [encodeVarint_length]
  by_cases hk : k ≤ 8
  · have hv := h3 (by omega)
    rw [Nat.zero_add, Nat.one_mul, Nat.sub_zero, show 128 = 2 ^ 7 from rfl, ← Nat.pow_mul] at hv
    exact varintLen_le h1 hv hk
  · have := varintLen_bounds v
    omega

theorem decodeVarintAt_encode (hv : v < 2 ^ 64) (pre rest : Bytes) :
    decodeVarintAt (pre ++ (encodeVarint v ++ rest)) pre.length = .ok (v, varintLen v) := by
  rw [decodeVarintAt, if_pos (by rw [length_append]; omega), drop_left, decodeVarint_encode hv]

/-! ## Integers -/

theorem beBytes_length (k n : Nat) : (beBytes k n).length = k := by
  induction k with
  | zero => rfl
  | succ k ih => rw [beBytes, length_cons, ih]

theorem foldl_beBytes (k n acc : Nat) :
    (beBytes k n).foldl (fun v x => v * 256 + x.toNat) acc = acc * 256 ^ k + n % 256 ^ k := by
  induction k generalizing acc with
  | zero => simp [beBytes, Nat.mod_one]
  | succ k ih =>
    have hmod : n % 256 ^ (k + 1) = n % 256 ^ k + 256 ^ k * (n / 256 ^ k % 256) := Nat.mod_pow_succ
    have hbyte : n / 256 ^ k % 2 ^ 8 = n / 256 ^ k % 256 := rfl
    rw [beBytes, foldl_cons, ih, UInt8.toNat_ofNat', hbyte, hmod, Nat.add_mul, Nat.mul_assoc,
      ← Nat.pow_succ', Nat.mul_comm (n / 256 ^ k % 256)]
    change acc * 256 ^ (k + 1) + _ + _ = _
    omega

theorem beNat_beBytes (k n : Nat) : beNat (beBytes k n) = n % 256 ^ k := by
  rw [beNat, foldl_beBytes, Nat.zero_mul, Nat.zero_add]

/-- An integer of `k` bytes is its low `k` bytes with the sign. -/
theorem signExtend_low (hk : k = 1 ∨ k = 2 ∨ k = 3 ∨ k = 4 ∨ k = 6 ∨ k = 8) (hlo : -2 ^ (8 * k - 1) ≤ i.toInt)
    (hhi : i.toInt < 2 ^ (8 * k - 1)) : signExtend k (i.toUInt64.toNat % 256 ^ k) = i := by
  have hcond : i.toInt = if 2 * i.toUInt64.toNat < 2 ^ 64 then (i.toUInt64.toNat : Int) else i.toUInt64.toNat - 2 ^ 64 :=
    BitVec.toInt_eq_toNat_cond i.toBitVec
  have hlt : i.toUInt64.toNat < 2 ^ 64 := i.toUInt64.toNat_lt
  have hval : (if i.toUInt64.toNat % 256 ^ k < 2 ^ (8 * k - 1) then ((i.toUInt64.toNat % 256 ^ k : Nat) : Int)
      else (i.toUInt64.toNat % 256 ^ k : Nat) - 256 ^ k) = i.toInt := by
    generalize i.toUInt64.toNat = u at *
    generalize i.toInt = n at *
    rcases hk with rfl | rfl | rfl | rfl | rfl | rfl <;>
      simp only [Nat.reduceMul, Nat.reduceSub, Nat.reducePow, Int.reducePow, Int.reduceNeg] at * <;>
      split at hcond <;> split <;> omega
  rw [signExtend, hval, Int64.ofInt_toInt]

theorem integerSerialType_range (i : Int64) :
    integerSerialType i = 8 ∧ i.toInt = 0 ∨ integerSerialType i = 9 ∧ i.toInt = 1 ∨
      (integerWidth (integerSerialType i) = 1 ∨ integerWidth (integerSerialType i) = 2 ∨
        integerWidth (integerSerialType i) = 3 ∨ integerWidth (integerSerialType i) = 4 ∨
        integerWidth (integerSerialType i) = 6 ∨ integerWidth (integerSerialType i) = 8) ∧
      -2 ^ (8 * integerWidth (integerSerialType i) - 1) ≤ i.toInt ∧
      i.toInt < 2 ^ (8 * integerWidth (integerSerialType i) - 1) := by
  have hlo : -2 ^ 63 ≤ i.toInt := Int64.le_toInt i
  have hhi : i.toInt < 2 ^ 63 := Int64.toInt_lt i
  unfold integerSerialType
  dsimp only
  split
  · left; exact ⟨rfl, ‹_›⟩
  split
  · right; left; exact ⟨rfl, ‹_›⟩
  right; right
  split
  · simp [integerWidth]; omega
  split
  · simp [integerWidth]; omega
  split
  · simp [integerWidth]; omega
  split
  · simp [integerWidth]; omega
  split
  · simp [integerWidth]; omega
  · simp [integerWidth]; omega

theorem decodeSerialValue_width {st : Nat} (hk : integerWidth st = k) (h0 : k ≠ 0) (buf : Bytes) (pos : Nat)
    (encoding : TextEncoding) : decodeSerialValue st buf pos encoding = decodeInteger buf pos k := by
  unfold integerWidth at hk
  split at hk <;> first | (subst hk; rfl) | exact absurd hk.symm h0

theorem signExtend_range (k n : Nat) (hk : k = 1 ∨ k = 2 ∨ k = 3 ∨ k = 4 ∨ k = 6 ∨ k = 8) (hn : n < 256 ^ k) :
    -2 ^ (8 * k - 1) ≤ (signExtend k n).toInt ∧ (signExtend k n).toInt < 2 ^ (8 * k - 1) := by
  unfold signExtend
  rw [Int64.toInt_ofInt_of_le]
  all_goals
    rcases hk with rfl | rfl | rfl | rfl | rfl | rfl <;>
      simp only [Nat.reduceMul, Nat.reduceSub, Nat.reducePow, Int.reducePow, Int.reduceNeg] at * <;> split <;> omega

theorem beNat_lt (b : Bytes) : beNat b < 256 ^ b.length := by
  have hgen : ∀ (b : Bytes) (acc : Nat),
      b.foldl (fun v x => v * 256 + x.toNat) acc < (acc + 1) * 256 ^ b.length := by
    intro b
    induction b with
    | nil => intro acc; simp
    | cons x b ih =>
      intro acc
      have hx : x.toNat < 256 := x.toNat_lt
      calc (x :: b).foldl (fun v x => v * 256 + x.toNat) acc
          < (acc * 256 + x.toNat + 1) * 256 ^ b.length := ih _
        _ ≤ ((acc + 1) * 256) * 256 ^ b.length := Nat.mul_le_mul_right _ (by omega)
        _ = (acc + 1) * 256 ^ (x :: b).length := by
          rw [Nat.mul_assoc, length_cons, ← Nat.pow_succ']
  simpa [beNat] using hgen b 0

theorem takeBytes_ok {b : Bytes} (h : takeBytes buf pos len = .ok b) : b.length = len := by
  unfold takeBytes getRange at h
  split at h
  · rename_i c hc
    cases h
    split at hc
    · cases hc
      rw [slice_length_of_le (by omega)]
      omega
    · cases hc
  · cases h

/-- An integer that `k` bytes hold gets a serial type of at most `k` bytes. -/
theorem integerWidth_le (hk : k = 1 ∨ k = 2 ∨ k = 3 ∨ k = 4 ∨ k = 6 ∨ k = 8) (hlo : -2 ^ (8 * k - 1) ≤ i.toInt)
    (hhi : i.toInt < 2 ^ (8 * k - 1)) : integerWidth (integerSerialType i) ≤ k := by
  rcases hk with rfl | rfl | rfl | rfl | rfl | rfl <;>
    simp only [Nat.reduceMul, Nat.reduceSub, Int.reducePow, Int.reduceNeg] at hlo hhi <;>
    unfold integerSerialType <;> dsimp only <;> repeat' split
  all_goals first | decide | omega

theorem decodeInteger_minimal (hk : k = 1 ∨ k = 2 ∨ k = 3 ∨ k = 4 ∨ k = 6 ∨ k = 8)
    (h : decodeInteger buf pos k = .ok (.integer i, len)) : integerWidth (integerSerialType i) ≤ len := by
  unfold decodeInteger at h
  cases hb : takeBytes buf pos k with
  | error e => rw [hb] at h; cases h
  | ok b =>
    rw [hb] at h
    cases h
    have hlt := beNat_lt b
    rw [takeBytes_ok hb] at hlt
    obtain ⟨hlo, hhi⟩ := signExtend_range k (beNat b) hk hlt
    exact integerWidth_le hk hlo hhi

/-- No serial type that is read as `i` has a shorter body than the one that
is written. -/
theorem integerSerialType_minimal {st : Nat} (h : decodeSerialValue st buf pos encoding = .ok (.integer i, len)) :
    integerWidth (integerSerialType i) ≤ len := by
  unfold decodeSerialValue at h
  split at h
  case h_2 | h_3 | h_4 | h_5 | h_6 | h_7 => exact decodeInteger_minimal (by decide) h
  case h_9 | h_10 => cases h; decide
  case h_1 | h_11 | h_12 => cases h
  case h_8 =>
    cases hb : takeBytes buf pos 8 with
    | error e => rw [hb] at h; cases h
    | ok b =>
      rw [hb] at h
      dsimp only [bind, Except.bind] at h
      split at h <;> cases h
  case h_13 =>
    split at h
    · cases hb : takeBytes buf pos ((st - 12) / 2) with
      | error e => simp only [hb] at h; cases h
      | ok b => simp only [hb] at h; cases h
    · cases hb : takeBytes buf pos ((st - 13) / 2) with
      | error e => simp only [hb] at h; cases h
      | ok b =>
        simp only [hb] at h
        dsimp only [bind, Except.bind] at h
        cases ht : decodeText b encoding with
        | error e => rw [ht] at h; cases h
        | ok t => rw [ht] at h; cases h

/-! ## Bodies -/

theorem takeBytes_append (pre b rest : Bytes) : takeBytes (pre ++ (b ++ rest)) pre.length b.length = .ok b := by
  have hget : getRange (pre ++ (b ++ rest)) pre.length (pre.length + b.length) = some b := by
    rw [getRange_of_le (Nat.le_add_right _ _) (by simp only [length_append]; omega), Nat.add_sub_cancel_left]
    exact congrArg some (holds_append_right pre b rest)
  rw [takeBytes, hget]

theorem decodeInteger_low (hk : k = 1 ∨ k = 2 ∨ k = 3 ∨ k = 4 ∨ k = 6 ∨ k = 8) (hlo : -2 ^ (8 * k - 1) ≤ i.toInt)
    (hhi : i.toInt < 2 ^ (8 * k - 1)) (pre rest : Bytes) :
    decodeInteger (pre ++ (beBytes k i.toUInt64.toNat ++ rest)) pre.length k = .ok (.integer i, k) := by
  have htake := takeBytes_append pre (beBytes k i.toUInt64.toNat) rest
  rw [beBytes_length] at htake
  unfold decodeInteger
  rw [htake]
  dsimp only [bind, Except.bind]
  rw [beNat_beBytes, signExtend_low hk hlo hhi]

theorem decodeSerialValue_ge {n : Nat} (h : 12 ≤ n) (buf : Bytes) (pos : Nat) (encoding : TextEncoding) :
    decodeSerialValue n buf pos encoding =
      (if n % 2 = 0 then do
        let b ← takeBytes buf pos ((n - 12) / 2)
        .ok (.blob b, (n - 12) / 2)
      else do
        let b ← takeBytes buf pos ((n - 13) / 2)
        let s ← decodeText b encoding
        .ok (.text s, (n - 13) / 2)) := by
  obtain ⟨m, rfl⟩ : ∃ m, n = m + 12 := ⟨n - 12, by omega⟩
  rfl

/-- A column's body is read as the value, with whatever stands around it. -/
theorem decodeSerialValue_body {value : Value} (encoding : TextEncoding) (hnan : ∀ bits, value = .real bits → ¬ isNan bits)
    (hlen : (writeBody value (serialType value encoding) encoding).length < 2 ^ 63 - 7) (pre rest : Bytes) :
    decodeSerialValue (serialType value encoding)
      (pre ++ (writeBody value (serialType value encoding) encoding ++ rest)) pre.length encoding =
      .ok (value, (writeBody value (serialType value encoding) encoding).length) := by
  cases value with
  | null => rfl
  | integer i =>
    simp only [serialType, writeBody, writeIntegerBody, beBytes_length]
    rcases integerSerialType_range i with ⟨hst, hi⟩ | ⟨hst, hi⟩ | ⟨hk, hlo, hhi⟩
    · rw [hst, show i = 0 from Int64.toInt_inj.1 hi]
      rfl
    · rw [hst, show i = 1 from Int64.toInt_inj.1 hi]
      rfl
    · rw [decodeSerialValue_width rfl (by omega), decodeInteger_low hk hlo hhi]
  | real bits =>
    have htake := takeBytes_append pre (beBytes 8 bits.toNat) rest
    rw [beBytes_length] at htake
    have hbits : UInt64.ofNat (beNat (beBytes 8 bits.toNat)) = bits := by
      have hmod : bits.toNat % 256 ^ 8 = bits.toNat := Nat.mod_eq_of_lt bits.toNat_lt
      rw [beNat_beBytes, hmod, UInt64.ofNat_toNat]
    simp only [serialType, writeBody, beBytes_length, decodeSerialValue, htake, bind, Except.bind, hbits]
    rw [if_neg (hnan bits rfl)]
  | blob b =>
    simp only [writeBody] at hlen
    have hst : blobSerialType b.length = 12 + 2 * b.length := by unfold blobSerialType; omega
    simp only [serialType, writeBody, hst]
    rw [decodeSerialValue_ge (by omega), if_pos (by omega), show (12 + 2 * b.length - 12) / 2 = b.length by omega,
      takeBytes_append]
    rfl
  | text s =>
    simp only [writeBody] at hlen
    have hst : textSerialType (encodedTextLen s encoding) = 13 + 2 * (writeTextBody s encoding).length := by
      rw [encodedTextLen_eq s encoding (by omega)]
      unfold textSerialType
      omega
    simp only [serialType, writeBody, hst]
    rw [decodeSerialValue_ge (by omega), if_neg (by omega),
      show (13 + 2 * (writeTextBody s encoding).length - 13) / 2 = (writeTextBody s encoding).length by omega,
      takeBytes_append]
    simp only [bind, Except.bind, decodeText_write]

/-! ## The header -/

theorem foldl_saturating (lens : List Nat) (acc : Nat) (h : acc + lens.sum < 2 ^ 64) :
    lens.foldl saturatingAdd acc = acc + lens.sum := by
  induction lens generalizing acc with
  | nil => rfl
  | cons len lens ih =>
    rw [sum_cons] at h ⊢
    rw [foldl_cons, saturatingAdd, Nat.min_eq_left (by omega), ih _ (by omega)]
    omega

theorem headerBodyLen_eq (h : (serialTypes.map varintLen).sum < 2 ^ 64) :
    headerBodyLen serialTypes = (serialTypes.map varintLen).sum := by
  have := foldl_saturating (serialTypes.map varintLen) 0 (by omega)
  rwa [foldl_map, Nat.zero_add] at this

theorem varintLen_mono {a b : Nat} (h : a ≤ b) : varintLen a ≤ varintLen b := by
  by_cases hb : b < 2 ^ 56
  · obtain ⟨h1, h2, h3⟩ := varintGroups_spec b 7 1 hb
    have hlen : varintLen b = varintGroups b 7 1 := if_pos hb
    rw [hlen]
    exact varintLen_le h1 (Nat.lt_of_le_of_lt h h3) (by omega)
  · have := varintLen_bounds a
    rw [show varintLen b = 9 from if_neg hb]
    omega

/-- The loop ends at a length that counts its own varint: from a length that
is too short by less than the steps left, each step keeps it so. -/
theorem growHeaderLen_spec {bodyLen : Nat} (hb : bodyLen < 2 ^ 63) (n h : Nat) (hlo : h ≤ varintLen h + bodyLen)
    (hhi : bodyLen + 9 ≤ h + n) :
    growHeaderLen bodyLen n h = varintLen (growHeaderLen bodyLen n h) + bodyLen ∧ growHeaderLen bodyLen n h < 2 ^ 64 := by
  have hv := varintLen_bounds h
  induction n generalizing h with
  | zero =>
    unfold growHeaderLen
    omega
  | succ n ih =>
    have hsat : saturatingAdd (varintLen h) bodyLen = varintLen h + bodyLen := Nat.min_eq_left (by omega)
    have hsat' : saturatingAdd h 1 = h + 1 := Nat.min_eq_left (by omega)
    unfold growHeaderLen
    rw [hsat, hsat']
    split
    · rename_i hne
      have hmono := varintLen_mono (Nat.le_add_right h 1)
      exact ih (h + 1) (by omega) (by omega) (varintLen_bounds _)
    · rename_i he
      rw [Decidable.not_not] at he
      exact ⟨he.symm, by omega⟩

theorem headerLen_spec (h : (serialTypes.map varintLen).sum < 2 ^ 63) :
    headerLen serialTypes = varintLen (headerLen serialTypes) + (serialTypes.map varintLen).sum ∧
      headerLen serialTypes < 2 ^ 64 := by
  have hbody : headerBodyLen serialTypes = (serialTypes.map varintLen).sum := headerBodyLen_eq (by omega)
  unfold headerLen
  rw [hbody]
  have hsat : saturatingAdd (serialTypes.map varintLen).sum 1 = (serialTypes.map varintLen).sum + 1 :=
    Nat.min_eq_left (by omega)
  rw [hsat]
  have := varintLen_bounds ((serialTypes.map varintLen).sum + 1)
  exact growHeaderLen_spec h 8 _ (by omega) (by omega)

theorem flatMap_encodeVarint_length (serialTypes : List Nat) :
    (serialTypes.flatMap encodeVarint).length = (serialTypes.map varintLen).sum := by
  induction serialTypes with
  | nil => rfl
  | cons st serialTypes ih =>
    rw [flatMap_cons, length_append, encodeVarint_length, ih, map_cons, sum_cons]

/-- The serial types are read back, from the end of what precedes them. -/
theorem decodeSerialTypes_encode (hst : ∀ st ∈ serialTypes, st < 2 ^ 64) (pre rest : Bytes) (n : Nat)
    (hn : serialTypes.length < n) : decodeSerialTypes (pre ++ (serialTypes.flatMap encodeVarint ++ rest))
      (pre.length + (serialTypes.map varintLen).sum) n pre.length = .ok serialTypes := by
  induction serialTypes generalizing pre n with
  | nil =>
    obtain ⟨m, rfl⟩ : ∃ m, n = m + 1 := ⟨n - 1, by rw [length_nil] at hn; omega⟩
    rw [decodeSerialTypes, if_neg (by simp)]
  | cons st serialTypes ih =>
    obtain ⟨m, rfl⟩ : ∃ m, n = m + 1 := ⟨n - 1, by omega⟩
    have hv := varintLen_bounds st
    have hrest := ih (fun x hx => hst x (mem_cons_of_mem _ hx)) (pre ++ encodeVarint st) m
      (by rw [length_cons] at hn; omega)
    rw [length_append, encodeVarint_length, append_assoc, ← append_assoc (encodeVarint st)] at hrest
    rw [flatMap_cons, map_cons, sum_cons, ← Nat.add_assoc, decodeSerialTypes, if_pos (by omega)]
    have hat := decodeVarintAt_encode (hst st mem_cons_self) pre (serialTypes.flatMap encodeVarint ++ rest)
    rw [← append_assoc (encodeVarint st)] at hat
    rw [hat]
    dsimp only [bind, Except.bind]
    rw [if_neg (by omega), hrest]

theorem decodeBodies_encode (hnan : ∀ bits, .real bits ∈ values → ¬ isNan bits)
    (hlen : ∀ value ∈ values, (writeBody value (serialType value encoding) encoding).length < 2 ^ 63 - 7) (pre : Bytes) :
    decodeBodies (pre ++ values.flatMap fun value => writeBody value (serialType value encoding) encoding) encoding
      (values.map (serialType · encoding)) pre.length =
      .ok (values, (pre ++ values.flatMap fun value => writeBody value (serialType value encoding) encoding).length) := by
  induction values generalizing pre with
  | nil => simp [decodeBodies]
  | cons value values ih =>
    have hrest := ih (fun bits hb => hnan bits (mem_cons_of_mem _ hb))
      (fun x hx => hlen x (mem_cons_of_mem _ hx)) (pre ++ writeBody value (serialType value encoding) encoding)
    rw [append_assoc, length_append] at hrest
    have hvalue := decodeSerialValue_body encoding (fun bits hb => hnan bits (hb ▸ mem_cons_self))
      (hlen value mem_cons_self) pre
      (values.flatMap fun value => writeBody value (serialType value encoding) encoding)
    rw [map_cons, flatMap_cons, decodeBodies, hvalue]
    dsimp only [bind, Except.bind]
    rw [hrest]

/-! ## Records -/

theorem encodeRecord_eq (values : List Value) (encoding : TextEncoding) :
    encodeRecord values encoding = encodeVarint (headerLen (values.map (serialType · encoding))) ++
      ((values.map (serialType · encoding)).flatMap encodeVarint ++
        values.flatMap fun value => writeBody value (serialType value encoding) encoding) := by
  have hzip : (values.zip (values.map (serialType · encoding))).flatMap
      (fun x => writeBody x.1 x.2 encoding) =
      values.flatMap fun value => writeBody value (serialType value encoding) encoding := by
    induction values with
    | nil => rfl
    | cons value values ih => rw [map_cons, zip_cons_cons, flatMap_cons, flatMap_cons, ih]
  unfold encodeRecord
  exact congrArg (fun bodies => _ ++ (_ ++ bodies)) hzip

theorem serialType_lt (value : Value) (encoding : TextEncoding) : serialType value encoding < 2 ^ 64 := by
  cases value with
  | null => exact Nat.two_pow_pos 64
  | integer i =>
    unfold serialType integerSerialType
    dsimp only
    repeat' split
    all_goals decide
  | real bits => exact show 7 < 2 ^ 64 by decide
  | text s => exact Nat.lt_of_le_of_lt (Nat.min_le_right _ _) (by decide)
  | blob b => exact Nat.lt_of_le_of_lt (Nat.min_le_right _ _) (by decide)

theorem body_length_lt {value : Value}
    (h : (writeBody value (serialType value encoding) encoding).length + varintLen (serialType value encoding) + 1 < 2 ^ 63) :
    (writeBody value (serialType value encoding) encoding).length < 2 ^ 63 - 7 := by
  have hlong : ∀ {len st : Nat}, len + varintLen st + 1 < 2 ^ 63 → (2 ^ 56 ≤ len → 2 ^ 56 ≤ st) → len < 2 ^ 63 - 7 := by
    intro len st hlen hst
    by_cases hl : 2 ^ 56 ≤ len
    · have hnine : varintLen st = 9 := if_neg (Nat.not_lt.2 (hst hl))
      omega
    · omega
  refine hlong h fun hl => ?_
  cases value with
  | null => exact absurd (show 2 ^ 56 ≤ 0 from hl) (by decide)
  | integer i =>
    have hw : ∀ st, integerWidth st ≤ 8 := fun st => by unfold integerWidth; split <;> decide
    have := hw (serialType (.integer i) encoding)
    simp only [writeBody, writeIntegerBody, beBytes_length] at hl
    omega
  | real bits =>
    simp only [writeBody, beBytes_length] at hl
    omega
  | text s =>
    simp only [writeBody] at hl h
    simp only [serialType, textSerialType]
    rw [encodedTextLen_eq s encoding (by omega)]
    omega
  | blob b =>
    simp only [writeBody] at hl
    simp only [serialType, blobSerialType]
    omega

/-- In a record that a `Vec` can hold no length saturates. -/
theorem encodeRecord_bounds (hmem : (encodeRecord values encoding).length < 2 ^ 63) :
    ((values.map (serialType · encoding)).map varintLen).sum < 2 ^ 63 ∧
      ∀ value ∈ values, (writeBody value (serialType value encoding) encoding).length < 2 ^ 63 - 7 := by
  rw [encodeRecord_eq, length_append, length_append, encodeVarint_length, flatMap_encodeVarint_length] at hmem
  have hv := varintLen_bounds (headerLen (values.map (serialType · encoding)))
  refine ⟨by omega, fun value hvalue => body_length_lt ?_⟩
  have h1 : (writeBody value (serialType value encoding) encoding).length ≤
      (values.flatMap fun value => writeBody value (serialType value encoding) encoding).length := by
    obtain ⟨l₁, l₂, rfl⟩ := append_of_mem hvalue
    simp only [flatMap_append, flatMap_cons, length_append]
    omega
  have h2 : varintLen (serialType value encoding) ≤ ((values.map (serialType · encoding)).map varintLen).sum := by
    obtain ⟨l₁, l₂, rfl⟩ := append_of_mem hvalue
    simp only [map_append, map_cons, sum_append, sum_cons]
    omega
  omega

/-- **Round trip.** Every record that fits into memory is decoded to the
values it was encoded from. -/
theorem decodeRecord_encodeRecord (hnan : ∀ bits, .real bits ∈ values → ¬ isNan bits)
    (hmem : (encodeRecord values encoding).length < 2 ^ 63) :
    decodeRecord (encodeRecord values encoding) encoding = .ok values := by
  obtain ⟨hsum, hbodies⟩ := encodeRecord_bounds hmem
  rw [encodeRecord_eq]
  have hsts : ∀ st ∈ values.map (serialType · encoding), st < 2 ^ 64 := by
    intro st hst
    obtain ⟨value, -, rfl⟩ := mem_map.1 hst
    exact serialType_lt value encoding
  obtain ⟨hheader, hlt⟩ := headerLen_spec hsum
  have hv := varintLen_bounds (headerLen (values.map (serialType · encoding)))
  have hcount : (values.map (serialType · encoding)).length ≤ ((values.map (serialType · encoding)).map varintLen).sum := by
    generalize values.map (serialType · encoding) = sts
    induction sts with
    | nil => exact Nat.le_refl _
    | cons st sts ih =>
      have := varintLen_bounds st
      rw [length_cons, map_cons, sum_cons]
      omega
  unfold decodeRecord
  have hfirst := decodeVarintAt_encode hlt [] ((values.map (serialType · encoding)).flatMap encodeVarint ++
    values.flatMap fun value => writeBody value (serialType value encoding) encoding)
  rw [nil_append, length_nil] at hfirst
  rw [hfirst]
  dsimp only [bind, Except.bind]
  rw [if_neg (by omega)]
  have hheads := decodeSerialTypes_encode hsts (encodeVarint (headerLen (values.map (serialType · encoding))))
    (values.flatMap fun value => writeBody value (serialType value encoding) encoding) _
    (Nat.lt_succ_of_le (Nat.le_trans hcount (show _ ≤ (encodeVarint (headerLen (values.map (serialType · encoding))) ++
      ((values.map (serialType · encoding)).flatMap encodeVarint ++
        values.flatMap fun value => writeBody value (serialType value encoding) encoding)).length by
      rw [length_append, length_append, flatMap_encodeVarint_length]; omega)))
  rw [encodeVarint_length, ← hheader] at hheads
  rw [hheads]
  have hvalues := decodeBodies_encode hnan hbodies (encodeVarint (headerLen (values.map (serialType · encoding))) ++
    (values.map (serialType · encoding)).flatMap encodeVarint)
  rw [length_append, encodeVarint_length, flatMap_encodeVarint_length, ← hheader, append_assoc] at hvalues
  dsimp only
  rw [hvalues]
  exact if_neg fun h => h rfl

/-- **The record codec.** A record that a `Vec` can hold is decoded to the
values it was encoded from; its varints and the bodies of its integers are
the shortest ones that are read as the same numbers; and a varint is read
back whatever follows it. -/
theorem record_codec :
    (∀ (values : List Value) (encoding : TextEncoding), (∀ bits, .real bits ∈ values → ¬ isNan bits) →
      (encodeRecord values encoding).length < 2 ^ 63 →
      decodeRecord (encodeRecord values encoding) encoding = .ok values ∧
      (∃ header bodies, encodeRecord values encoding =
          encodeVarint header ++ ((values.map (serialType · encoding)).flatMap encodeVarint ++ bodies) ∧
        ∀ v ∈ header :: values.map (serialType · encoding), ∀ buf k,
          decodeVarint buf = .ok (v, k) → (encodeVarint v).length ≤ k) ∧
      ∀ i, .integer i ∈ values → ∀ st buf pos len, decodeSerialValue st buf pos encoding = .ok (.integer i, len) →
        (writeBody (.integer i) (serialType (.integer i) encoding) encoding).length ≤ len) ∧
    ∀ v < 2 ^ 64, ∀ rest, decodeVarint (encodeVarint v ++ rest) = .ok (v, (encodeVarint v).length) := by
  refine ⟨fun values encoding hnan hmem => ⟨decodeRecord_encodeRecord hnan hmem, ?_, ?_⟩, fun v hv rest => ?_⟩
  · exact ⟨_, _, encodeRecord_eq values encoding, fun v _ buf k h => encodeVarint_minimal h⟩
  · intro i _ st buf pos len h
    simp only [writeBody, writeIntegerBody, beBytes_length]
    exact integerSerialType_minimal h
  · rw [encodeVarint_length]
    exact decodeVarint_encode hv rest

theorem record_codec_mixed :
    decodeRecord (encodeRecord [.null, .integer (-129), .integer 1, .real 0x3ff8000000000000, .text ['a', 'é', '😀'],
      .blob [0, 255]] .utf16Be) .utf16Be =
      .ok [.null, .integer (-129), .integer 1, .real 0x3ff8000000000000, .text ['a', 'é', '😀'], .blob [0, 255]] := by
  refine (record_codec.1 _ .utf16Be ?_ (by decide)).1
  intro bits h
  simp only [mem_cons, reduceCtorEq, Value.real.injEq, not_mem_nil, or_false, false_or] at h
  rw [h]
  decide

end DbStorage.Record
