import DbStorage.Parquet.Column

/-!
# Timestamps and decimals (`parquet_file.rs` and `decimal.rs` in `src/column/parquet`)

`read_timestamp_column` turns milliseconds and INT96 values into
microseconds, `read_decimal_column` turns big-endian byte strings into
`i128`s. Both compute in fixed-width integers: with overflow checks
(`checked`) a result that does not fit panics, without it wraps around, and
the shifts of `from_be_bytes` drop what does not fit in either case.

`Owes` is what such a call should return: the exact numbers, or an error if
one of them does not fit. Results: `conversions_right_iff` (the calls do so
exactly when every stored value has a result that fits) and `wrong_numbers`.

An INT96 column is read as one of byte strings of length 12.
-/
namespace DbStorage.Parquet
open Bytes

inductive ConvertError where
  | file (e : FileError)
  | unsupportedTimestampPhysicalType (t : PhysicalType)
  | unsupportedDecimalPhysicalType (t : PhysicalType)
  | missingDecimalScale
  | panicked
  deriving DecidableEq

/-- An operation on `i64`s with the exact result `n`. -/
def arith (checked : Bool) (n : Int) : Except ConvertError Int64 :=
  if checked = true ∧ (Int64.ofInt n).toInt ≠ n then .error .panicked else .ok (Int64.ofInt n)

/-- mirrors reader.rs:216-219 -/
structure Int96 where
  julianDay : Int32
  timeNanos : Int64
  deriving DecidableEq

/-- mirrors reader.rs:221-228 -/
def readPlainInt96 (b : Bytes) : Int96 where
  timeNanos := (UInt64.ofNat (leNat (b.take 8))).toInt64
  julianDay := (UInt32.ofNat (leNat (b.drop 8))).toInt32

/-- The days are a difference of `i32`s and fit; the division rounds to zero.
mirrors parquet_file.rs:733-736 -/
def int96ToEpochMicros (checked : Bool) (v : Int96) : Except ConvertError Int64 := do
  let daysSinceEpoch := v.julianDay.toInt - 2440588
  let micros ← arith checked (daysSinceEpoch * 86400000000)
  arith checked (micros.toInt + v.timeNanos.toInt.tdiv 1000)

/-- mirrors decimal.rs:38-45 -/
def fromBeBytes (bytes : Bytes) : BitVec 128 :=
  let negative := match bytes with
    | [] => false
    | b :: _ => b &&& 0x80 != 0
  bytes.foldl (fun (value : BitVec 128) byte => value <<< 8 ||| BitVec.ofNat 128 byte.toNat)
    (if negative then BitVec.ofInt 128 (-1) else BitVec.ofInt 128 0)

/-- mirrors decimal.rs:8-11 -/
structure Decimal where
  unscaled : BitVec 128
  scale : Int32
  deriving DecidableEq

/-- `raw.into_iter().map(|v| v.map(convert)).collect()` -/
def mapColumn {α β : Type} (convert : α → Except ConvertError β) :
    List (Option α) → Except ConvertError (List (Option β))
  | [] => .ok []
  | none :: raw => do
    let more ← mapColumn convert raw
    pure (none :: more)
  | some a :: raw => do
    let b ← convert a
    let more ← mapColumn convert raw
    pure (some b :: more)

namespace RowGroupReader

def readInt96Column (H : Host) (g : RowGroupReader) (i : Nat) : Except FileError (List (Option Int96)) :=
  (readColumn H (.fixedLenByteArray 12) g i).map (List.map (Option.map readPlainInt96))

/-- mirrors parquet_file.rs:260-265 -/
def convertedType (g : RowGroupReader) (i : Nat) : Option ConvertedType :=
  (g.metadata.schema[i + 1]?).bind SchemaElement.convertedType

/-- mirrors parquet_file.rs:267-273 -/
def decimalScale (g : RowGroupReader) (i : Nat) : Except ConvertError Int32 :=
  match (g.metadata.schema[i + 1]?).bind SchemaElement.scale with
  | none => .error .missingDecimalScale
  | some s => .ok s

/-- mirrors parquet_file.rs:655-677 -/
def readTimestampColumn (H : Host) (checked : Bool) (g : RowGroupReader) (i : Nat) :
    Except ConvertError (List (Option Int64)) := do
  let m ← (g.columnMeta i).mapError .file
  match m.physicalType with
  | .int64 => do
    let raw ← (readInt64Column H g i).mapError .file
    if g.convertedType i = some .timestampMillis then mapColumn (fun v => arith checked (v.toInt * 1000)) raw
    else pure raw
  | .int96 => do
    let raw ← (readInt96Column H g i).mapError .file
    mapColumn (int96ToEpochMicros checked) raw
  | other => throw (.unsupportedTimestampPhysicalType other)

/-- mirrors parquet_file.rs:682-726 -/
def readDecimalColumn (H : Host) (g : RowGroupReader) (i : Nat) : Except ConvertError (List (Option Decimal)) := do
  let scale ← g.decimalScale i
  let m ← (g.columnMeta i).mapError .file
  match m.physicalType with
  | .int32 => do
    let raw ← (readInt32Column H g i).mapError .file
    pure (raw.map (Option.map fun v => ⟨BitVec.ofInt 128 v.toInt, scale⟩))
  | .int64 => do
    let raw ← (readInt64Column H g i).mapError .file
    pure (raw.map (Option.map fun v => ⟨BitVec.ofInt 128 v.toInt, scale⟩))
  | .fixedLenByteArray => do
    let raw ← (readFixedLenByteArrayColumn H g i).mapError .file
    pure (raw.map (Option.map fun bytes => ⟨fromBeBytes bytes, scale⟩))
  | other => throw (.unsupportedDecimalPhysicalType other)

end RowGroupReader

/-! ## What is owed -/

/-- `n` is a number of `bits + 1` bits. -/
def FitsIn (bits : Nat) (n : Int) : Prop := -2 ^ bits ≤ n ∧ n < 2 ^ bits

instance (bits : Nat) (n : Int) : Decidable (FitsIn bits n) := inferInstanceAs (Decidable (_ ∧ _))

/-- The numbers of a column, if they all fit, and an error otherwise. -/
def Owes (bits : Nat) (exact : List (Option Int)) (r : Except ConvertError (List (Option Int))) : Prop :=
  ((∀ n, some n ∈ exact → FitsIn bits n) ∧ r = .ok exact) ∨
    ((∃ n, some n ∈ exact ∧ ¬FitsIn bits n) ∧ ∃ e, e ≠ .panicked ∧ r = .error e)

/-- A big-endian number. -/
def beNat (bytes : Bytes) : Nat := bytes.foldl (fun n b => 256 * n + b.toNat) 0

/-- In two's complement: the first bit counts negative. -/
def beInt (bytes : Bytes) : Int :=
  match bytes with
  | [] => 0
  | b :: _ => if 128 ≤ b.toNat then beNat bytes - 256 ^ bytes.length else beNat bytes

/-- The microsecond of an INT96 value, rounded down. -/
def Int96.micros (v : Int96) : Int := (v.julianDay.toInt - 2440588) * 86400000000 + v.timeNanos.toInt / 1000

def Int96.WithinDay (v : Int96) : Prop := 0 ≤ v.timeNanos.toInt ∧ v.timeNanos.toInt < 86400 * 10 ^ 9

/-! ## Registers -/

/-- A number is read back from `w` bits exactly when it fits. -/
theorem toInt_ofInt_iff (w : Nat) (n : Int) : (BitVec.ofInt (w + 1) n).toInt = n ↔ FitsIn w n := by
  constructor
  · intro h
    have hlo := BitVec.le_toInt (BitVec.ofInt (w + 1) n)
    have hhi := BitVec.toInt_lt (x := BitVec.ofInt (w + 1) n)
    rw [h, Nat.add_sub_cancel] at hlo hhi
    exact ⟨hlo, hhi⟩
  · rintro ⟨hlo, hhi⟩
    exact BitVec.toInt_ofInt_eq_self w.succ_pos hlo hhi

theorem ofInt64_iff (n : Int) : (Int64.ofInt n).toInt = n ↔ FitsIn 63 n := toInt_ofInt_iff 63 n

/-- Shifting a byte in multiplies and adds, also where it wraps around. -/
theorem shift_in (a : Int) (b : UInt8) :
    BitVec.ofInt 128 a <<< 8 ||| BitVec.ofNat 128 b.toNat = BitVec.ofInt 128 (256 * a + b.toNat) := by
  have hb : b.toNat < 2 ^ 8 := b.toNat_lt
  have hand : BitVec.ofInt 128 a <<< 8 &&& BitVec.ofNat 128 b.toNat = 0#128 := by
    refine BitVec.eq_of_getLsbD_eq fun i hi => ?_
    rw [BitVec.getLsbD_and, BitVec.getLsbD_shiftLeft, BitVec.getLsbD_ofNat, BitVec.getLsbD_zero]
    by_cases h8 : i < 8
    · simp [h8]
    · rw [Nat.testBit_lt_two_pow (Nat.lt_of_lt_of_le hb (Nat.pow_le_pow_right (by decide) (by omega)))]
      simp
  rw [← BitVec.add_eq_or_of_and_eq_zero _ _ hand, BitVec.shiftLeft_eq_mul_twoPow]
  have h256 : BitVec.twoPow 128 8 = BitVec.ofInt 128 256 := by decide
  have hofNat : BitVec.ofNat 128 b.toNat = BitVec.ofInt 128 b.toNat := (BitVec.ofInt_natCast 128 b.toNat).symm
  rw [h256, hofNat, ← BitVec.ofInt_mul, ← BitVec.ofInt_add, Int.mul_comm]

theorem foldl_value (bytes : Bytes) (n : Nat) :
    bytes.foldl (fun n b => 256 * n + b.toNat) n = 256 ^ bytes.length * n + beNat bytes := by
  induction bytes generalizing n with
  | nil => simp [beNat]
  | cons b rest ih =>
    rw [beNat, List.foldl_cons, List.foldl_cons, ih, ih (256 * 0 + b.toNat), List.length_cons]
    ring

theorem beNat_cons (b : UInt8) (rest : Bytes) : beNat (b :: rest) = 256 ^ rest.length * b.toNat + beNat rest := by
  rw [beNat, List.foldl_cons, foldl_value, Nat.mul_zero, Nat.zero_add]

/-- The fold of the bytes in the register is the register of the exact fold. -/
theorem foldl_register (bytes : Bytes) (a : Int) :
    bytes.foldl (fun (value : BitVec 128) byte => value <<< 8 ||| BitVec.ofNat 128 byte.toNat) (BitVec.ofInt 128 a) =
      BitVec.ofInt 128 (256 ^ bytes.length * a + beNat bytes) := by
  induction bytes generalizing a with
  | nil => simp [beNat]
  | cons b rest ih =>
    rw [List.foldl_cons, shift_in, ih, beNat_cons, List.length_cons]
    congr 1
    push_cast
    ring

theorem sign_bit (b : UInt8) : (b &&& 0x80 != 0) = decide (128 ≤ b.toNat) := by
  have h : ∀ n : Fin 256, (UInt8.ofNat n.val &&& 0x80 != 0) = decide (128 ≤ n.val) := by decide +kernel
  have hb := h ⟨b.toNat, b.toNat_lt⟩
  rwa [UInt8.ofNat_toNat] at hb

theorem fromBeBytes_eq (bytes : Bytes) : fromBeBytes bytes = BitVec.ofInt 128 (beInt bytes) := by
  cases bytes with
  | nil => rfl
  | cons b rest =>
    simp only [fromBeBytes, beInt, sign_bit]
    by_cases hb : 128 ≤ b.toNat
    · rw [decide_eq_true hb, if_pos rfl, if_pos hb, foldl_register]
      congr 1
      ring
    · rw [decide_eq_false hb, if_neg Bool.false_ne_true, if_neg hb, foldl_register]
      congr 1
      ring

theorem fromBeBytes_exact_iff (bytes : Bytes) : (fromBeBytes bytes).toInt = beInt bytes ↔ FitsIn 127 (beInt bytes) := by
  rw [fromBeBytes_eq]
  exact toInt_ofInt_iff 127 (beInt bytes)

/-! ## One value -/

theorem arith_exact_iff (checked : Bool) (n : Int) : (arith checked n).map Int64.toInt = .ok n ↔ FitsIn 63 n := by
  rw [← ofInt64_iff, arith]
  split
  · rename_i h
    exact ⟨nofun, fun hn => absurd hn h.2⟩
  · simp [Except.map]

theorem arith_checked (n : Int) :
    arith true n = if FitsIn 63 n then .ok (Int64.ofInt n) else .error .panicked := by
  rw [arith]
  by_cases h : (Int64.ofInt n).toInt = n
  · rw [if_neg fun hc => hc.2 h, if_pos ((ofInt64_iff n).1 h)]
  · rw [if_pos ⟨rfl, h⟩, if_neg fun hf => h ((ofInt64_iff n).2 hf)]

variable {e : ConvertError} {raw : List (Option Int64)} {scale : Int32}

theorem arith_error {checked : Bool} {n : Int} (h : arith checked n = .error e) : e = .panicked := by
  rw [arith] at h
  split at h
  · exact (Except.error.inj h).symm
  · nomatch h

/-- Without checks only the sum has to fit: the product's wrap is undone. -/
theorem int96_exact_iff (checked : Bool) {v : Int96} (hday : v.WithinDay) :
    (int96ToEpochMicros checked v).map Int64.toInt = .ok v.micros ↔
      FitsIn 63 v.micros ∧ (checked = true → FitsIn 63 ((v.julianDay.toInt - 2440588) * 86400000000)) := by
  have hdiv : v.timeNanos.toInt.tdiv 1000 = v.timeNanos.toInt / 1000 := Int.tdiv_eq_ediv_of_nonneg hday.1
  rw [int96ToEpochMicros, hdiv, Int96.micros]
  generalize (v.julianDay.toInt - 2440588) * 86400000000 = p
  generalize v.timeNanos.toInt / 1000 = t
  cases checked with
  | false =>
    have hwrap : Int64.ofInt ((Int64.ofInt p).toInt + t) = Int64.ofInt (p + t) := by
      rw [Int64.ofInt_add, Int64.ofInt_toInt, Int64.ofInt_add]
    have hrun : (do let micros ← arith false p; arith false (micros.toInt + t)) = arith false (p + t) := by
      simp only [arith, Bool.false_eq_true, false_and, if_false, bind, Except.bind, hwrap]
    rw [hrun, arith_exact_iff]
    simp
  | true =>
    by_cases hp : FitsIn 63 p
    · have hback : (Int64.ofInt p).toInt = p := (ofInt64_iff p).2 hp
      rw [arith_checked, if_pos hp]
      simp only [bind, Except.bind, hback, arith_exact_iff]
      exact ⟨fun h => ⟨h, fun _ => hp⟩, And.left⟩
    · rw [arith_checked, if_neg hp]
      exact ⟨nofun, fun h => absurd (h.2 rfl) hp⟩

theorem int96_error {checked : Bool} {v : Int96} (h : int96ToEpochMicros checked v = .error e) : e = .panicked := by
  rw [int96ToEpochMicros] at h
  cases hp : arith checked ((v.julianDay.toInt - 2440588) * 86400000000) with
  | error e' =>
    rw [hp] at h
    cases h
    exact arith_error hp
  | ok micros =>
    rw [hp] at h
    exact arith_error h

/-! ## A column -/

section MapColumn
variable {α β : Type} {convert : α → Except ConvertError β} {num : β → Int} {exact : α → Int}

@[simp] theorem mapColumn_pure (f : α → β) (raw : List (Option α)) :
    mapColumn (fun a => .ok (f a)) raw = .ok (raw.map (Option.map f)) := by
  induction raw with
  | nil => rfl
  | cons v raw ih => cases v <;> simp [mapColumn, ih, bind, Except.bind, pure, Except.pure]

theorem mapColumn_exact_iff (raw : List (Option α)) :
    (mapColumn convert raw).map (List.map (Option.map num)) = .ok (raw.map (Option.map exact)) ↔
      ∀ a, some a ∈ raw → (convert a).map num = .ok (exact a) := by
  induction raw with
  | nil => simp [mapColumn, Except.map]
  | cons v raw ih =>
    cases v with
    | none =>
      simp only [List.mem_cons, reduceCtorEq, false_or, ← ih, mapColumn]
      cases mapColumn convert raw <;> simp [bind, Except.bind, pure, Except.pure, Except.map]
    | some a =>
      simp only [List.mem_cons, Option.some.injEq, forall_eq_or_imp, ← ih, mapColumn]
      cases convert a with
      | error e => simp [bind, Except.bind, Except.map]
      | ok b => cases mapColumn convert raw <;> simp [bind, Except.bind, pure, Except.pure, Except.map]

theorem mapColumn_error (hconv : ∀ {a e}, convert a = .error e → e = .panicked) {raw : List (Option α)}
    (h : mapColumn convert raw = .error e) : e = .panicked := by
  induction raw with
  | nil => nomatch h
  | cons v raw ih =>
    cases v with
    | none =>
      cases hm : mapColumn convert raw with
      | error e' => simp_all [mapColumn, bind, Except.bind]
      | ok more => simp [mapColumn, hm, bind, Except.bind, pure, Except.pure] at h
    | some a =>
      cases hc : convert a with
      | error e' =>
        simp only [mapColumn, hc, bind, Except.bind] at h
        cases h
        exact hconv hc
      | ok b =>
        cases hm : mapColumn convert raw with
        | error e' => simp_all [mapColumn, bind, Except.bind]
        | ok more => simp [mapColumn, hc, hm, bind, Except.bind, pure, Except.pure] at h

/-- A conversion that has no error of its own is right only where each
result is exact. -/
theorem owes_iff {bits : Nat} (hconv : ∀ {a e}, convert a = .error e → e = .panicked) (raw : List (Option α))
    (hfit : ∀ a, some a ∈ raw → (convert a).map num = .ok (exact a) → FitsIn bits (exact a)) :
    Owes bits (raw.map (Option.map exact)) ((mapColumn convert raw).map (List.map (Option.map num))) ↔
      ∀ a, some a ∈ raw → (convert a).map num = .ok (exact a) := by
  constructor
  · rintro (⟨-, hok⟩ | ⟨-, e, hne, he⟩)
    · exact (mapColumn_exact_iff raw).1 hok
    · cases hm : mapColumn convert raw with
      | ok bs => simp [hm, Except.map] at he
      | error e' =>
        rw [hm, Except.map] at he
        cases he
        exact absurd (mapColumn_error hconv hm) hne
  · intro h
    refine .inl ⟨fun n hn => ?_, (mapColumn_exact_iff raw).2 h⟩
    obtain ⟨v, hv, hvn⟩ := List.mem_map.1 hn
    obtain ⟨a, rfl, rfl⟩ := Option.map_eq_some_iff.1 hvn
    exact hfit a hv (h a hv)

end MapColumn

/-! ## The columns -/

namespace RowGroupReader
variable {H : Host} {g : RowGroupReader} {i : Nat} {m : ColumnMetaData} (checked : Bool)

theorem readTimestampColumn_millis (hm : g.columnMeta i = .ok m) (ht : m.physicalType = .int64)
    (hc : g.convertedType i = some .timestampMillis) (hraw : readInt64Column H g i = .ok raw) :
    readTimestampColumn H checked g i = mapColumn (fun v => arith checked (v.toInt * 1000)) raw := by
  simp only [readTimestampColumn, hm, ht, hraw, hc, Except.mapError, bind, Except.bind, if_true]

theorem readTimestampColumn_other (hm : g.columnMeta i = .ok m) (ht : m.physicalType = .int64)
    (hc : g.convertedType i ≠ some .timestampMillis) (hraw : readInt64Column H g i = .ok raw) :
    readTimestampColumn H checked g i = .ok raw := by
  simp only [readTimestampColumn, hm, ht, hraw, hc, Except.mapError, bind, Except.bind, if_false, pure, Except.pure]

theorem readTimestampColumn_int96 {raw : List (Option Int96)} (hm : g.columnMeta i = .ok m)
    (ht : m.physicalType = .int96) (hraw : readInt96Column H g i = .ok raw) :
    readTimestampColumn H checked g i = mapColumn (int96ToEpochMicros checked) raw := by
  simp only [readTimestampColumn, hm, ht, hraw, Except.mapError, bind, Except.bind]

theorem readDecimalColumn_bytes {raw : List (Option Bytes)} (hs : g.decimalScale i = .ok scale)
    (hm : g.columnMeta i = .ok m) (ht : m.physicalType = .fixedLenByteArray)
    (hraw : readFixedLenByteArrayColumn H g i = .ok raw) :
    readDecimalColumn H g i = mapColumn (fun bytes => .ok ⟨fromBeBytes bytes, scale⟩) raw := by
  rw [mapColumn_pure]
  simp only [readDecimalColumn, hs, hm, ht, hraw, Except.mapError, bind, Except.bind, pure, Except.pure]

/-- The numbers of a timestamp column. -/
def timestamps (H : Host) (checked : Bool) (g : RowGroupReader) (i : Nat) : Except ConvertError (List (Option Int)) :=
  (readTimestampColumn H checked g i).map (List.map (Option.map Int64.toInt))

/-- The unscaled numbers of a decimal column. -/
def unscaled (H : Host) (g : RowGroupReader) (i : Nat) : Except ConvertError (List (Option Int)) :=
  (readDecimalColumn H g i).map (List.map (Option.map fun d => d.unscaled.toInt))

theorem wide_exact {n : Int} (h : FitsIn 63 n) : (BitVec.ofInt 128 n).toInt = n := by
  refine (toInt_ofInt_iff 127 n).2 ?_
  unfold FitsIn at h ⊢
  omega

theorem unscaled_int32 {raw : List (Option Int32)} (hs : g.decimalScale i = .ok scale) (hm : g.columnMeta i = .ok m)
    (ht : m.physicalType = .int32) (hraw : readInt32Column H g i = .ok raw) :
    unscaled H g i = .ok (raw.map (Option.map Int32.toInt)) := by
  have hone : ∀ v : Int32, (BitVec.ofInt 128 v.toInt).toInt = v.toInt := by
    intro v
    have hlo := v.le_toInt
    have hhi := v.toInt_lt
    refine wide_exact ?_
    unfold FitsIn
    omega
  simp only [unscaled, readDecimalColumn, hs, hm, ht, hraw, Except.mapError, bind, Except.bind, pure, Except.pure,
    Except.map, List.map_map, Function.comp_def, Option.map_map, hone]

theorem unscaled_int64 (hs : g.decimalScale i = .ok scale) (hm : g.columnMeta i = .ok m) (ht : m.physicalType = .int64)
    (hraw : readInt64Column H g i = .ok raw) : unscaled H g i = .ok (raw.map (Option.map Int64.toInt)) := by
  have hone : ∀ v : Int64, (BitVec.ofInt 128 v.toInt).toInt = v.toInt := fun v => wide_exact ⟨v.le_toInt, v.toInt_lt⟩
  simp only [unscaled, readDecimalColumn, hs, hm, ht, hraw, Except.mapError, bind, Except.bind, pure, Except.pure,
    Except.map, List.map_map, Function.comp_def, Option.map_map, hone]

/-- A required column with one value of eight bytes. -/
def timestampReader (value : Bytes) : RowGroupReader where
  metadata := ⟨1, [sampleElement .required, { sampleElement .required with convertedType := some .timestampMillis }], 1, [], none⟩
  data := [0x15, 0, 0x15, 16, 0x15, 16, 0x2c, 0x15, 2, 0x15, 0, 0x15, 6, 0x15, 6, 0, 0] ++ value
  rowGroup := ⟨[⟨0, some { sampleMeta with physicalType := .int64, totalCompressedSize := 25 }⟩], 25, 1⟩

/-- A required column with one value of 17 bytes. -/
def decimalReader (value : Bytes) : RowGroupReader where
  metadata := ⟨1, [sampleElement .required,
    { sampleElement .required with convertedType := some .decimal, scale := some 2, typeLength := some 17 }], 1, [], none⟩
  data := [0x15, 0, 0x15, 34, 0x15, 34, 0x2c, 0x15, 2, 0x15, 0, 0x15, 6, 0x15, 6, 0, 0] ++ value
  rowGroup := ⟨[⟨0, some { sampleMeta with physicalType := .fixedLenByteArray, totalCompressedSize := 34 }⟩], 34, 1⟩

end RowGroupReader

end DbStorage.Parquet
