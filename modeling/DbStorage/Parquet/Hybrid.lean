import DbStorage.Core.Bytes

/-!
# RLE/bit-packed hybrid (`parquet/encoding.rs`)

Levels and dictionary indices are written as runs: a varint header, then
either one value that is repeated or groups of eight values packed into
`bit_width` bytes, lowest bit first.

`Runs w vs bytes` says that `bytes` is some division of `vs` into runs.
Results: `decodeHybrid_runs` (whatever the division, the decoder returns
`vs`) and `covering_decoded` (also when the last runs are longer than needed
and other bytes follow).

The arithmetic is that of a build without overflow checks, since widths and run
lengths come from the file: byte counts are products modulo `2 ^ 64`, and a `u32`
is shifted by the distance modulo 32.
-/
namespace DbStorage.Parquet
open Bytes List

/-- `panicked` is an index out of range or a capacity overflow. -/
inductive EncodingError where
  | unexpectedEof
  | invalidVarint
  | panicked
  | outOfFuel
  deriving DecidableEq

/-- `n` more bytes may follow; `shift` is at most 63.
mirrors encoding.rs:26-42 -/
def readUnsignedVarintFrom : Nat → Nat → UInt64 → Bytes → Except EncodingError (UInt64 × Bytes)
  | 0, _, _, _ => .error .invalidVarint
  | _ + 1, _, _, [] => .error .unexpectedEof
  | n + 1, shift, result, b :: rest =>
    let result := result ||| ((b &&& 0x7f).toUInt64 <<< UInt64.ofNat shift)
    if b &&& 0x80 = 0 then .ok (result, rest) else readUnsignedVarintFrom n (shift + 7) result rest

def readUnsignedVarint (buf : Bytes) : Except EncodingError (UInt64 × Bytes) := readUnsignedVarintFrom 10 0 0 buf

/-- Bit `i` of a byte string, lowest bit of each byte first. -/
def bitAt (bytes : Bytes) (i : Nat) : Nat := ((bytes.getD (i / 8) 0).toNat >>> (i % 8)) &&& 1

/-- The bits of one value. -/
def unpackValue (bytes : Bytes) (bitPos : Nat) : Nat → Nat
  | 0 => 0
  | w + 1 => unpackValue bytes bitPos w ||| bitAt bytes (bitPos + w) <<< w

/-- The loop over the bits of one value.
mirrors encoding.rs:84-90 -/
def unpackU32 (bytes : Bytes) (bitPos : Nat) : Nat → Option Nat
  | 0 => some 0
  | w + 1 => do
    let value ← unpackU32 bytes bitPos w
    let byte ← bytes[(bitPos + w) / 8]?
    some (value ||| ((byte.toNat >>> ((bitPos + w) % 8)) &&& 1) <<< (w % 32))

/-- The next `n` values of a packed run. -/
def unpackRun (bytes : Bytes) (w : Nat) : Nat → Nat → Option (List Nat)
  | _, 0 => some []
  | bitPos, n + 1 => do
    let value ← unpackU32 bytes bitPos w
    let values ← unpackRun bytes w (bitPos + w) n
    some (value :: values)

/-- A little-endian number. -/
def leNat : Bytes → Nat
  | [] => 0
  | b :: rest => b.toNat + 256 * leNat rest

/-- The value of an RLE run, from its byte `i` on.
mirrors encoding.rs:101-104 -/
def rleValue : Nat → Bytes → Nat
  | _, [] => 0
  | i, b :: rest => rleValue (i + 1) rest ||| b.toNat <<< (8 * i % 32)

/-- The loop: `n` values are still to come.
mirrors encoding.rs:62-107 -/
def decodeRuns (w : Nat) : Nat → Nat → Bytes → Except EncodingError (List Nat)
  | _, 0, _ => .ok []
  | 0, _ + 1, _ => .error .outOfFuel
  | f + 1, n + 1, data => do
    let (header, rest) ← readUnsignedVarint data
    let runLen := header.toNat / 2
    if header.toNat % 2 = 1 then
      let byteCount := runLen * w % 2 ^ 64
      if rest.length < byteCount then throw .unexpectedEof
      let count := min (runLen * 8 % 2 ^ 64) (n + 1)
      match unpackRun (rest.take byteCount) w 0 count with
      | none => throw .panicked
      | some values => do
        let more ← decodeRuns w f (n + 1 - count) (rest.drop byteCount)
        pure (values ++ more)
    else
      let byteCount := (w + 7) / 8
      if rest.length < byteCount then throw .unexpectedEof
      let take := min runLen (n + 1)
      let more ← decodeRuns w f (n + 1 - take) (rest.drop byteCount)
      pure (List.replicate take (rleValue 0 (rest.take byteCount)) ++ more)

/-- mirrors encoding.rs:50-111 -/
def decodeHybrid (data : Bytes) (bitWidth numValues : Nat) : Except EncodingError (List Nat) :=
  if 2 ^ 61 ≤ numValues then .error .panicked
  else if bitWidth = 0 then .ok (List.replicate numValues 0)
  else decodeRuns bitWidth (data.length + 1) numValues data

/-! ## What is written -/

/-- A base-128 number, lowest digit first; it may have leading zeros. -/
inductive Leb : Nat → Bytes → Prop
  | last (v : Nat) (h : v < 128) : Leb v [UInt8.ofNat v]
  | more (d v : Nat) (bytes : Bytes) (hd : d < 128) (h : Leb v bytes) :
      Leb (d + 128 * v) (UInt8.ofNat (d + 128) :: bytes)

/-- A header is a `u64` in at most ten bytes. -/
def Varint (v : Nat) (bytes : Bytes) : Prop := Leb v bytes ∧ bytes.length ≤ 10 ∧ v < 2 ^ 64

def leBytes : Nat → Nat → Bytes
  | 0, _ => []
  | n + 1, v => UInt8.ofNat v :: leBytes n (v / 256)

/-- The values side by side in one number, the first lowest. -/
def packNat (w : Nat) : List Nat → Nat
  | [] => 0
  | v :: vs => v + 2 ^ w * packNat w vs

/-- The divisions of a list of `w`-bit values into runs. Only the last packed
run may be filled up. -/
inductive Runs (w : Nat) : List Nat → Bytes → Prop
  | nil : Runs w [] []
  | rle (n v : Nat) (header : Bytes) {vs : List Nat} {bytes : Bytes} (hv : v < 2 ^ w) (hh : Varint (2 * n) header)
      (h : Runs w vs bytes) : Runs w (List.replicate n v ++ vs) (header ++ (leBytes ((w + 7) / 8) v ++ bytes))
  | packed (groups : Nat) (us : List Nat) (header : Bytes) {vs : List Nat} {bytes : Bytes}
      (hlen : us.length = 8 * groups) (hu : ∀ u ∈ us, u < 2 ^ w) (hh : Varint (2 * groups + 1) header)
      (h : Runs w vs bytes) : Runs w (us ++ vs) (header ++ (leBytes (groups * w) (packNat w us) ++ bytes))
  | padded (groups : Nat) (us pad : List Nat) (header : Bytes) (hlen : (us ++ pad).length = 8 * groups)
      (hu : ∀ u ∈ us ++ pad, u < 2 ^ w) (hh : Varint (2 * groups + 1) header) :
      Runs w us (header ++ leBytes (groups * w) (packNat w (us ++ pad)))

/-! ## Varints -/

variable {v s n w i f k : Nat} {r : UInt64} {bytes data rest : Bytes} {vs : List Nat}

theorem digit_last (h : v < 128) : UInt8.ofNat v &&& 0x80 = 0 ∧ ((UInt8.ofNat v &&& 0x7f).toUInt64).toNat = v := by
  have : ∀ v : Fin 128, UInt8.ofNat v.1 &&& 0x80 = 0 ∧ ((UInt8.ofNat v.1 &&& 0x7f).toUInt64).toNat = v.1 := by
    decide +kernel
  exact this ⟨v, h⟩

theorem digit_more {d : Nat} (h : d < 128) :
    UInt8.ofNat (d + 128) &&& 0x80 ≠ 0 ∧ ((UInt8.ofNat (d + 128) &&& 0x7f).toUInt64).toNat = d := by
  have : ∀ d : Fin 128, UInt8.ofNat (d.1 + 128) &&& 0x80 ≠ 0 ∧
      ((UInt8.ofNat (d.1 + 128) &&& 0x7f).toUInt64).toNat = d.1 := by
    decide +kernel
  exact this ⟨d, h⟩

theorem or_shift {d : UInt64} (hs : s < 64) (hr : r.toNat < 2 ^ s) (hd : d.toNat * 2 ^ s < 2 ^ 64) :
    (r ||| d <<< UInt64.ofNat s).toNat = r.toNat + d.toNat * 2 ^ s := by
  have hmod : (UInt64.ofNat s).toNat % 64 = s := by
    rw [UInt64.toNat_ofNat', Nat.mod_eq_of_lt (by omega : s < 2 ^ 64), Nat.mod_eq_of_lt hs]
  rw [UInt64.toNat_or, UInt64.toNat_shiftLeft, hmod, Nat.shiftLeft_eq, Nat.mod_eq_of_lt hd, Nat.or_comm,
    Nat.mul_comm, ← Nat.two_pow_add_eq_or_of_lt hr, Nat.add_comm]

/-- The digits still to come are read on top of `r`. -/
theorem readUnsignedVarintFrom_leb (h : Leb v bytes) (rest : Bytes) (hn : bytes.length ≤ n) (hs : s + 7 * n ≤ 70)
    (hr : r.toNat < 2 ^ s) (hv : v * 2 ^ s + r.toNat < 2 ^ 64) :
    ∃ x : UInt64, x.toNat = v * 2 ^ s + r.toNat ∧ readUnsignedVarintFrom n s r (bytes ++ rest) = .ok (x, rest) := by
  induction h generalizing n s r with
  | last v hlt =>
    cases n with
    | zero => cases hn
    | succ n =>
      obtain ⟨hstop, hdigit⟩ := digit_last hlt
      refine ⟨_, ?_, by rw [singleton_append, readUnsignedVarintFrom, if_pos hstop]⟩
      rw [or_shift (by omega) hr (by rw [hdigit]; omega), hdigit, Nat.add_comm]
  | more d v bytes hd h ih =>
    cases n with
    | zero => cases hn
    | succ n =>
      obtain ⟨hmore, hdigit⟩ := digit_more hd
      have hexp : (d + 128 * v) * 2 ^ s = d * 2 ^ s + v * 2 ^ (s + 7) := by rw [Nat.pow_add]; ring
      have hlow : d * 2 ^ s + r.toNat < 2 ^ (s + 7) := by
        have hle : (d + 1) * 2 ^ s ≤ 128 * 2 ^ s := Nat.mul_le_mul_right _ hd
        rw [Nat.succ_mul] at hle
        rw [Nat.pow_add]
        omega
      have hor := or_shift (d := (UInt8.ofNat (d + 128) &&& 0x7f).toUInt64) (by omega : s < 64) hr
        (by rw [hdigit]; omega)
      rw [hdigit] at hor
      have hlen : bytes.length ≤ n := Nat.le_of_succ_le_succ hn
      obtain ⟨x, hx, hread⟩ := ih (s := s + 7)
        (r := r ||| (UInt8.ofNat (d + 128) &&& 0x7f).toUInt64 <<< UInt64.ofNat s) hlen (by omega) (by rw [hor]; omega)
        (by rw [hor]; omega)
      refine ⟨x, by rw [hx, hor]; omega, ?_⟩
      rw [cons_append, readUnsignedVarintFrom, if_neg hmore]
      exact hread

/-- The digits that were read, on top of `r`. -/
theorem readUnsignedVarintFrom_ok {x : UInt64} (hs : s + 7 * n ≤ 63) (hr : r.toNat < 2 ^ s)
    (h : readUnsignedVarintFrom n s r data = .ok (x, rest)) :
    ∃ v b, Leb v b ∧ b.length ≤ n ∧ data = b ++ rest ∧ x.toNat = v * 2 ^ s + r.toNat := by
  induction n generalizing s r data with
  | zero => cases h
  | succ n ih =>
    cases data with
    | nil => cases h
    | cons c data =>
      have hc := c.toNat_lt
      have hdigit : ((c &&& 0x7f).toUInt64).toNat = c.toNat % 128 := by
        rw [UInt8.toNat_toUInt64, UInt8.toNat_and]
        exact Nat.and_two_pow_sub_one_eq_mod c.toNat 7
      have hpow : c.toNat % 128 * 2 ^ s < 2 ^ (s + 7) := by
        rw [Nat.pow_add, Nat.mul_comm (2 ^ s)]
        exact Nat.mul_lt_mul_of_pos_right (Nat.mod_lt _ (by decide)) (Nat.two_pow_pos s)
      have hle : 2 ^ (s + 7) ≤ 2 ^ 63 := Nat.pow_le_pow_right (by decide) (by omega)
      have hor := or_shift (d := (c &&& 0x7f).toUInt64) (by omega : s < 64) hr (by rw [hdigit]; omega)
      rw [hdigit] at hor
      rw [readUnsignedVarintFrom] at h
      split at h
      · rename_i hstop
        cases h
        have hlt : c.toNat < 128 := by
          by_contra hge
          have := (digit_more (d := c.toNat - 128) (by omega)).1
          rw [show c.toNat - 128 + 128 = c.toNat by omega, UInt8.ofNat_toNat] at this
          exact this hstop
        refine ⟨c.toNat, [c], ?_, Nat.succ_le_succ (Nat.zero_le n), rfl, ?_⟩
        · have := Leb.last c.toNat hlt
          rwa [UInt8.ofNat_toNat] at this
        · rw [hor, Nat.mod_eq_of_lt hlt, Nat.add_comm]
      · rename_i hmore
        have hge : 128 ≤ c.toNat := by
          by_contra hlt
          have := (digit_last (v := c.toNat) (by omega)).1
          rw [UInt8.ofNat_toNat] at this
          exact hmore this
        have hlow : r.toNat + c.toNat % 128 * 2 ^ s < 2 ^ (s + 7) := by
          have hmul : (c.toNat % 128 + 1) * 2 ^ s ≤ 128 * 2 ^ s := Nat.mul_le_mul_right _ (Nat.mod_lt _ (by decide))
          rw [Nat.succ_mul] at hmul
          rw [Nat.pow_add]
          omega
        obtain ⟨v, b, hleb, hlen, rfl, hx⟩ := ih (by omega) (by rw [hor]; exact hlow) h
        refine ⟨c.toNat % 128 + 128 * v, c :: b, ?_, Nat.succ_le_succ hlen, rfl, ?_⟩
        · have := Leb.more (c.toNat % 128) v b (Nat.mod_lt _ (by decide)) hleb
          rwa [show c.toNat % 128 + 128 = c.toNat by omega, UInt8.ofNat_toNat] at this
        · rw [hx, hor, Nat.pow_add]
          ring

theorem readUnsignedVarint_of (h : Varint v bytes) (rest : Bytes) :
    ∃ x : UInt64, x.toNat = v ∧ readUnsignedVarint (bytes ++ rest) = .ok (x, rest) := by
  have hv := h.2.2
  obtain ⟨x, hx, hread⟩ := readUnsignedVarintFrom_leb h.1 (n := 10) (s := 0) (r := 0) rest h.2.1 (by decide)
    (by decide) (by simpa using hv)
  exact ⟨x, by simpa using hx, hread⟩

theorem Leb.length_pos (h : Leb v bytes) : 0 < bytes.length := by
  cases h <;> exact Nat.succ_pos _

theorem Leb.lt {b : Bytes} (h : Leb v b) : v < 128 ^ b.length := by
  induction h with
  | last v h => simpa using h
  | more d v b hd h ih =>
    rw [length_cons, Nat.pow_succ]
    omega

/-! ## Zigzag -/

/-- Zigzag: small numbers of either sign are small. -/
def zigzag : Int → Nat
  | .ofNat n => 2 * n
  | .negSucc n => 2 * n + 1

/-- Halving a zigzag number and flipping its bits if it was odd. -/
theorem zigzag_bits (hw : 1 < w) {x : BitVec w} {v : BitVec w} (h : x.toNat = zigzag v.toInt) :
    x >>> 1 ^^^ -(x &&& 1#w) = v := by
  have hone : (1#w).toNat = 1 := by
    rw [BitVec.toNat_ofNat, Nat.mod_eq_of_lt (Nat.one_lt_two_pow (by omega))]
  have hand : (x &&& 1#w).toNat = x.toNat % 2 := by rw [BitVec.toNat_and, hone, Nat.and_one_is_mod]
  cases hv : v.toInt with
  | ofNat n =>
    rw [hv, zigzag] at h
    have hzero : x &&& 1#w = 0#w := BitVec.eq_of_toNat_eq (by rw [hand, BitVec.toNat_ofNat, Nat.zero_mod]; omega)
    rw [hzero, BitVec.neg_zero, BitVec.xor_zero]
    refine BitVec.eq_of_toNat_eq ?_
    have hn : v.toNat = n := by
      have hlt := v.isLt
      rw [BitVec.toInt_eq_toNat_cond, Int.ofNat_eq_natCast] at hv
      split at hv <;> omega
    rw [BitVec.toNat_ushiftRight, h, Nat.shiftRight_eq_div_pow, hn]
    omega
  | negSucc n =>
    rw [hv, zigzag] at h
    have hodd : x &&& 1#w = 1#w := BitVec.eq_of_toNat_eq (by rw [hand, hone]; omega)
    rw [hodd, BitVec.neg_one_eq_allOnes, BitVec.xor_allOnes]
    refine BitVec.eq_of_toNat_eq ?_
    have hn : v.toNat + n + 1 = 2 ^ w := by
      have hlt := v.isLt
      rw [BitVec.toInt_eq_toNat_cond] at hv
      split at hv <;> omega
    rw [BitVec.toNat_not, BitVec.toNat_ushiftRight, h, Nat.shiftRight_eq_div_pow]
    omega

theorem zigzag_i32 {x : UInt32} {v : Int32} (h : x.toNat = zigzag v.toInt) :
    (x >>> 1).toInt32 ^^^ -(x &&& 1).toInt32 = v := by
  have := zigzag_bits (by decide : 1 < 32) (x := x.toBitVec) (v := v.toBitVec) h
  exact Int32.toBitVec_inj.1 this

theorem zigzag_i64 {x : UInt64} {v : Int64} (h : x.toNat = zigzag v.toInt) :
    (x >>> 1).toInt64 ^^^ -(x &&& 1).toInt64 = v := by
  have := zigzag_bits (by decide : 1 < 64) (x := x.toBitVec) (v := v.toBitVec) h
  exact Int64.toBitVec_inj.1 this

theorem zigzag_lt {v : Int} (hlo : -2 ^ w ≤ v) (hhi : v < 2 ^ w) : zigzag v < 2 ^ (w + 1) := by
  cases v with
  | ofNat n =>
    have : (n : Int) < 2 ^ w := hhi
    have : n < 2 ^ w := by exact_mod_cast this
    rw [zigzag, Nat.pow_succ]
    omega
  | negSucc n =>
    have : (n : Int) < 2 ^ w := by omega
    have : n < 2 ^ w := by exact_mod_cast this
    rw [zigzag, Nat.pow_succ]
    omega

/-! ## Bits -/

@[simp] theorem leBytes_length (n v : Nat) : (leBytes n v).length = n := by
  induction n generalizing v with
  | zero => rfl
  | succ n ih => rw [leBytes, length_cons, ih]

theorem leNat_leBytes (n v : Nat) : leNat (leBytes n v) = v % 256 ^ n := by
  induction n generalizing v with
  | zero => rw [Nat.pow_zero, Nat.mod_one]; rfl
  | succ n ih =>
    have hpow : 256 ^ (n + 1) = 256 * 256 ^ n := Nat.pow_succ'
    rw [leBytes, leNat, ih, UInt8.toNat_ofNat', hpow, Nat.mod_mul]

theorem leNat_lt (b : Bytes) : leNat b < 256 ^ b.length := by
  induction b with
  | nil => exact Nat.one_pos
  | cons x b ih =>
    have hx := x.toNat_lt
    rw [leNat, length_cons, Nat.pow_succ]
    omega

theorem leBytes_leNat (b : Bytes) : leBytes b.length (leNat b) = b := by
  induction b with
  | nil => rfl
  | cons x b ih =>
    have hx := x.toNat_lt
    rw [leNat, length_cons, leBytes, show (x.toNat + 256 * leNat b) / 256 = leNat b by omega, ih]
    congr 1
    refine UInt8.toNat_inj.1 ?_
    rw [UInt8.toNat_ofNat']
    omega

theorem bitAt_leBytes (h : i < 8 * n) : bitAt (leBytes n v) i = (v.testBit i).toNat := by
  induction n generalizing v i with
  | zero => omega
  | succ n ih =>
    by_cases hi : i < 8
    · have h0 : i / 8 = 0 := by omega
      have hm : i % 8 = i := by omega
      rw [bitAt, h0, hm, leBytes, getD_cons_zero, UInt8.toNat_ofNat', Nat.and_one_is_mod,
        Nat.shiftRight_eq_div_pow, ← Nat.toNat_testBit, show (2 ^ 8 : Nat) = 2 ^ 8 from rfl, Nat.testBit_mod_two_pow]
      simp [hi]
    · have hs : i / 8 = (i - 8) / 8 + 1 := by omega
      have hm : i % 8 = (i - 8) % 8 := by omega
      have hrec := ih (v := v / 256) (i := i - 8) (by omega)
      rw [bitAt] at hrec ⊢
      rw [hs, hm, leBytes, getD_cons_succ, hrec, show (256 : Nat) = 2 ^ 8 from rfl, Nat.testBit_div_two_pow]
      congr 2
      omega

theorem testBit_packNat (h : ∀ v ∈ vs, v < 2 ^ w) {j : Nat} (hj : j < w) :
    (packNat w vs).testBit (i * w + j) = (vs.getD i 0).testBit j := by
  induction vs generalizing i with
  | nil => simp [packNat]
  | cons v vs ih =>
    have hv := h v mem_cons_self
    rw [packNat, Nat.add_comm v, Nat.testBit_two_pow_mul_add _ hv]
    cases i with
    | zero => simp [hj]
    | succ i =>
      have hnot : ¬ (i + 1) * w + j < w := by rw [Nat.succ_mul]; omega
      rw [if_neg hnot, getD_cons_succ, ← ih (fun u hu => h u (mem_cons_of_mem _ hu))]
      congr 1
      rw [Nat.succ_mul]
      omega

theorem testBit_unpackValue (bytes : Bytes) (pos w j : Nat) :
    (unpackValue bytes pos w).testBit j = (decide (j < w) && decide (bitAt bytes (pos + j) = 1)) := by
  induction w with
  | zero => simp [unpackValue]
  | succ w ih =>
    have hbit : bitAt bytes (pos + w) = 0 ∨ bitAt bytes (pos + w) = 1 := by
      rw [bitAt, Nat.and_one_is_mod]
      omega
    rw [unpackValue, Nat.testBit_or, ih, Nat.testBit_shiftLeft]
    by_cases hj : j = w
    · subst hj
      obtain h | h := hbit <;> simp [h]
    · by_cases hlt : j < w
      · simp [hlt, Nat.lt_succ_of_lt hlt, Nat.not_le.2 hlt]
      · have hpos : j - w ≠ 0 := by omega
        have hz : (bitAt bytes (pos + w)).testBit (j - w) = false := by
          obtain h | h := hbit
          · rw [h, Nat.zero_testBit]
          · rw [h]
            exact Nat.testBit_one_eq_true_iff_self_eq_zero.not.2 hpos |> Bool.eq_false_of_not_eq_true
        have hnot : ¬ j < w + 1 := by omega
        simp [hlt, hnot, hz]

theorem unpackValue_packed (h : ∀ v ∈ vs, v < 2 ^ w) (hn : (i + 1) * w ≤ 8 * n) :
    unpackValue (leBytes n (packNat w vs)) (i * w) w = vs.getD i 0 := by
  refine Nat.eq_of_testBit_eq fun j => ?_
  rw [testBit_unpackValue]
  by_cases hj : j < w
  · rw [bitAt_leBytes (by rw [Nat.succ_mul] at hn; omega), testBit_packNat h hj]
    cases (vs.getD i 0).testBit j <;> simp [hj]
  · have hlt : vs.getD i 0 < 2 ^ w := by
      rw [getD_eq_getElem?_getD]
      rcases hg : vs[i]? with _ | v
      · exact Nat.two_pow_pos w
      · exact h v (mem_of_getElem? hg)
    rw [Nat.testBit_lt_two_pow (Nat.lt_of_lt_of_le hlt (Nat.pow_le_pow_right (by decide) (by omega)))]
    simp [hj]

/-! ## A release build's arithmetic -/

theorem unpackU32_eq {bitPos : Nat} (hw : w ≤ 32) (h : bitPos + w ≤ 8 * bytes.length) :
    unpackU32 bytes bitPos w = some (unpackValue bytes bitPos w) := by
  induction w with
  | zero => rfl
  | succ w ih =>
    have hi : (bitPos + w) / 8 < bytes.length := by omega
    rw [unpackU32, ih (by omega) (by omega), List.getElem?_eq_getElem hi, Nat.mod_eq_of_lt (by omega : w < 32),
      unpackValue, bitAt, getD_eq_getElem _ _ hi]
    rfl

theorem unpackRun_eq {bitPos : Nat} (hw : w ≤ 32) (h : bitPos + n * w ≤ 8 * bytes.length) :
    unpackRun bytes w bitPos n = some ((List.range n).map fun i => unpackValue bytes (bitPos + i * w) w) := by
  induction n generalizing bitPos with
  | zero => rfl
  | succ n ih =>
    rw [Nat.succ_mul] at h
    rw [unpackRun, unpackU32_eq hw (by omega), ih (by omega), range_succ_eq_map, map_cons, map_map,
      Nat.zero_mul, Nat.add_zero]
    have hshift : ((fun i => unpackValue bytes (bitPos + i * w) w) ∘ Nat.succ) =
        fun i => unpackValue bytes (bitPos + w + i * w) w := by
      funext i
      rw [Function.comp_apply, Nat.succ_mul, Nat.add_comm (i * w), Nat.add_assoc]
    rw [hshift]
    rfl

theorem rleValue_eq (h : i + bytes.length ≤ 4) : rleValue i bytes = leNat bytes * 2 ^ (8 * i) := by
  induction bytes generalizing i with
  | nil => rw [leNat, Nat.zero_mul]; rfl
  | cons b rest ih =>
    rw [length_cons] at h
    have hb : b.toNat * 2 ^ (8 * i) < 2 ^ (8 * (i + 1)) := by
      rw [Nat.mul_succ, Nat.pow_add, Nat.mul_comm (2 ^ (8 * i))]
      exact Nat.mul_lt_mul_of_pos_right b.toNat_lt (Nat.two_pow_pos _)
    rw [rleValue, ih (by omega), Nat.mod_eq_of_lt (by omega : 8 * i < 32), Nat.shiftLeft_eq, Nat.mul_comm (leNat rest),
      ← Nat.two_pow_add_eq_or_of_lt hb, leNat, Nat.mul_succ, Nat.pow_add]
    ring

/-! ## Runs -/

variable {header : UInt64} {us : List Nat}

theorem decodeRuns_rle (hread : readUnsignedVarint data = .ok (header, rest)) (heven : header.toNat % 2 = 0)
    (hw : w ≤ 32) (hlen : (w + 7) / 8 ≤ rest.length) :
    decodeRuns w (f + 1) (n + 1) data =
      (decodeRuns w f (n + 1 - min (header.toNat / 2) (n + 1)) (rest.drop ((w + 7) / 8))).map
        (List.replicate (min (header.toNat / 2) (n + 1)) (leNat (rest.take ((w + 7) / 8))) ++ ·) := by
  have hnot : ¬ rest.length < (w + 7) / 8 := Nat.not_lt.2 hlen
  have hodd : ¬ header.toNat % 2 = 1 := by omega
  have hvalue : rleValue 0 (rest.take ((w + 7) / 8)) = _ := rleValue_eq (by rw [length_take]; omega)
  rw [Nat.mul_zero, Nat.pow_zero, Nat.mul_one] at hvalue
  simp only [decodeRuns, hread, bind, Except.bind, if_neg hodd, if_neg hnot, hvalue, pure, Except.pure]
  cases decodeRuns w f (n + 1 - min (header.toNat / 2) (n + 1)) (rest.drop ((w + 7) / 8)) <;> rfl

theorem decodeRuns_packed (hread : readUnsignedVarint data = .ok (header, rest)) (hodd : header.toNat % 2 = 1)
    (hw : 0 < w ∧ w ≤ 32) (hcount : header.toNat / 2 * w < 2 ^ 61) (hlen : header.toNat / 2 * w ≤ rest.length) :
    decodeRuns w (f + 1) (n + 1) data =
      (decodeRuns w f (n + 1 - min (header.toNat / 2 * 8) (n + 1)) (rest.drop (header.toNat / 2 * w))).map
        ((List.range (min (header.toNat / 2 * 8) (n + 1))).map
          (fun i => unpackValue (rest.take (header.toNat / 2 * w)) (i * w) w) ++ ·) := by
  have hnot : ¬ rest.length < header.toNat / 2 * w := Nat.not_lt.2 hlen
  have hgroups : header.toNat / 2 ≤ header.toNat / 2 * w := Nat.le_mul_of_pos_right _ hw.1
  have hbytes : header.toNat / 2 * w % 2 ^ 64 = header.toNat / 2 * w := Nat.mod_eq_of_lt (by omega)
  have hvalues : header.toNat / 2 * 8 % 2 ^ 64 = header.toNat / 2 * 8 := Nat.mod_eq_of_lt (by omega)
  have hbits : min (header.toNat / 2 * 8) (n + 1) * w ≤ 8 * (header.toNat / 2 * w) := by
    rw [← Nat.mul_assoc, Nat.mul_comm 8]
    exact Nat.mul_le_mul_right w (Nat.min_le_left _ _)
  have hrun : unpackRun (rest.take (header.toNat / 2 * w)) w 0 (min (header.toNat / 2 * 8) (n + 1)) = _ :=
    unpackRun_eq hw.2 (by rw [length_take]; omega)
  simp only [Nat.zero_add] at hrun
  simp only [decodeRuns, hread, bind, Except.bind, if_pos hodd, hbytes, hvalues, if_neg hnot, hrun, pure, Except.pure]
  cases decodeRuns w f (n + 1 - min (header.toNat / 2 * 8) (n + 1)) (rest.drop (header.toNat / 2 * w)) <;> rfl

theorem unpack_groups {groups : Nat} (hlen : us.length = 8 * groups) (hu : ∀ u ∈ us, u < 2 ^ w) (hk : k ≤ us.length) :
    (List.range k).map (fun i => unpackValue (leBytes (groups * w) (packNat w us)) (i * w) w) = us.take k := by
  refine ext_getElem (by simp [hk]) fun i hi _ => ?_
  have hik : i < k := by simpa using hi
  have hbits : (i + 1) * w ≤ 8 * (groups * w) := by
    rw [← Nat.mul_assoc]
    exact Nat.mul_le_mul_right w (by omega)
  rw [getElem_map, getElem_range, unpackValue_packed hu hbits, getElem_take,
    getD_eq_getElem _ _ (by omega)]

theorem decodeRuns_zero (w f : Nat) (data : Bytes) : decodeRuns w f 0 data = .ok [] := by
  cases f <;> rfl

/-- One step for a run of packed groups of which `k` values are wanted. -/
theorem decodeRuns_groups {groups : Nat} {header : Bytes} (bytes : Bytes) (hk : k ≠ 0) (hw : 0 < w ∧ w ≤ 32)
    (hcount : groups * w < 2 ^ 61) (hlen : us.length = 8 * groups) (hu : ∀ u ∈ us, u < 2 ^ w)
    (hh : Varint (2 * groups + 1) header) :
    decodeRuns w (f + 1) k (header ++ (leBytes (groups * w) (packNat w us) ++ bytes)) =
      (decodeRuns w f (k - us.length) bytes).map (us.take k ++ ·) := by
  obtain ⟨n, rfl⟩ := Nat.exists_eq_succ_of_ne_zero hk
  obtain ⟨x, hx, hread⟩ := readUnsignedVarint_of hh (leBytes (groups * w) (packNat w us) ++ bytes)
  have hhalf : x.toNat / 2 = groups := by omega
  have hbytes := leBytes_length (groups * w) (packNat w us)
  rw [Nat.succ_eq_add_one, decodeRuns_packed hread (by omega) hw (by rwa [hhalf])
    (by rw [hhalf, length_append, hbytes]; omega), hhalf, drop_left' hbytes, take_left' hbytes]
  have hmin : min (groups * 8) (n + 1) ≤ us.length := by omega
  have hsub : n + 1 - min (groups * 8) (n + 1) = n + 1 - us.length := by omega
  have htake : us.take (min (groups * 8) (n + 1)) = us.take (n + 1) := by
    rw [show groups * 8 = us.length by omega, Nat.min_comm, ← take_take, take_length]
  rw [unpack_groups hlen hu hmin, hsub, htake]

/-- The first `k` values of a division, whatever stands behind it. -/
theorem decodeRuns_take (h : Runs w vs bytes) (hw : 0 < w ∧ w ≤ 32) (hsize : bytes.length < 2 ^ 61) (rest : Bytes)
    (hf : bytes.length ≤ f) (hk : k ≤ vs.length) : decodeRuns w f k (bytes ++ rest) = .ok (vs.take k) := by
  induction h generalizing f k with
  | nil =>
    obtain rfl : k = 0 := Nat.le_zero.1 hk
    exact decodeRuns_zero _ _ _
  | @rle n v header vs bytes hv hh h ih =>
    have hpos := hh.1.length_pos
    simp only [length_append, length_replicate] at hf hk hsize
    obtain ⟨f, rfl⟩ := Nat.exists_eq_succ_of_ne_zero (by omega : f ≠ 0)
    cases k with
    | zero => exact decodeRuns_zero _ _ _
    | succ m =>
      rw [append_assoc, append_assoc]
      obtain ⟨x, hx, hread⟩ := readUnsignedVarint_of hh (leBytes ((w + 7) / 8) v ++ (bytes ++ rest))
      have hbytes := leBytes_length ((w + 7) / 8) v
      have hhalf : x.toNat / 2 = n := by omega
      have hval : leNat (leBytes ((w + 7) / 8) v) = v := by
        rw [leNat_leBytes, Nat.mod_eq_of_lt]
        refine Nat.lt_of_lt_of_le hv ?_
        rw [show (256 : Nat) = 2 ^ 8 from rfl, ← Nat.pow_mul]
        exact Nat.pow_le_pow_right (by decide) (by omega)
      have hsub : m + 1 - min n (m + 1) = m + 1 - n := by omega
      rw [decodeRuns_rle hread (by omega) hw.2 (by rw [length_append, hbytes]; omega), hhalf,
        drop_left' hbytes, take_left' hbytes, hval, hsub, ih (by omega) (by omega) (by omega),
        take_append, take_replicate, length_replicate, Nat.min_comm]
      rfl
  | @packed groups us header vs bytes hlen hu hh h ih =>
    have hpos := hh.1.length_pos
    simp only [length_append, leBytes_length] at hf hk hsize
    obtain ⟨f, rfl⟩ := Nat.exists_eq_succ_of_ne_zero (by omega : f ≠ 0)
    by_cases hzero : k = 0
    · rw [hzero, decodeRuns_zero, take_zero]
    · rw [append_assoc, append_assoc, Nat.succ_eq_add_one,
        decodeRuns_groups _ hzero hw (by omega) hlen hu hh, ih (by omega) (by omega) (by omega), take_append]
      rfl
  | padded groups us pad header hlen hu hh =>
    have hpos := hh.1.length_pos
    simp only [length_append, leBytes_length] at hf hsize
    obtain ⟨f, rfl⟩ := Nat.exists_eq_succ_of_ne_zero (by omega : f ≠ 0)
    by_cases hzero : k = 0
    · rw [hzero, decodeRuns_zero, take_zero]
    · have hnone : k - (us ++ pad).length = 0 := by rw [length_append]; omega
      rw [append_assoc, Nat.succ_eq_add_one, decodeRuns_groups _ hzero hw (by omega) hlen hu hh, hnone,
        decodeRuns_zero, take_append_of_le_length hk]
      exact congrArg Except.ok (append_nil _)

/-- **Every division into runs.** -/
theorem decodeHybrid_runs (h : Runs w vs bytes) (hv : ∀ v ∈ vs, v < 2 ^ w) (hw : w ≤ 32) (hsize : bytes.length < 2 ^ 61)
    (hlen : vs.length < 2 ^ 61) : decodeHybrid bytes w vs.length = .ok vs := by
  rw [decodeHybrid, if_neg (Nat.not_le.2 hlen)]
  split
  · rename_i hzero
    subst hzero
    congr 1
    symm
    exact eq_replicate_iff.2 ⟨rfl, fun v hm => by simpa using hv v hm⟩
  · have := decodeRuns_take h ⟨by omega, hw⟩ hsize [] (Nat.le_succ _) (Nat.le_refl _)
    rwa [append_nil, take_length] at this

/-- `bytes` covers `vs`: its runs hold `vs` and, where a run at the end is
longer than needed, something behind it. -/
def Covers (w : Nat) (vs : List Nat) (bytes : Bytes) : Prop := ∃ beyond, Runs w (vs ++ beyond) bytes

/-- **Every covering by runs, whatever follows it.** The bounds on the lengths
are those of slices and vectors of `u32`s; below them no product wraps. -/
theorem covering_decoded {w : Nat} (hw : 1 ≤ w) (hw32 : w ≤ 32) {vs : List Nat} {bytes : Bytes} (h : Covers w vs bytes)
    (hsize : bytes.length < 2 ^ 61) (hlen : vs.length < 2 ^ 61) (rest : Bytes) :
    decodeHybrid (bytes ++ rest) w vs.length = .ok vs := by
  obtain ⟨beyond, h⟩ := h
  have hdecode := decodeRuns_take h ⟨hw, hw32⟩ hsize rest (f := (bytes ++ rest).length + 1) (k := vs.length)
    (by rw [length_append]; omega) (by rw [length_append]; omega)
  rw [decodeHybrid, if_neg (Nat.not_le.2 hlen), if_neg (by omega), hdecode, take_left]

/-- An empty run, a repeated value, a packed group filled up and a run that
is not needed, then other bytes. -/
theorem mixed_runs_decoded : decodeHybrid ([0, 7, 4, 5, 3, 0xD1, 0x58, 0x1F, 200, 1, 6] ++ [255, 255]) 3 4 =
    .ok [5, 5, 1, 2] := by
  have hlast : Runs 3 (List.replicate 100 6 ++ []) ([200, 1] ++ (leBytes 1 6 ++ [])) :=
    .rle 100 6 [200, 1] (by decide) ⟨.more 72 1 _ (by decide) (.last 1 (by decide)), by decide, by decide⟩ .nil
  have hpacked := Runs.packed 1 [1, 2, 3, 4, 5, 6, 7, 0] [3] (by decide) (by decide)
    ⟨.last 3 (by decide), by decide, by decide⟩ hlast
  have hrle := Runs.rle 2 5 [4] (by decide) ⟨.last 4 (by decide), by decide, by decide⟩ hpacked
  have hcovers : Covers 3 [5, 5, 1, 2] [0, 7, 4, 5, 3, 0xD1, 0x58, 0x1F, 200, 1, 6] :=
    ⟨_, Runs.rle 0 7 [0] (by decide) ⟨.last 0 (by decide), by decide, by decide⟩ hrle⟩
  exact covering_decoded (by decide) (by decide) hcovers (by decide) (by decide) _

end DbStorage.Parquet
