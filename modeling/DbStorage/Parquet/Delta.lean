import DbStorage.Core.PageWalk
import DbStorage.Parquet.Hybrid

/-!
# DELTA_BINARY_PACKED (`parquet/encoding.rs`)

A stream has a header (block size, miniblocks of a block, number of values,
first value) and then blocks. A block states the least difference of its
values and a bit width for each of its miniblocks, and a miniblock has the
differences less the least one, packed. `checked` says whether the program
is built with overflow checks; without, numbers wrap around.

`Stream` says which bytes a writer may use: any block size and number of
miniblocks of the format, any least difference and widths that fit, anything
behind the values of the last miniblock, and no bytes for those it does not
reach.

Result: `decode_returns_iff` (without overflow checks the decoder returns the
values exactly when the vectors it makes on the way are possible ones) and
`large_block_panics` (a stream of fourteen bytes for which they are not).
-/
namespace DbStorage.Parquet.Delta
open Bytes List
open PageWalk (bind_eq_ok_iff)

/-- A decoder ends without a result by an error or by a panic. -/
inductive Stop where
  | error (e : EncodingError)
  | panicked
  deriving DecidableEq

abbrev Run := Except Stop

/-! ## Operations that may panic -/

/-- `Vec::with_capacity(count)`, or `vec![0; count]`, of elements of `size` bytes. -/
def reserve (count size : Nat) : Run Unit := if 2 ^ 63 ≤ count * size then .error .panicked else .ok ()

def mulUsize (checked : Bool) (a b : Nat) : Run Nat :=
  if checked = true ∧ 2 ^ 64 ≤ a * b then .error .panicked else .ok (a * b % 2 ^ 64)

def addI64 (checked : Bool) (a b : Int64) : Run Int64 :=
  if checked = true ∧ (a + b).toInt ≠ a.toInt + b.toInt then .error .panicked else .ok (a + b)

def shl (checked : Bool) (v : UInt64) (n : Nat) : Run UInt64 :=
  if checked = true ∧ 64 ≤ n then .error .panicked else .ok (v <<< UInt64.ofNat n)

def index (bytes : Bytes) (i : Nat) : Run UInt8 :=
  match bytes[i]? with
  | none => .error .panicked
  | some b => .ok b

def fail {α : Type} (e : EncodingError) : Run α := .error (.error e)

/-! ## The decoder -/

def readVarint (buf : Bytes) : Run (UInt64 × Bytes) := (readUnsignedVarint buf).mapError .error

/-- mirrors encoding.rs:113-116 -/
def readZigzagVarint (buf : Bytes) : Run (Int64 × Bytes) := do
  let (raw, rest) ← readVarint buf
  pure ((raw >>> 1).toInt64 ^^^ -(raw &&& 1).toInt64, rest)

/-- The loop over the bits of one value. -/
def unpackBits (checked : Bool) (bytes : Bytes) (bitPos : Nat) : Nat → Run UInt64
  | 0 => .ok 0
  | bit + 1 => do
    let value ← unpackBits checked bytes bitPos bit
    let globalBit := (bitPos + bit) % 2 ^ 64
    let byte ← index bytes (globalBit / 8)
    let b := (byte >>> UInt8.ofNat (globalBit % 8)) &&& 1
    let b ← shl checked b.toUInt64 bit
    pure (value ||| b)

/-- The loop over the values. -/
def unpackAll (checked : Bool) (bytes : Bytes) (bitWidth : Nat) : Nat → Nat → Run (List UInt64)
  | 0, _ => .ok []
  | n + 1, bitPos => do
    let value ← unpackBits checked bytes bitPos bitWidth
    let more ← unpackAll checked bytes bitWidth n (bitPos + bitWidth)
    pure (value :: more)

/-- mirrors encoding.rs:121-142 -/
def unpackBitPacked (checked : Bool) (data : Bytes) (bitWidth count : Nat) : Run (List UInt64) :=
  if bitWidth = 0 then do
    reserve count 8
    pure (List.replicate count 0)
  else do
    let bits ← mulUsize checked count bitWidth
    let byteCount := (bits + 7) / 8
    if data.length < byteCount then fail .unexpectedEof
    else do
      reserve count 8
      unpackAll checked (data.take byteCount) bitWidth count 0

/-- The loop over the values of a miniblock: at most `n` are still wanted. -/
def addDeltas (checked : Bool) (minDelta : Int64) : Nat → Int64 → List UInt64 → Run (List Int64)
  | 0, _, _ => .ok []
  | _ + 1, _, [] => .ok []
  | n + 1, prev, raw :: packed => do
    let delta ← addI64 checked minDelta raw.toInt64
    let value ← addI64 checked prev delta
    let more ← addDeltas checked minDelta n value packed
    pure (value :: more)

/-- The loop over the miniblocks of a block. -/
def miniblocks (checked : Bool) (perMiniblock : Nat) (minDelta : Int64) :
    List UInt8 → Nat → Int64 → Bytes → Run (List Int64 × Bytes)
  | [], _, _, data => .ok ([], data)
  | _ :: _, 0, _, data => .ok ([], data)
  | w :: ws, n + 1, prev, data => do
    let packed ← unpackBitPacked checked data w.toNat perMiniblock
    let bits ← mulUsize checked perMiniblock w.toNat
    let values ← addDeltas checked minDelta (n + 1) prev packed
    let (more, rest) ← miniblocks checked perMiniblock minDelta ws (n + 1 - values.length) (values.getLastD prev)
      (data.drop ((bits + 7) / 8))
    pure (values ++ more, rest)

/-- The loop over the blocks. -/
def blocks (checked : Bool) (miniblocksPerBlock perMiniblock : Nat) : Nat → Nat → Int64 → Bytes → Run (List Int64)
  | _, 0, _, _ => .ok []
  | 0, _ + 1, _, _ => fail .outOfFuel
  | f + 1, n + 1, prev, data => do
    let (minDelta, data) ← readZigzagVarint data
    reserve miniblocksPerBlock 4
    if data.length < miniblocksPerBlock then fail .unexpectedEof
    else do
      let (values, rest) ← miniblocks checked perMiniblock minDelta (data.take miniblocksPerBlock) (n + 1) prev
        (data.drop miniblocksPerBlock)
      let more ← blocks checked miniblocksPerBlock perMiniblock f (n + 1 - values.length) (values.getLastD prev) rest
      pure (values ++ more)

/-- `checked_div` is 0 for no miniblocks, as is `Nat.div`.
mirrors encoding.rs:156-192 -/
def decodeDeltaBinaryPacked (checked : Bool) (data : Bytes) : Run (List Int64) := do
  let (blockSize, data) ← readVarint data
  let (miniblocksPerBlock, data) ← readVarint data
  let (totalCount, data) ← readVarint data
  let (firstValue, data) ← readZigzagVarint data
  reserve totalCount.toNat 8
  if totalCount.toNat = 0 then pure []
  else do
    let more ← blocks checked miniblocksPerBlock.toNat (blockSize.toNat / miniblocksPerBlock.toNat) (data.length + 1)
      (totalCount.toNat - 1) firstValue data
    pure (firstValue :: more)

/-! ## What is written -/

/-- The differences less the least one, as unsigned numbers. -/
def raws (minDelta : Int64) : Int64 → List Int64 → List Nat
  | _, [] => []
  | prev, v :: vs => (v - prev - minDelta).toUInt64.toNat :: raws minDelta v vs

/-- The miniblocks of one block with the values `us` behind `prev`, of which
those with the widths `used` have values. -/
inductive Miniblocks (perMiniblock : Nat) (minDelta : Int64) :
    Int64 → List Int64 → List UInt8 → List Nat → Bytes → Prop
  | unused (prev : Int64) (ws : List UInt8) : Miniblocks perMiniblock minDelta prev [] ws [] []
  | used (prev : Int64) (us vs : List Int64) (w : UInt8) (ws : List UInt8) (used : List Nat) (pad : List Nat)
      (bytes : Bytes) (hne : us ≠ []) (hw : w.toNat ≤ 64) (hfull : vs ≠ [] → pad = [])
      (hlen : (raws minDelta prev us ++ pad).length = perMiniblock)
      (hfit : ∀ r ∈ raws minDelta prev us ++ pad, r < 2 ^ w.toNat)
      (h : Miniblocks perMiniblock minDelta (us.getLastD prev) vs ws used bytes) :
      Miniblocks perMiniblock minDelta prev (us ++ vs) (w :: ws) (w.toNat :: used)
        (leBytes ((perMiniblock * w.toNat + 7) / 8) (packNat w.toNat (raws minDelta prev us ++ pad)) ++ bytes)

/-- The blocks with the values behind `prev`: all but the last are full. -/
inductive Blocks (blockSize miniblocksPerBlock : Nat) : Int64 → List Int64 → List Nat → Bytes → Prop
  | nil (prev : Int64) : Blocks blockSize miniblocksPerBlock prev [] [] []
  | cons (prev minDelta : Int64) (us vs : List Int64) (ws : List UInt8) (used more : List Nat)
      (deltaBytes bytes rest : Bytes) (hne : us ≠ []) (hfull : vs ≠ [] → us.length = blockSize)
      (hd : Varint (zigzag minDelta.toInt) deltaBytes) (hws : ws.length = miniblocksPerBlock)
      (hm : Miniblocks (blockSize / miniblocksPerBlock) minDelta prev us ws used bytes)
      (h : Blocks blockSize miniblocksPerBlock (us.getLastD prev) vs more rest) :
      Blocks blockSize miniblocksPerBlock prev (us ++ vs) (used ++ more) (deltaBytes ++ (ws ++ (bytes ++ rest)))

/-- The block size is a multiple of 128, and a miniblock has a multiple of 32
values. -/
structure Rules (blockSize miniblocksPerBlock : Nat) : Prop where
  block : 128 ∣ blockSize
  divides : miniblocksPerBlock ∣ blockSize
  miniblock : 32 ∣ blockSize / miniblocksPerBlock
  pos : 0 < blockSize

/-- A stream with the values `vs`; the one without values has a first value
all the same. -/
inductive Stream (blockSize miniblocksPerBlock : Nat) (vs : List Int64) (used : List Nat) : Bytes → Prop
  | mk (first : Int64) (size count total firstBytes bytes : Bytes)
      (rules : Rules blockSize miniblocksPerBlock) (hsize : Varint blockSize size)
      (hcount : Varint miniblocksPerBlock count) (htotal : Varint vs.length total)
      (hfirst : Varint (zigzag first.toInt) firstBytes) (hhead : ∀ v ∈ vs.head?, v = first)
      (h : Blocks blockSize miniblocksPerBlock first vs.tail used bytes) :
      Stream blockSize miniblocksPerBlock vs used (size ++ (count ++ (total ++ (firstBytes ++ bytes))))

/-! ## Bits -/

theorem index_eq {bytes : Bytes} {i : Nat} (h : i < bytes.length) : index bytes i = .ok (bytes.getD i 0) := by
  rw [index, List.getElem?_eq_getElem h, getD_eq_getElem _ _ h]

variable {checked : Bool} {n count p w : Nat} {xs : List UInt64}

theorem shl_eq {v : UInt64} (h : n < 64) :
    shl checked v n = .ok (v <<< UInt64.ofNat n) :=
  if_neg fun hc => absurd hc.2 (Nat.not_le.2 h)

theorem mulUsize_eq {a b : Nat} (h : a * b < 2 ^ 64) : mulUsize checked a b = .ok (a * b) := by
  rw [mulUsize, if_neg fun hc => absurd hc.2 (Nat.not_le.2 h), Nat.mod_eq_of_lt h]

theorem reserve_eq {size : Nat} (h : count * size < 2 ^ 63) : reserve count size = .ok () :=
  if_neg (Nat.not_le.2 h)

theorem reserve_ok {size : Nat} {u : Unit} (h : reserve count size = .ok u) : count * size < 2 ^ 63 := by
  by_contra hn
  rw [reserve, if_pos (Nat.not_lt.1 hn)] at h
  cases h

theorem unpackValue_lt (bytes : Bytes) (bitPos w : Nat) : unpackValue bytes bitPos w < 2 ^ w := by
  refine Nat.lt_pow_two_of_testBit _ fun i hi => ?_
  rw [testBit_unpackValue]
  simp [Nat.not_lt.2 hi]

theorem unpackBits_eq (checked : Bool) {bytes : Bytes} (hw : w ≤ 64) (hlen : p + w ≤ 8 * bytes.length)
    (hpos : p + w ≤ 2 ^ 64) : ∃ x : UInt64, x.toNat = unpackValue bytes p w ∧ unpackBits checked bytes p w = .ok x := by
  induction w with
  | zero => exact ⟨0, rfl, rfl⟩
  | succ w ih =>
    obtain ⟨x, hx, hread⟩ := ih (by omega) (by omega) (by omega)
    have hmod : (p + w) % 2 ^ 64 = p + w := Nat.mod_eq_of_lt (by omega)
    have hlt := unpackValue_lt bytes p w
    have hbit : ((bytes.getD ((p + w) / 8) 0 >>> UInt8.ofNat ((p + w) % 8)) &&& 1).toUInt64.toNat = bitAt bytes (p + w) := by
      have hsh : (UInt8.ofNat ((p + w) % 8)).toNat % 8 = (p + w) % 8 := by
        rw [UInt8.toNat_ofNat']
        omega
      rw [UInt8.toNat_toUInt64, UInt8.toNat_and, UInt8.toNat_shiftRight, hsh]
      rfl
    have hle : bitAt bytes (p + w) ≤ 1 := by
      rw [bitAt, Nat.and_one_is_mod]
      omega
    have hpow : bitAt bytes (p + w) * 2 ^ w < 2 ^ 64 := by
      have h1 : bitAt bytes (p + w) * 2 ^ w ≤ 1 * 2 ^ w := Nat.mul_le_mul_right _ hle
      have h2 : 2 ^ w < 2 ^ 64 := Nat.pow_lt_pow_right (by decide) (by omega)
      omega
    refine ⟨x ||| ((bytes.getD ((p + w) / 8) 0 >>> UInt8.ofNat ((p + w) % 8)) &&& 1).toUInt64 <<< UInt64.ofNat w, ?_, ?_⟩
    · rw [or_shift (by omega) (by rw [hx]; exact hlt) (by rw [hbit]; exact hpow), hx, hbit, unpackValue, Nat.or_comm,
        Nat.shiftLeft_eq, Nat.mul_comm, ← Nat.two_pow_add_eq_or_of_lt hlt, Nat.add_comm]
    · simp only [unpackBits, hread, hmod, index_eq (show (p + w) / 8 < bytes.length by omega),
        shl_eq (show w < 64 by omega), bind, Except.bind, pure, Except.pure]

theorem unpackAll_eq (checked : Bool) (bytes : Bytes) (hw : w ≤ 64) (hlen : p + n * w ≤ 8 * bytes.length)
    (hpos : p + n * w ≤ 2 ^ 64) :
    ∃ xs : List UInt64, xs.map UInt64.toNat = (List.range n).map (fun i => unpackValue bytes (p + i * w) w) ∧
      unpackAll checked bytes w n p = .ok xs := by
  induction n generalizing p with
  | zero => exact ⟨[], rfl, rfl⟩
  | succ n ih =>
    rw [Nat.succ_mul] at hlen hpos
    obtain ⟨x, hx, hread⟩ := unpackBits_eq checked hw (show p + w ≤ 8 * bytes.length by omega) (by omega)
    obtain ⟨xs, hxs, hmore⟩ := ih (p := p + w) (by omega) (by omega)
    refine ⟨x :: xs, ?_, ?_⟩
    · rw [range_succ_eq_map, map_cons, map_cons, hx, hxs, map_map, Nat.zero_mul, Nat.add_zero]
      congr 1
      refine map_congr_left fun i _ => ?_
      simp only [Function.comp_apply, Nat.succ_mul]
      congr 1
      omega
    · simp only [unpackAll, hread, hmore, bind, Except.bind, pure, Except.pure]

theorem unpackBits_ok {bytes : Bytes} {x : UInt64} (h : unpackBits checked bytes p w = .ok x) :
    ∀ bit < w, (p + bit) % 2 ^ 64 / 8 < bytes.length := by
  induction w generalizing x with
  | zero => exact fun bit hb => absurd hb (Nat.not_lt_zero bit)
  | succ w ih =>
    intro bit hb
    obtain ⟨value, hvalue, h⟩ := bind_eq_ok_iff.1 h
    obtain ⟨byte, hbyte, -⟩ := bind_eq_ok_iff.1 h
    obtain hlt | rfl : bit < w ∨ bit = w := by omega
    · exact ih hvalue bit hlt
    · by_contra hn
      rw [index, List.getElem?_eq_none (Nat.not_lt.1 hn)] at hbyte
      cases hbyte

theorem unpackAll_ok {bytes : Bytes} (h : unpackAll checked bytes w n p = .ok xs) {i : Nat} (hi : i < n) :
    ∃ x, unpackBits checked bytes (p + i * w) w = .ok x := by
  induction n generalizing p xs i with
  | zero => exact absurd hi (Nat.not_lt_zero i)
  | succ n ih =>
    obtain ⟨x, hx, h⟩ := bind_eq_ok_iff.1 h
    obtain ⟨more, hmore, -⟩ := bind_eq_ok_iff.1 h
    cases i with
    | zero => exact ⟨x, by rwa [Nat.zero_mul, Nat.add_zero]⟩
    | succ i =>
      have := ih hmore (Nat.lt_of_succ_lt_succ hi)
      rwa [Nat.succ_mul, ← Nat.add_assoc, Nat.add_right_comm]

/-! ## Miniblocks -/

/-- The vectors of a miniblock of `count` values of `w` bits are possible. -/
def Fits (count w : Nat) : Prop := count * 8 < 2 ^ 63 ∧ count * w < 2 ^ 64

theorem unpackBitPacked_eq (checked : Bool) {us : List Nat} (hf : Fits count w) (hw : w ≤ 64) (hlen : us.length = count)
    (hu : ∀ u ∈ us, u < 2 ^ w) (rest : Bytes) :
    ∃ xs : List UInt64, xs.map UInt64.toNat = us ∧
      unpackBitPacked checked (leBytes ((count * w + 7) / 8) (packNat w us) ++ rest) w count = .ok xs := by
  by_cases h0 : w = 0
  · refine ⟨List.replicate count 0, ?_, ?_⟩
    · rw [map_replicate]
      refine (eq_replicate_iff.2 ⟨hlen, fun u hm => ?_⟩).symm
      have := hu u hm
      rw [h0] at this
      exact Nat.lt_one_iff.1 this
    · rw [unpackBitPacked, if_pos h0, reserve_eq hf.1]
      rfl
  · have hbytes := leBytes_length ((count * w + 7) / 8) (packNat w us)
    obtain ⟨xs, hxs, hread⟩ := unpackAll_eq checked (leBytes ((count * w + 7) / 8) (packNat w us)) (n := count)
      (p := 0) hw (by rw [hbytes]; omega) (by rw [Nat.zero_add]; exact Nat.le_of_lt hf.2)
    refine ⟨xs, ?_, ?_⟩
    · rw [hxs]
      refine ext_getElem (by simp [hlen]) fun i hi _ => ?_
      have hic : i < count := by simpa using hi
      have hle : (i + 1) * w ≤ count * w := Nat.mul_le_mul_right w hic
      rw [getElem_map, getElem_range, Nat.zero_add, unpackValue_packed hu (by omega),
        getD_eq_getElem _ _ (by omega)]
    · rw [unpackBitPacked, if_neg h0, mulUsize_eq hf.2]
      simp only [bind, Except.bind]
      rw [if_neg (by rw [length_append, hbytes]; omega), reserve_eq hf.1, take_left' hbytes]
      exact hread

/-- Where the number of bits wraps around, the bits are looked for behind the
bytes that were taken. -/
theorem unpackBitPacked_ok {data : Bytes} (h32 : 32 ∣ count) (h : unpackBitPacked false data w count = .ok xs) :
    Fits count w := by
  by_cases h0 : w = 0
  · rw [unpackBitPacked, if_pos h0] at h
    obtain ⟨u, hu, -⟩ := bind_eq_ok_iff.1 h
    exact ⟨reserve_ok hu, by rw [h0, Nat.mul_zero]; decide⟩
  · rw [unpackBitPacked, if_neg h0] at h
    obtain ⟨bits, hbits, h⟩ := bind_eq_ok_iff.1 h
    obtain rfl : count * w % 2 ^ 64 = bits := by
      rw [mulUsize, if_neg (fun hc => Bool.false_ne_true hc.1)] at hbits
      exact Except.ok.inj hbits
    dsimp only at h
    split at h
    · cases h
    · obtain ⟨u, hu, hall⟩ := bind_eq_ok_iff.1 h
      refine ⟨reserve_ok hu, ?_⟩
      by_contra hwrap
      -- the bit behind the bytes taken is bit `g % w` of value `g / w`
      obtain ⟨g, hg⟩ : ∃ g, g = count * w % 2 ^ 64 := ⟨_, rfl⟩
      have hlt : g < 2 ^ 64 := by
        rw [hg]
        exact Nat.mod_lt _ (by decide)
      have h8 : g % 8 = 0 := by
        obtain ⟨k, rfl⟩ := h32
        have hdvd : 8 ∣ 32 * k * w := ⟨4 * (k * w), by ring⟩
        rw [hg, Nat.mod_mod_of_dvd _ (by decide : 8 ∣ 2 ^ 64)]
        exact Nat.mod_eq_zero_of_dvd hdvd
      have hw : 0 < w := Nat.pos_of_ne_zero h0
      have hi : g / w < count := (Nat.div_lt_iff_lt_mul hw).2 (by omega)
      obtain ⟨x, hx⟩ := unpackAll_ok hall hi
      have hin := unpackBits_ok hx (g % w) (Nat.mod_lt _ hw)
      rw [Nat.zero_add, Nat.div_add_mod', Nat.mod_eq_of_lt hlt, length_take, ← hg] at hin
      omega

@[simp] theorem raws_length (minDelta prev : Int64) (us : List Int64) : (raws minDelta prev us).length = us.length := by
  induction us generalizing prev with
  | nil => rfl
  | cons v us ih => rw [raws, length_cons, ih, length_cons]

theorem addI64_release (a b : Int64) : addI64 false a b = .ok (a + b) := if_neg fun hc => Bool.false_ne_true hc.1

/-- Adding up the differences gives the values, in wrapping arithmetic. -/
theorem addDeltas_raws {minDelta prev : Int64} {us : List Int64} {pad : List Nat}
    (hxs : xs.map UInt64.toNat = raws minDelta prev us ++ pad) (hle : us.length ≤ n) (hn : us.length < n → pad = []) :
    addDeltas false minDelta n prev xs = .ok us := by
  induction us generalizing prev xs n with
  | nil =>
    cases n with
    | zero => rfl
    | succ n =>
      rw [hn (Nat.succ_pos n), raws, append_nil, map_eq_nil_iff] at hxs
      rw [hxs]
      rfl
  | cons v us ih =>
    obtain ⟨n, rfl⟩ : ∃ m, n = m + 1 := Nat.exists_eq_succ_of_ne_zero (by simp at hle; omega)
    cases xs with
    | nil => cases hxs
    | cons x xs =>
      rw [raws, map_cons, cons_append, List.cons.injEq] at hxs
      obtain ⟨hx, hxs⟩ := hxs
      have hraw : x.toInt64 = v - prev - minDelta := by
        rw [UInt64.toNat_inj.1 hx, Int64.toInt64_toUInt64]
      have hsum : prev + (minDelta + x.toInt64) = v := by
        rw [hraw]
        grind
      have hmore := ih hxs (Nat.le_of_succ_le_succ hle) (fun h => hn (Nat.succ_lt_succ h))
      simp only [addDeltas, addI64_release, bind, Except.bind, hsum, hmore, pure, Except.pure]

section Miniblocks
variable {perMiniblock : Nat} {minDelta prev : Int64} {us : List Int64} {ws : List UInt8} {used : List Nat} {bytes : Bytes}

/-- At most one value for each place of the widths that are there. -/
theorem Miniblocks.length_le (h : Miniblocks perMiniblock minDelta prev us ws used bytes) :
    us.length ≤ perMiniblock * ws.length := by
  induction h with
  | unused prev ws => exact Nat.zero_le _
  | used prev us vs w ws used pad bytes hne hw hfull hlen hfit h ih =>
    rw [length_append, raws_length] at hlen
    rw [length_append, length_cons, Nat.mul_succ]
    omega

/-- The values wanted are those of the block, or the block is full. -/
structure Wanted (perMiniblock n : Nat) (us : List Int64) (ws : List UInt8) : Prop where
  le : us.length ≤ n
  full : us.length < n → us.length = perMiniblock * ws.length

/-- One miniblock: what it yields, and what is wanted of the next ones. -/
theorem miniblock_step {vs : List Int64} {w : UInt8} {pad : List Nat} (hw : w.toNat ≤ 64) (hfull : vs ≠ [] → pad = [])
    (hlen : (raws minDelta prev us ++ pad).length = perMiniblock)
    (hfit : ∀ r ∈ raws minDelta prev us ++ pad, r < 2 ^ w.toNat) (hvs : vs.length ≤ perMiniblock * ws.length)
    (hn : Wanted perMiniblock n (us ++ vs) (w :: ws)) (hf : Fits perMiniblock w.toNat) (rest : Bytes) :
    ∃ xs, unpackBitPacked false (leBytes ((perMiniblock * w.toNat + 7) / 8) (packNat w.toNat (raws minDelta prev us ++ pad)) ++
        rest) w.toNat perMiniblock = .ok xs ∧
      addDeltas false minDelta n prev xs = .ok us ∧ Wanted perMiniblock (n - us.length) vs ws := by
  obtain ⟨xs, hxs, hread⟩ := unpackBitPacked_eq false hf hw hlen hfit rest
  obtain ⟨hle, hnfull⟩ := hn
  rw [length_append] at hle hnfull
  rw [length_append, raws_length] at hlen
  have hmul : perMiniblock * (w :: ws).length = perMiniblock * ws.length + perMiniblock := by
    rw [length_cons, Nat.mul_succ]
  have hpad : us.length < n → pad = [] := by
    intro hlt
    by_cases hnil : vs = []
    · rw [hnil, length_nil, Nat.add_zero, hmul] at hnfull
      exact eq_nil_of_length_eq_zero (by have := hnfull hlt; omega)
    · exact hfull hnil
  refine ⟨xs, hread, addDeltas_raws hxs (by omega) hpad, ⟨by omega, fun hlt => ?_⟩⟩
  have := hnfull (by omega)
  omega

theorem miniblocks_eq (hpos : 0 < perMiniblock) (h : Miniblocks perMiniblock minDelta prev us ws used bytes)
    (hn : Wanted perMiniblock n us ws) (hf : ∀ w ∈ used, Fits perMiniblock w) (rest : Bytes) :
    miniblocks false perMiniblock minDelta ws n prev (bytes ++ rest) = .ok (us, rest) := by
  induction h generalizing n with
  | unused prev ws =>
    cases ws with
    | nil => rfl
    | cons w ws =>
      cases n with
      | zero => rfl
      | succ n =>
        have := hn.full (Nat.succ_pos n)
        rw [length_cons, Nat.mul_succ, length_nil] at this
        omega
  | used prev us vs w ws used pad bytes hne hw hfull hlen hfit h ih =>
    have hfw := hf w.toNat mem_cons_self
    obtain ⟨xs, hread, hadd, hnext⟩ := miniblock_step hw hfull hlen hfit h.length_le hn hfw (bytes ++ rest)
    have hmore := ih hnext fun w hw => hf w (mem_cons_of_mem _ hw)
    obtain ⟨n, rfl⟩ : ∃ m, n = m + 1 := by
      refine Nat.exists_eq_succ_of_ne_zero fun h0 => hne ?_
      have := hn.le
      rw [length_append] at this
      exact eq_nil_of_length_eq_zero (by omega)
    rw [append_assoc]
    simp only [miniblocks, hread, bind, Except.bind, mulUsize_eq hfw.2, hadd, drop_left' (leBytes_length _ _), hmore,
      pure, Except.pure]

theorem miniblocks_ok (h32 : 32 ∣ perMiniblock) (h : Miniblocks perMiniblock minDelta prev us ws used bytes)
    (hn : Wanted perMiniblock n us ws) {rest : Bytes} {r : List Int64 × Bytes}
    (hr : miniblocks false perMiniblock minDelta ws n prev (bytes ++ rest) = .ok r) :
    ∀ w ∈ used, Fits perMiniblock w := by
  induction h generalizing n r with
  | unused prev ws => exact fun w hw => absurd hw not_mem_nil
  | used prev us vs w ws used pad bytes hne hw hfull hlen hfit h ih =>
    obtain ⟨n, rfl⟩ : ∃ m, n = m + 1 := by
      refine Nat.exists_eq_succ_of_ne_zero fun h0 => hne ?_
      have := hn.le
      rw [length_append] at this
      exact eq_nil_of_length_eq_zero (by omega)
    rw [miniblocks] at hr
    obtain ⟨xs, hxs, hr⟩ := bind_eq_ok_iff.1 hr
    have hfw := unpackBitPacked_ok h32 hxs
    obtain ⟨xs', hread, hadd, hnext⟩ := miniblock_step hw hfull hlen hfit h.length_le hn hfw (bytes ++ rest)
    rw [append_assoc, hread] at hxs
    cases hxs
    rw [mulUsize_eq hfw.2, append_assoc] at hr
    obtain ⟨bits, hbits, hr⟩ := bind_eq_ok_iff.1 hr
    cases hbits
    obtain ⟨values, hvalues, hr⟩ := bind_eq_ok_iff.1 hr
    rw [hadd] at hvalues
    cases hvalues
    obtain ⟨r', hr', -⟩ := bind_eq_ok_iff.1 hr
    rw [drop_left' (leBytes_length _ _)] at hr'
    intro u hu
    obtain rfl | hu := mem_cons.1 hu
    · exact hfw
    · exact ih hnext hr' u hu

end Miniblocks

/-! ## Blocks -/

theorem readVarint_of {v : Nat} {bytes : Bytes} (h : Varint v bytes) (rest : Bytes) :
    ∃ x : UInt64, x.toNat = v ∧ readVarint (bytes ++ rest) = .ok (x, rest) := by
  obtain ⟨x, hx, hread⟩ := readUnsignedVarint_of h rest
  exact ⟨x, hx, by rw [readVarint, hread]; rfl⟩

theorem readZigzagVarint_of {v : Int64} {bytes : Bytes} (h : Varint (zigzag v.toInt) bytes) (rest : Bytes) :
    readZigzagVarint (bytes ++ rest) = .ok (v, rest) := by
  obtain ⟨x, hx, hread⟩ := readVarint_of h rest
  simp only [readZigzagVarint, hread, bind, Except.bind, pure, Except.pure, zigzag_i64 hx]

section Blocks
variable {blockSize miniblocksPerBlock : Nat} {prev : Int64} {vs : List Int64} {used : List Nat} {bytes : Bytes}

theorem Rules.perMiniblock_pos (h : Rules blockSize miniblocksPerBlock) : 0 < blockSize / miniblocksPerBlock := by
  obtain ⟨k, hk⟩ := h.divides
  have hpos := h.pos
  have hm : 0 < miniblocksPerBlock := by
    refine Nat.pos_of_ne_zero fun h0 => ?_
    rw [h0, Nat.zero_mul] at hk
    omega
  exact Nat.div_pos (Nat.le_of_dvd hpos h.divides) hm

theorem Rules.mul (h : Rules blockSize miniblocksPerBlock) :
    blockSize / miniblocksPerBlock * miniblocksPerBlock = blockSize := Nat.div_mul_cancel h.divides

/-- What is wanted at a block: its values, or more if it is full. -/
theorem Rules.wanted (h : Rules blockSize miniblocksPerBlock) {us vs : List Int64} {ws : List UInt8}
    (hws : ws.length = miniblocksPerBlock) (hfull : vs ≠ [] → us.length = blockSize) :
    Wanted (blockSize / miniblocksPerBlock) (us ++ vs).length us ws := by
  refine ⟨by rw [length_append]; omega, fun hlt => ?_⟩
  rw [hws, h.mul]
  refine hfull fun hnil => ?_
  rw [hnil, append_nil] at hlt
  exact Nat.lt_irrefl _ hlt

/-- The vectors made on the way through blocks with the miniblocks `used`. -/
def AllFit (blockSize miniblocksPerBlock : Nat) (used : List Nat) : Prop :=
  miniblocksPerBlock * 4 < 2 ^ 63 ∧ ∀ w ∈ used, Fits (blockSize / miniblocksPerBlock) w

theorem Blocks.used_nil (h : Blocks blockSize miniblocksPerBlock prev vs used bytes) (hv : vs = []) : used = [] := by
  cases h with
  | nil => rfl
  | cons _ minDelta us vs ws used more deltaBytes bytes rest hne hfull hd hws hm h =>
    exact absurd hv (append_ne_nil_of_left_ne_nil hne vs)

theorem length_tail_append (us vs : List Int64) : (us ++ vs).length - us.length = vs.length := by
  rw [length_append, Nat.add_sub_cancel_left]

theorem blocks_eq (rules : Rules blockSize miniblocksPerBlock) (h : Blocks blockSize miniblocksPerBlock prev vs used bytes)
    (hf : vs ≠ [] → AllFit blockSize miniblocksPerBlock used) {f : Nat} (hfuel : bytes.length ≤ f) :
    blocks false miniblocksPerBlock (blockSize / miniblocksPerBlock) f vs.length prev bytes = .ok vs := by
  induction h generalizing f with
  | nil prev => cases f <;> rfl
  | cons prev minDelta us vs ws used more deltaBytes bytes rest hne hfull hd hws hm h ih =>
    have hdpos := hd.1.length_pos
    simp only [length_append] at hfuel
    obtain ⟨f, rfl⟩ : ∃ g, f = g + 1 := Nat.exists_eq_succ_of_ne_zero (by omega)
    obtain ⟨hcap, hfits⟩ := hf (append_ne_nil_of_left_ne_nil hne vs)
    have hmini := miniblocks_eq rules.perMiniblock_pos hm (rules.wanted hws hfull)
      (fun w hw => hfits w (mem_append_left _ hw)) rest
    have hmore := ih (f := f) (fun _ => ⟨hcap, fun w hw => hfits w (mem_append_right _ hw)⟩) (by omega)
    obtain ⟨n, hn⟩ : ∃ n, (us ++ vs).length = n + 1 :=
      Nat.exists_eq_succ_of_ne_zero fun h0 => append_ne_nil_of_left_ne_nil hne vs (eq_nil_of_length_eq_zero h0)
    have hsub : n + 1 - us.length = vs.length := by rw [← hn, length_tail_append]
    rw [hn] at hmini ⊢
    simp only [blocks, readZigzagVarint_of hd, bind, Except.bind, reserve_eq hcap]
    rw [if_neg (by rw [length_append]; omega)]
    simp only [take_left' hws, drop_left' hws, hmini, hsub, hmore, pure, Except.pure]

theorem blocks_ok (rules : Rules blockSize miniblocksPerBlock) (h : Blocks blockSize miniblocksPerBlock prev vs used bytes)
    {f : Nat} {r : List Int64} (hr : blocks false miniblocksPerBlock (blockSize / miniblocksPerBlock) f vs.length prev bytes = .ok r) :
    vs ≠ [] → AllFit blockSize miniblocksPerBlock used := by
  induction h generalizing f r with
  | nil prev => exact fun h => absurd rfl h
  | cons prev minDelta us vs ws used more deltaBytes bytes rest hne hfull hd hws hm h ih =>
    intro _
    obtain ⟨n, hn⟩ : ∃ n, (us ++ vs).length = n + 1 :=
      Nat.exists_eq_succ_of_ne_zero fun h0 => append_ne_nil_of_left_ne_nil hne vs (eq_nil_of_length_eq_zero h0)
    have hsub : n + 1 - us.length = vs.length := by rw [← hn, length_tail_append]
    have hwanted := rules.wanted hws hfull
    rw [hn] at hr hwanted
    cases f with
    | zero => cases hr
    | succ f =>
      rw [blocks, readZigzagVarint_of hd] at hr
      obtain ⟨d, hd', hr⟩ := bind_eq_ok_iff.1 hr
      cases hd'
      obtain ⟨u, hu, hr⟩ := bind_eq_ok_iff.1 hr
      dsimp only at hr
      rw [if_neg (by rw [length_append]; omega), take_left' hws, drop_left' hws] at hr
      obtain ⟨r', hr', hr⟩ := bind_eq_ok_iff.1 hr
      have hfits := miniblocks_ok rules.miniblock hm hwanted hr'
      rw [miniblocks_eq rules.perMiniblock_pos hm hwanted hfits rest] at hr'
      cases hr'
      obtain ⟨r'', hr'', -⟩ := bind_eq_ok_iff.1 hr
      rw [hsub] at hr''
      refine ⟨reserve_ok hu, fun w hw => ?_⟩
      obtain hw | hw := mem_append.1 hw
      · exact hfits w hw
      · refine (ih hr'' fun hnil => ?_).2 w hw
        rw [h.used_nil hnil] at hw
        cases hw

end Blocks

/-! ## Streams -/

section Streams
variable {blockSize miniblocksPerBlock : Nat} {vs : List Int64} {used : List Nat} {bytes : Bytes}

/-- The vectors made for a stream: that of the values, and if there is more
than the first value those of the blocks and miniblocks. -/
def Reservable (blockSize miniblocksPerBlock : Nat) (vs : List Int64) (used : List Nat) : Prop :=
  vs.length * 8 < 2 ^ 63 ∧ (2 ≤ vs.length → AllFit blockSize miniblocksPerBlock used)

theorem decode_header {first : Int64} {size count total firstBytes : Bytes} (hsize : Varint blockSize size)
    (hcount : Varint miniblocksPerBlock count) (htotal : Varint n total)
    (hfirst : Varint (zigzag first.toInt) firstBytes) (bytes : Bytes) :
    decodeDeltaBinaryPacked false (size ++ (count ++ (total ++ (firstBytes ++ bytes)))) = (do
      reserve n 8
      if n = 0 then pure []
      else do
        let more ← blocks false miniblocksPerBlock (blockSize / miniblocksPerBlock) (bytes.length + 1) (n - 1) first bytes
        pure (first :: more)) := by
  obtain ⟨x, rfl, hreadx⟩ := readVarint_of hsize (count ++ (total ++ (firstBytes ++ bytes)))
  obtain ⟨y, rfl, hready⟩ := readVarint_of hcount (total ++ (firstBytes ++ bytes))
  obtain ⟨z, rfl, hreadz⟩ := readVarint_of htotal (firstBytes ++ bytes)
  rw [decodeDeltaBinaryPacked, hreadx]
  simp only [bind, Except.bind, hready, hreadz, readZigzagVarint_of hfirst]

theorem decode_stream (h : Stream blockSize miniblocksPerBlock vs used bytes)
    (hr : Reservable blockSize miniblocksPerBlock vs used) : decodeDeltaBinaryPacked false bytes = .ok vs := by
  obtain ⟨first, size, count, total, firstBytes, bytes, rules, hsize, hcount, htotal, hfirst, hhead, h⟩ := h
  rw [decode_header hsize hcount htotal hfirst, reserve_eq hr.1]
  cases vs with
  | nil => rfl
  | cons v vs =>
    obtain rfl : v = first := hhead v rfl
    rw [tail_cons] at h
    have hblocks := blocks_eq rules h (fun hne => hr.2 ?_) (Nat.le_succ bytes.length)
    · simp only [bind, Except.bind, if_neg (Nat.succ_ne_zero vs.length), length_cons, Nat.add_sub_cancel,
        Nat.succ_eq_add_one] at hblocks ⊢
      rw [hblocks]
      rfl
    · have := length_pos_of_ne_nil hne
      rw [length_cons]
      omega

theorem decode_ok (h : Stream blockSize miniblocksPerBlock vs used bytes) {r : List Int64}
    (hr : decodeDeltaBinaryPacked false bytes = .ok r) : Reservable blockSize miniblocksPerBlock vs used := by
  obtain ⟨first, size, count, total, firstBytes, bytes, rules, hsize, hcount, htotal, hfirst, hhead, h⟩ := h
  rw [decode_header hsize hcount htotal hfirst] at hr
  obtain ⟨u, hu, hr⟩ := bind_eq_ok_iff.1 hr
  refine ⟨reserve_ok hu, fun h2 => ?_⟩
  rw [if_neg (by omega)] at hr
  obtain ⟨more, hmore, -⟩ := bind_eq_ok_iff.1 hr
  have hlen : vs.tail.length = vs.length - 1 := length_tail
  rw [← hlen] at hmore
  refine blocks_ok rules h hmore fun hnil => ?_
  rw [hnil, length_nil] at hlen
  omega

/-- **A stream is decoded to its values** exactly when the vectors on the way
can be reserved. -/
theorem decode_returns_iff (blockSize miniblocksPerBlock : Nat) (vs : List Int64) (used : List Nat) (bytes : Bytes)
    (h : Stream blockSize miniblocksPerBlock vs used bytes) :
    decodeDeltaBinaryPacked false bytes = .ok vs ↔ Reservable blockSize miniblocksPerBlock vs used :=
  ⟨decode_ok h, decode_stream h⟩

end Streams

/-- Two values, with one miniblock in a block. -/
theorem pair_stream (v u : Int64) (w : UInt8) (r : Nat) (mini : Bytes) {blockSize : Nat} {size first : Bytes}
    (hraw : raws 0 v [u] = [r]) (hr : r < 2 ^ w.toNat) (hw : w.toNat ≤ 64) (hs : Varint blockSize size)
    (hf : Varint (zigzag v.toInt) first) (h128 : 128 ∣ blockSize) (hpos : 0 < blockSize)
    (hb : leBytes ((blockSize * w.toNat + 7) / 8) (packNat w.toNat ([r] ++ replicate (blockSize - 1) 0)) = mini) :
    Stream blockSize 1 [v, u] [w.toNat] (size ++ ([1] ++ ([2] ++ (first ++ ([0] ++ ([w] ++ (mini ++ []))))))) := by
  have hone : Varint 1 [1] := ⟨.last 1 (by decide), by decide, by decide⟩
  have htwo : Varint 2 [2] := ⟨.last 2 (by decide), by decide, by decide⟩
  have hzero : Varint (zigzag (0 : Int64).toInt) [0] := ⟨.last 0 (by decide), by decide, by decide⟩
  have hmini : Miniblocks (blockSize / 1) 0 v ([u] ++ []) [w] [w.toNat] (leBytes ((blockSize / 1 * w.toNat + 7) / 8)
      (packNat w.toNat (raws 0 v [u] ++ replicate (blockSize - 1) 0)) ++ []) := by
    refine .used v [u] [] w [] [] (replicate (blockSize - 1) 0) [] (cons_ne_nil _ _) hw
      (fun h => absurd rfl h) ?_ ?_ (.unused _ _)
    · rw [length_append, raws_length, length_replicate, length_singleton, Nat.div_one]
      omega
    · rw [hraw]
      intro x hx
      obtain rfl | hx := mem_cons.1 hx
      · exact hr
      · rw [(mem_replicate.1 hx).2]
        exact Nat.two_pow_pos _
  rw [hraw, Nat.div_one, hb, append_nil mini] at hmini
  have hblocks : Blocks blockSize 1 v ([u] ++ []) ([w.toNat] ++ []) ([0] ++ ([w] ++ (mini ++ []))) :=
    .cons v 0 [u] [] [w] [w.toNat] [] [0] mini [] (cons_ne_nil _ _) (fun h => absurd rfl h) hzero rfl
      (by rwa [Nat.div_one]) (.nil _)
  refine .mk v size [1] [2] first _ ⟨h128, one_dvd _, ?_, hpos⟩ hs hone htwo hf (fun u hu => ?_) hblocks
  · rw [Nat.div_one]
    exact Dvd.dvd.trans (by decide) h128
  · cases hu
    rfl

/-- Seven and nine in a block of 128 values, with two bits for each difference. -/
theorem pair_decoded : Reservable 128 1 [7, 9] [2] ∧
    decodeDeltaBinaryPacked false ([0x80, 1, 1, 2, 14, 0, 2, 2] ++ replicate 31 0) = .ok [7, 9] := by
  have hs : Varint 128 [0x80, 1] := ⟨.more 0 1 [1] (by decide) (.last 1 (by decide)), by decide, by decide⟩
  have hf : Varint (zigzag (7 : Int64).toInt) [14] := ⟨.last 14 (by decide), by decide, by decide⟩
  have hr : Reservable 128 1 [7, 9] [2] :=
    ⟨by decide, fun _ => ⟨by decide, fun w hw => by rw [mem_singleton.1 hw]; exact ⟨by decide, by decide⟩⟩⟩
  exact ⟨hr, (decode_returns_iff 128 1 [7, 9] [2] _ (pair_stream 7 9 2 2 (2 :: replicate 31 0) (by decide)
    (by decide) (by decide) hs hf (by decide) (by decide) (by decide +kernel))).2 hr⟩

/-- The bytes of two zeros in a block of 2^62 values. -/
def largeBlock : Bytes := [0x80, 0x80, 0x80, 0x80, 0x80, 0x80, 0x80, 0x80, 0x40, 1, 2, 0, 0, 0]

/-- The miniblock has no bytes, and its values are not to be had. -/
theorem large_block_panics :
    Stream (2 ^ 62) 1 [0, 0] [0] largeBlock ∧ decodeDeltaBinaryPacked false largeBlock = .error .panicked := by
  have hs : Varint (2 ^ 62) [0x80, 0x80, 0x80, 0x80, 0x80, 0x80, 0x80, 0x80, 0x40] :=
    ⟨.more 0 _ _ (by decide) (.more 0 _ _ (by decide) (.more 0 _ _ (by decide) (.more 0 _ _ (by decide)
      (.more 0 _ _ (by decide) (.more 0 _ _ (by decide) (.more 0 _ _ (by decide) (.more 0 64 _ (by decide)
      (.last 64 (by decide))))))))), by decide, by decide⟩
  have hf : Varint (zigzag (0 : Int64).toInt) [0] := ⟨.last 0 (by decide), by decide, by decide⟩
  exact ⟨pair_stream 0 0 0 0 [] (by decide) (by decide) (by decide) hs hf (by decide) (by decide) rfl, by decide +kernel⟩

end DbStorage.Parquet.Delta
