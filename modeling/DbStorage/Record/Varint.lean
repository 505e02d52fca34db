import DbStorage.Core.Bytes

/-!
# Varints (`record/varint.rs`, `record/encode.rs`)

Big-endian groups of seven bits with a continuation flag, at most nine
bytes; the ninth byte has all eight bits. A `u64` is a natural number below
`2 ^ 64`; no step of the decoder leaves that range.

Results: `decodeVarint_encode` (the decoder reads back what the encoder
wrote, whatever follows it) and the length of an encoding.
-/
namespace DbStorage.Record

/-- mirrors record/error.rs:6-39 -/
inductive RecordError where
  | unexpectedEof (offset : Nat)
  | headerTooShort (declared varintLen : Nat)
  | headerOverrun (offset headerLen : Nat)
  | trailingData (trailing : Nat)
  | invalidUtf8
  | invalidUtf16
  deriving DecidableEq

/-- The groups still to read, the bytes read so far and the value so far.
mirrors varint.rs:14-26 -/
def decodeVarintLoop : Nat → Nat → Nat → Bytes → Except RecordError (Nat × Nat)
  | _, i, _, [] => .error (.unexpectedEof i)
  | 0, i, result, byte :: _ => .ok (result * 256 + byte.toNat, i + 1)
  | n + 1, i, result, byte :: rest =>
    let result := result * 128 + byte.toNat % 128
    if byte.toNat < 128 then .ok (result, i + 1) else decodeVarintLoop n (i + 1) result rest

/-- mirrors varint.rs:14-26 -/
def decodeVarint (buf : Bytes) : Except RecordError (Nat × Nat) := decodeVarintLoop 8 0 0 buf

/-- mirrors encode.rs:32-35 -/
def varintGroups (value : Nat) : Nat → Nat → Nat
  | 0, groups => groups
  | n + 1, groups => if 2 ^ (7 * groups) ≤ value then varintGroups value n (groups + 1) else groups

/-- `n` groups, all with the continuation flag but, where `last` says so, the
last one.
mirrors encode.rs:36-44,47-52 -/
def writeGroups (value : Nat) (last : Bool) : Nat → Bytes
  | 0 => []
  | n + 1 =>
    UInt8.ofNat (value / 128 ^ n % 128 + if last && n == 0 then 0 else 128) :: writeGroups value last n

/-- mirrors encode.rs:13-56 -/
def encodeVarint (value : Nat) : Bytes :=
  if value < 2 ^ 56 then writeGroups value true (varintGroups value 7 1)
  else writeGroups (value / 256) false 8 ++ [UInt8.ofNat (value % 256)]

/-- mirrors encode.rs:65-75 -/
def varintLen (value : Nat) : Nat := if value < 2 ^ 56 then varintGroups value 7 1 else 9

@[simp] theorem writeGroups_length (value : Nat) (last : Bool) (n : Nat) :
    (writeGroups value last n).length = n := by
  induction n with
  | zero => rfl
  | succ n ih => rw [writeGroups, List.length_cons, ih]

/-- The group count: between 1 and 8, and enough groups for the value. -/
theorem varintGroups_spec (value n groups : Nat) (hv : value < 2 ^ (7 * (groups + n))) :
    groups ≤ varintGroups value n groups ∧ varintGroups value n groups ≤ groups + n ∧
      value < 2 ^ (7 * varintGroups value n groups) := by
  induction n generalizing groups with
  | zero => exact ⟨Nat.le_refl _, Nat.le_refl _, hv⟩
  | succ n ih =>
    rw [varintGroups]
    split
    · have := ih (groups + 1) (by rwa [show groups + 1 + n = groups + (n + 1) by omega])
      omega
    · rename_i h
      exact ⟨Nat.le_refl _, by omega, by omega⟩

theorem varintLen_bounds (value : Nat) : 1 ≤ varintLen value ∧ varintLen value ≤ 9 := by
  unfold varintLen
  split
  · rename_i h
    have := varintGroups_spec value 7 1 h
    omega
  · omega

/-- `k` groups hold every value below `2 ^ (7 * k)`. -/
theorem varintLen_le {value k : Nat} (hk : 1 ≤ k) (hv : value < 2 ^ (7 * k)) (h8 : k ≤ 8) :
    varintLen value ≤ k := by
  have hlt : value < 2 ^ 56 := Nat.lt_of_lt_of_le hv (Nat.pow_le_pow_right (by decide) (by omega))
  rw [varintLen, if_pos hlt]
  have hgen : ∀ n groups, groups ≤ k → varintGroups value n groups ≤ k := by
    intro n
    induction n with
    | zero => exact fun _ h => h
    | succ n ih =>
      intro groups hg
      rw [varintGroups]
      split
      · rename_i h
        refine ih _ (Nat.lt_of_le_of_ne hg fun he => ?_)
        subst he
        omega
      · exact hg
  exact hgen 7 1 hk

theorem encodeVarint_length (value : Nat) : (encodeVarint value).length = varintLen value := by
  unfold encodeVarint varintLen
  split <;> simp

theorem groupByte_toNat (value n : Nat) (last : Bool) :
    (UInt8.ofNat (value / 128 ^ n % 128 + if last && n == 0 then 0 else 128)).toNat =
      value / 128 ^ n % 128 + if last && n == 0 then 0 else 128 := by
  rw [UInt8.toNat_ofNat']
  split <;> omega

theorem next_group (value n : Nat) :
    value / 128 ^ (n + 1) * 128 + value / 128 ^ n % 128 = value / 128 ^ n := by
  rw [Nat.pow_succ, ← Nat.div_div_eq_div_mul]
  omega

/-- Groups that all carry the flag are read and followed by the rest. -/
theorem decodeVarintLoop_flags (value : Nat) (rest : Bytes) (n m i : Nat) :
    decodeVarintLoop (n + m) i (value / 128 ^ n) (writeGroups value false n ++ rest) =
      decodeVarintLoop m (i + n) value rest := by
  induction n generalizing i with
  | zero => simp [writeGroups]
  | succ n ih =>
    rw [writeGroups, List.cons_append, show n + 1 + m = (n + m) + 1 by omega, decodeVarintLoop]
    simp only [groupByte_toNat]
    rw [Bool.false_and, if_neg Bool.false_ne_true, if_neg (by omega), Nat.add_mod_right, Nat.mod_mod, next_group, ih, Nat.add_right_comm i 1 n,
      Nat.add_assoc]

/-- Groups with the flag clear on the last one end the value. -/
theorem decodeVarintLoop_last (value : Nat) (rest : Bytes) (n m i : Nat) :
    decodeVarintLoop (n + 1 + m) i (value / 128 ^ (n + 1)) (writeGroups value true (n + 1) ++ rest) =
      .ok (value, i + n + 1) := by
  induction n generalizing i with
  | zero =>
    rw [writeGroups, List.cons_append, show 0 + 1 + m = m + 1 by omega, decodeVarintLoop]
    simp only [groupByte_toNat]
    rw [show (true && (0 : Nat) == 0) = true from rfl, if_pos rfl, Nat.add_zero, if_pos (by omega),
      Nat.mod_mod, next_group, Nat.pow_zero, Nat.div_one, Nat.add_zero]
  | succ n ih =>
    rw [writeGroups, List.cons_append, show n + 1 + 1 + m = (n + 1 + m) + 1 by omega, decodeVarintLoop]
    simp only [groupByte_toNat]
    rw [show (true && n + 1 == 0) = false by simp, if_neg Bool.false_ne_true, if_neg (by omega), Nat.add_mod_right, Nat.mod_mod, next_group, ih]
    simp only [Except.ok.injEq, Prod.mk.injEq, true_and]
    omega

/-- The decoder reads back every `u64`, whatever follows it. -/
theorem decodeVarint_encode {value : Nat} (hv : value < 2 ^ 64) (rest : Bytes) :
    decodeVarint (encodeVarint value ++ rest) = .ok (value, varintLen value) := by
  unfold decodeVarint encodeVarint varintLen
  split
  · rename_i h
    obtain ⟨h1, h8, hg⟩ := varintGroups_spec value 7 1 h
    obtain ⟨n, hn⟩ : ∃ n, varintGroups value 7 1 = n + 1 := ⟨varintGroups value 7 1 - 1, by omega⟩
    obtain ⟨m, hm⟩ : ∃ m, 8 = n + 1 + m := ⟨8 - (n + 1), by omega⟩
    have h0 : value / 128 ^ (n + 1) = 0 := by
      rw [Nat.div_eq_of_lt]
      rw [hn, Nat.pow_mul] at hg
      exact hg
    have hloop := decodeVarintLoop_last value rest n m 0
    rw [h0, ← hm, Nat.zero_add] at hloop
    rw [hn, hloop]
  · rw [List.append_assoc, List.singleton_append]
    have hloop := decodeVarintLoop_flags (value / 256) (UInt8.ofNat (value % 256) :: rest) 8 0 0
    rw [show value / 256 / 128 ^ 8 = 0 by rw [Nat.div_div_eq_div_mul]; exact Nat.div_eq_of_lt hv] at hloop
    rw [hloop, decodeVarintLoop, UInt8.toNat_ofNat']
    simp only [Except.ok.injEq, Prod.mk.injEq, and_true]
    omega

/-- A varint ends inside the buffer, and what follows it is not read. -/
theorem decodeVarintLoop_append {m i acc v n : Nat} {buf : Bytes}
    (h : decodeVarintLoop m i acc buf = .ok (v, n)) (rest : Bytes) :
    decodeVarintLoop m i acc (buf ++ rest) = .ok (v, n) ∧ i < n ∧ n ≤ i + buf.length := by
  induction buf generalizing m i acc with
  | nil => cases m <;> cases h
  | cons byte buf ih =>
    cases m with
    | zero =>
      cases h
      exact ⟨rfl, Nat.lt_succ_self i, by rw [List.length_cons]; omega⟩
    | succ m =>
      rw [decodeVarintLoop] at h
      rw [List.cons_append, decodeVarintLoop, List.length_cons]
      split at h
      · rename_i hb
        cases h
        rw [if_pos hb]
        exact ⟨rfl, Nat.lt_succ_self i, by omega⟩
      · rename_i hb
        rw [if_neg hb]
        have := ih h
        exact ⟨this.1, by omega, by omega⟩

theorem decodeVarint_append {v n : Nat} {buf : Bytes} (h : decodeVarint buf = .ok (v, n)) (rest : Bytes) :
    decodeVarint (buf ++ rest) = .ok (v, n) ∧ 0 < n ∧ n ≤ buf.length := by
  have := decodeVarintLoop_append h rest
  exact ⟨this.1, this.2.1, by omega⟩

end DbStorage.Record
