import Mathlib

/-!
# Byte strings, files and big-endian integers

A file or a page buffer is a list of bytes. `slice` is the only reader the
proofs use; `writeAt` is a positioned write that extends the file with
zeros, as `pwrite` does. The lemmas say what a slice of a written file is:
the written bytes inside the written range, the old bytes outside it.
-/
namespace DbStorage
open List

abbrev Bytes := List UInt8

namespace Bytes

/-- `len` bytes from `off` on, fewer where the string ends. -/
def slice (b : Bytes) (off len : Nat) : Bytes := (b.drop off).take len

/-- A checked range `lo..hi`: `none` when it leaves the string. -/
def getRange (b : Bytes) (lo hi : Nat) : Option Bytes :=
  if lo ≤ hi ∧ hi ≤ b.length then some (slice b lo (hi - lo)) else none

/-- Positioned write: the gap behind the old end, if any, reads as zero. -/
def writeAt (b : Bytes) (data : Bytes) (off : Nat) : Bytes :=
  b.take off ++ List.replicate (off - b.length) 0 ++ data ++ b.drop (off + data.length)

/-- Cut or zero-extend to exactly `len` bytes. -/
def resize (b : Bytes) (len : Nat) : Bytes := b.take len ++ List.replicate (len - b.length) 0

theorem slice_length (b : Bytes) (off len : Nat) : (slice b off len).length = min len (b.length - off) := by
  simp [slice]

theorem slice_length_of_le {b : Bytes} {off len : Nat} (h : off + len ≤ b.length) :
    (slice b off len).length = len := by
  rw [slice_length]; omega

theorem slice_getElem? (b : Bytes) (off len i : Nat) :
    (slice b off len)[i]? = if i < len then b[off + i]? else none := by
  simp only [slice, List.getElem?_take, List.getElem?_drop]

theorem getRange_of_le {b : Bytes} {lo hi : Nat} (h1 : lo ≤ hi) (h2 : hi ≤ b.length) :
    getRange b lo hi = some (slice b lo (hi - lo)) := if_pos ⟨h1, h2⟩

theorem writeAt_getElem? (b data : Bytes) (off i : Nat) :
    (writeAt b data off)[i]? =
      if i < off then (if i < b.length then b[i]? else some 0)
      else if i < off + data.length then data[i - off]? else b[i]? := by
  simp only [writeAt, List.getElem?_append, length_append, length_take, length_replicate,
    List.getElem?_replicate, List.getElem?_take, List.getElem?_drop]
  split_ifs <;> first | rfl | omega | (congr 1; omega)

theorem writeAt_length (b data : Bytes) (off : Nat) :
    (writeAt b data off).length = max b.length (off + data.length) := by
  simp only [writeAt, length_append, length_take, length_replicate, length_drop]
  omega

/-- A slice that the write covers reads the written bytes. -/
theorem slice_writeAt_inside (b data : Bytes) (off o len : Nat) (h1 : off ≤ o)
    (h2 : o + len ≤ off + data.length) : slice (writeAt b data off) o len = slice data (o - off) len := by
  apply ext_getElem?
  intro i
  rw [slice_getElem?, slice_getElem?, writeAt_getElem?]
  split
  · rw [if_neg (by omega), if_pos (by omega)]
    congr 1; omega
  · rfl

/-- A slice of the old file that the write does not touch is unchanged. -/
theorem slice_writeAt_before (b data : Bytes) (off o len : Nat) (h1 : o + len ≤ off)
    (h2 : o + len ≤ b.length) : slice (writeAt b data off) o len = slice b o len := by
  apply ext_getElem?
  intro i
  rw [slice_getElem?, slice_getElem?, writeAt_getElem?]
  split
  · rw [if_pos (by omega), if_pos (by omega)]
  · rfl

theorem slice_writeAt_after (b data : Bytes) (off o len : Nat) (h : off + data.length ≤ o) :
    slice (writeAt b data off) o len = slice b o len := by
  apply ext_getElem?
  intro i
  rw [slice_getElem?, slice_getElem?, writeAt_getElem?]
  split
  · rw [if_neg (by omega), if_neg (by omega)]
  · rfl

theorem writeAt_end (b data : Bytes) : writeAt b data b.length = b ++ data := by simp [writeAt]

theorem slice_self_length (b : Bytes) : slice b 0 b.length = b := by simp [slice]

theorem slice_take (b : Bytes) {o len n : Nat} (h : o + len ≤ n) : slice (b.take n) o len = slice b o len := by
  rw [slice, slice, drop_take, take_take, Nat.min_eq_left (by omega)]

theorem slice_append_left (a b : Bytes) (o len : Nat) (h : o + len ≤ a.length) :
    slice (a ++ b) o len = slice a o len := by
  apply ext_getElem?
  intro i
  rw [slice_getElem?, slice_getElem?]
  split
  · rw [List.getElem?_append_left (by omega)]
  · rfl

theorem slice_append_right (a b : Bytes) (o len : Nat) (h : a.length ≤ o) :
    slice (a ++ b) o len = slice b (o - a.length) len := by
  apply ext_getElem?
  intro i
  rw [slice_getElem?, slice_getElem?]
  split
  · rw [List.getElem?_append_right (by omega)]
    congr 1; omega
  · rfl

theorem slice_slice (b : Bytes) (o₁ l₁ o₂ l₂ : Nat) (h : o₂ + l₂ ≤ l₁) :
    slice (slice b o₁ l₁) o₂ l₂ = slice b (o₁ + o₂) l₂ := by
  apply ext_getElem?
  intro i
  rw [slice_getElem?, slice_getElem?, slice_getElem?]
  split
  · rw [if_pos (by omega), Nat.add_assoc]
  · rfl

theorem resize_getElem? (b : Bytes) (len i : Nat) :
    (resize b len)[i]? = if i < len then (if i < b.length then b[i]? else some 0) else none := by
  simp only [resize, List.getElem?_append, length_take, List.getElem?_take,
    List.getElem?_replicate]
  by_cases h1 : i < len
  · by_cases h2 : i < b.length
    · rw [if_pos (by omega), if_pos h1, if_pos h1, if_pos h2]
    · rw [if_neg (by omega), if_pos (by omega), if_pos h1, if_neg h2]
  · rw [if_neg (by omega), if_neg (by omega), if_neg h1]

theorem resize_length (b : Bytes) (len : Nat) : (resize b len).length = len := by
  simp only [resize, length_append, length_take, length_replicate]; omega

/-! ## What a buffer holds -/

/-- The bytes `d` stand at offset `o`. -/
def Holds (b : Bytes) (o : Nat) (d : Bytes) : Prop := slice b o d.length = d

instance (b : Bytes) (o : Nat) (d : Bytes) : Decidable (Holds b o d) := inferInstanceAs (Decidable (_ = _))

section
variable {b d e : Bytes} {o o' : Nat}

theorem Holds.le (h : Holds b o d) (hd : d ≠ []) : o + d.length ≤ b.length := by
  have hl := congrArg List.length h
  have := length_pos_iff.2 hd
  rw [slice_length] at hl
  omega

theorem Holds.getRange (h : Holds b o d) (hd : d ≠ []) : b.getRange o (o + d.length) = some d := by
  rw [getRange_of_le (Nat.le_add_right _ _) (h.le hd), Nat.add_sub_cancel_left, h]

theorem Holds.offset_le (h : Holds b o d) (hd : d ≠ []) : o ≤ b.length := by
  have := h.le hd
  omega

theorem holds_writeAt (b d : Bytes) (o : Nat) : Holds (writeAt b d o) o d := by
  rw [Holds, slice_writeAt_inside _ _ _ _ _ (Nat.le_refl _) (Nat.le_refl _), Nat.sub_self, slice_self_length]

theorem Holds.writeAt (h : Holds b o d) (hd : o + d.length ≤ o' ∨ o' + e.length ≤ o) :
    Holds (b.writeAt e o') o d := by
  rcases eq_nil_or_concat d with rfl | ⟨_, _, rfl⟩
  · simp [Holds, slice]
  · rcases hd with hd | hd
    · exact (slice_writeAt_before _ _ _ _ _ hd (h.le (by simp))).trans h
    · exact (slice_writeAt_after _ _ _ _ _ hd).trans h

theorem holds_append_right (pre d tail : Bytes) : Holds (pre ++ (d ++ tail)) pre.length d := by
  rw [Holds, slice_append_right _ _ _ _ (Nat.le_refl _), Nat.sub_self, slice_append_left _ _ _ _ (by omega),
    slice_self_length]

theorem writeAt_append (pre tail d : Bytes) :
    Bytes.writeAt (pre ++ tail) d pre.length = pre ++ (d ++ tail.drop d.length) := by
  simp [Bytes.writeAt, drop_append, drop_eq_nil_of_le]

theorem holds_append : Holds b o (d ++ e) ↔ Holds b o d ∧ Holds b (o + d.length) e := by
  have hs : slice b o (d.length + e.length) = slice b o d.length ++ slice b (o + d.length) e.length := by
    simp only [slice, take_add, drop_drop]
  simp only [Holds]
  rw [length_append, hs]
  constructor
  · intro h
    have hl : (slice b o d.length).length = d.length := by
      have := congrArg List.length h
      simp only [length_append, slice_length] at this ⊢
      omega
    exact append_inj h hl
  · rintro ⟨h₁, h₂⟩
    rw [h₁, h₂]

theorem Holds.drop (h : Holds b o d) : b.drop o = d ++ b.drop (o + d.length) := by
  have := take_append_drop d.length (b.drop o)
  rw [drop_drop] at this
  rw [← this]
  exact congrArg (· ++ _) h

/-- The buffers have one length and differ at most in the bytes `lo` to `hi`. -/
structure SameOutside (lo hi : Nat) (b b' : Bytes) : Prop where
  length : b'.length = b.length
  slice : ∀ o len, o + len ≤ lo ∨ hi ≤ o → slice b' o len = slice b o len

variable {b' b'' : Bytes} {lo hi lo' hi' : Nat}

theorem SameOutside.refl (lo hi : Nat) (b : Bytes) : SameOutside lo hi b b := ⟨rfl, fun _ _ _ => rfl⟩

theorem SameOutside.trans (h : SameOutside lo hi b b') (h' : SameOutside lo hi b' b'') : SameOutside lo hi b b'' :=
  ⟨h'.length.trans h.length, fun o len ho => (h'.slice o len ho).trans (h.slice o len ho)⟩

theorem SameOutside.mono (h : SameOutside lo hi b b') (hlo : lo' ≤ lo) (hhi : hi ≤ hi') :
    SameOutside lo' hi' b b' := ⟨h.length, fun o len ho => h.slice o len (by omega)⟩

theorem sameOutside_writeAt (d : Bytes) (h : o + d.length ≤ b.length) :
    SameOutside o (o + d.length) b (b.writeAt d o) := by
  refine ⟨by rw [writeAt_length]; omega, fun p len hp => ?_⟩
  rcases hp with hp | hp
  · exact slice_writeAt_before _ _ _ _ _ hp (by omega)
  · exact slice_writeAt_after _ _ _ _ _ hp

theorem Holds.same (h : Holds b o d) (hs : SameOutside lo hi b b') (hd : o + d.length ≤ lo ∨ hi ≤ o) :
    Holds b' o d := (hs.slice o d.length hd).trans h

theorem SameOutside.take (h : SameOutside lo hi b b') : b'.take lo = b.take lo := by
  simpa [Bytes.slice] using h.slice 0 lo (.inl (by omega))

end

/-! ## Big-endian words -/

/-- `u32::to_be_bytes`. -/
def be32 (v : UInt32) : Bytes :=
  [UInt8.ofNat (v.toNat / 2 ^ 24), UInt8.ofNat (v.toNat / 2 ^ 16), UInt8.ofNat (v.toNat / 2 ^ 8),
    UInt8.ofNat v.toNat]

/-- `u32::from_be_bytes`, on the first four bytes. -/
def ofBe32 : Bytes → UInt32
  | b0 :: b1 :: b2 :: b3 :: _ =>
    UInt32.ofNat (b0.toNat * 2 ^ 24 + b1.toNat * 2 ^ 16 + b2.toNat * 2 ^ 8 + b3.toNat)
  | _ => 0

/-- `u32::from_le_bytes`, on the first four bytes. -/
def ofLe32 : Bytes → UInt32
  | b0 :: b1 :: b2 :: b3 :: _ =>
    UInt32.ofNat (b3.toNat * 2 ^ 24 + b2.toNat * 2 ^ 16 + b1.toNat * 2 ^ 8 + b0.toNat)
  | _ => 0

@[simp] theorem be32_length (v : UInt32) : (be32 v).length = 4 := rfl

@[simp] theorem ofBe32_be32 (v : UInt32) : ofBe32 (be32 v) = v := by
  simp only [be32, ofBe32]
  apply UInt32.toNat_inj.mp
  have hv := v.toNat_lt
  simp only [UInt32.toNat_ofNat', UInt8.toNat_ofNat']
  omega

/-- `(v as u16).to_be_bytes()` -/
def be16 (v : Nat) : Bytes := [UInt8.ofNat (v / 256), UInt8.ofNat v]

/-- `u16::from_be_bytes` -/
def ofBe16 : Bytes → Nat
  | [a, b] => a.toNat * 256 + b.toNat
  | _ => 0

@[simp] theorem be16_length (v : Nat) : (be16 v).length = 2 := rfl

theorem be16_ne_nil (v : Nat) : be16 v ≠ [] := cons_ne_nil _ _

theorem ofBe16_be16 {v : Nat} (h : v < 65536) : ofBe16 (be16 v) = v := by
  simp only [be16, ofBe16, UInt8.toNat_ofNat']
  omega

theorem flatMap_be16_length (ptrs : List Nat) : (ptrs.flatMap be16).length = 2 * ptrs.length := by
  simp [length_flatMap, Nat.mul_comm]

section
variable {b : Bytes} {o : Nat}

theorem exists_word (h : o + 2 ≤ b.length) : ∃ v, Holds b o (be16 v) := by
  have hlen : (slice b o 2).length = 2 := by rw [slice, length_take, length_drop]; omega
  match hs : slice b o 2, hlen with
  | [x, y], _ =>
    refine ⟨x.toNat * 256 + y.toNat, hs.trans ?_⟩
    have hx := x.toNat_lt
    have hy := y.toNat_lt
    simp only [be16, List.cons.injEq, and_true]
    constructor <;> apply UInt8.toNat_inj.mp <;> rw [UInt8.toNat_ofNat'] <;> omega

theorem Holds.word {ptrs : List Nat} {i v : Nat} (h : Holds b o (ptrs.flatMap be16)) (hi : ptrs[i]? = some v) :
    Holds b (o + i * 2) (be16 v) := by
  induction ptrs generalizing o i with
  | nil => cases hi
  | cons x ptrs ih =>
    rw [flatMap_cons, holds_append] at h
    cases i with
    | zero =>
      cases hi
      simpa using h.1
    | succ i =>
      have := ih h.2 (by simpa using hi)
      rwa [be16_length, show o + 2 + i * 2 = o + (i + 1) * 2 by omega] at this

theorem Holds.setWord {ptrs : List Nat} {i v : Nat} (h : Holds b o (ptrs.flatMap be16))
    (hi : i < ptrs.length) : Holds (b.writeAt (be16 v) (o + i * 2)) o ((ptrs.set i v).flatMap be16) := by
  induction ptrs generalizing o i with
  | nil => cases hi
  | cons x ptrs ih =>
    rw [flatMap_cons, holds_append] at h
    cases i with
    | zero =>
      rw [set_cons_zero, flatMap_cons, holds_append, Nat.zero_mul, Nat.add_zero]
      exact ⟨holds_writeAt _ _ _, h.2.writeAt (.inr (by simp))⟩
    | succ i =>
      rw [set_cons_succ, flatMap_cons, holds_append]
      have := ih h.2 (i := i) (by simpa using hi)
      rw [be16_length, show o + 2 + i * 2 = o + (i + 1) * 2 by omega] at this
      exact ⟨h.1.writeAt (.inl (by simp)), this⟩

end

end Bytes
end DbStorage
