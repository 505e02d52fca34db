import DbStorage.Btree.IndexKey

/-!
# Where `compare_keys` is an order (`btree/index.rs`)

Two integers are compared as they are, an integer and a real after the integer
has been rounded to a real. Beyond `2 ^ 53` several integers round to one real:
they all compare equal to it, and not to each other.

* `rounded_integers_equal`: `2 ^ 53 + 1`, the real `2 ^ 53` and `2 ^ 53`.
* `compareKeys_preorder_iff`: for any set of values, `compare_keys` is a total
  preorder on the keys of these values exactly when no real of the set is the
  rounding of two integers of the set. It is enough then to know that rounding
  is monotone (`roundNat_mono`): a value is coded by its rounding first and the
  integer second, and keys are compared as the lists of the codes.
-/
namespace DbStorage.Btree.Index
open Bytes Record

/-! ## Rounding is monotone -/

/-- `n` rounded to a multiple of `d`, to the even one of two that are equally near. -/
def roundTo (d n : Nat) : Nat :=
  if d < 2 * (n % d) ∨ 2 * (n % d) = d ∧ n / d % 2 = 1 then (n / d + 1) * d else n / d * d

theorem roundNat_eq (n : Nat) : roundNat n = roundTo (2 ^ (n.log2 - 52)) n := rfl

theorem roundTo_ge (d n : Nat) : n / d * d ≤ roundTo d n := by
  rw [roundTo]
  split
  · exact Nat.mul_le_mul_right d (Nat.le_succ _)
  · exact Nat.le_refl _

theorem roundTo_le (d n : Nat) : roundTo d n ≤ (n / d + 1) * d := by
  rw [roundTo]
  split
  · exact Nat.le_refl _
  · exact Nat.mul_le_mul_right d (Nat.le_succ _)

theorem roundTo_mono (d : Nat) {m n : Nat} (h : m ≤ n) : roundTo d m ≤ roundTo d n := by
  obtain hq | hq := Nat.lt_or_eq_of_le (Nat.div_le_div_right h : m / d ≤ n / d)
  · calc roundTo d m ≤ (m / d + 1) * d := roundTo_le d m
      _ ≤ n / d * d := Nat.mul_le_mul_right d hq
      _ ≤ roundTo d n := roundTo_ge d n
  · -- between two multiples, the larger number has the larger remainder
    have hr : m % d ≤ n % d := by
      have hm := Nat.div_add_mod m d
      have hn := Nat.div_add_mod n d
      rw [hq] at hm
      omega
    by_cases hup : d < 2 * (m % d) ∨ 2 * (m % d) = d ∧ m / d % 2 = 1
    · have hup' : d < 2 * (n % d) ∨ 2 * (n % d) = d ∧ n / d % 2 = 1 := by omega
      have heq : roundTo d m = roundTo d n := by rw [roundTo, roundTo, if_pos hup, if_pos hup', hq]
      exact Nat.le_of_eq heq
    · rw [roundTo, if_neg hup, hq]
      exact roundTo_ge d n

theorem roundNat_le (n : Nat) : roundNat n ≤ 2 ^ (n.log2 + 1) := by
  obtain hs | hs := Nat.le_total n.log2 52
  · have hn : n < 2 ^ (n.log2 + 1) := Nat.lt_log2_self
    simp [roundNat_eq, roundTo, Nat.sub_eq_zero_of_le hs, Nat.mod_one]
    exact Nat.le_of_lt hn
  · have hpow : 2 ^ (n.log2 + 1) = 2 ^ 53 * 2 ^ (n.log2 - 52) := by
      rw [← Nat.pow_add]
      congr 1
      omega
    have hq : n / 2 ^ (n.log2 - 52) < 2 ^ 53 := by
      rw [Nat.div_lt_iff_lt_mul (Nat.two_pow_pos _), ← hpow]
      exact Nat.lt_log2_self
    rw [hpow]
    exact Nat.le_trans (roundTo_le _ n) (Nat.mul_le_mul_right _ hq)

theorem le_roundNat {n : Nat} (hn : n ≠ 0) : 2 ^ n.log2 ≤ roundNat n := by
  have hpow : 2 ^ n.log2 = 2 ^ (n.log2 - (n.log2 - 52)) * 2 ^ (n.log2 - 52) := by
    rw [← Nat.pow_add]
    congr 1
    omega
  refine Nat.le_trans ?_ (roundTo_ge _ n)
  rw [hpow]
  refine Nat.mul_le_mul_right _ ?_
  rw [Nat.le_div_iff_mul_le (Nat.two_pow_pos _), ← hpow]
  exact Nat.log2_self_le hn

/-- Rounding keeps the order, though not its strictness. -/
theorem roundNat_mono {m n : Nat} (h : m ≤ n) : roundNat m ≤ roundNat n := by
  obtain rfl | hm := Nat.eq_zero_or_pos m
  · exact Nat.zero_le _
  have hlog : m.log2 ≤ n.log2 := by
    rw [Nat.le_log2 (by omega)]
    exact Nat.le_trans (Nat.log2_self_le (Nat.ne_of_gt hm)) h
  obtain hlt | heq := Nat.lt_or_eq_of_le hlog
  · -- a power of two lies between the two numbers, and rounding crosses none
    calc roundNat m ≤ 2 ^ (m.log2 + 1) := roundNat_le m
      _ ≤ 2 ^ n.log2 := Nat.pow_le_pow_right (by decide) hlt
      _ ≤ roundNat n := le_roundNat (by omega)
  · rw [roundNat_eq, roundNat_eq, heq]
    exact roundTo_mono _ h

theorem integerUnits_mono {i j : Int64} (h : i.toInt ≤ j.toInt) : integerUnits i ≤ integerUnits j := by
  have hone : 0 < one := Int.pow_pos (by decide)
  refine Int.mul_le_mul_of_nonneg_right ?_ (Int.le_of_lt hone)
  generalize i.toInt = x at h ⊢
  generalize j.toInt = y at h ⊢
  have hup : x.natAbs ≤ y.natAbs → roundNat x.natAbs ≤ roundNat y.natAbs := roundNat_mono
  have hdown : y.natAbs ≤ x.natAbs → roundNat y.natAbs ≤ roundNat x.natAbs := roundNat_mono
  obtain hx | rfl | hx := Int.lt_trichotomy x 0 <;> obtain hy | rfl | hy := Int.lt_trichotomy y 0
  all_goals simp only [Int.sign_eq_neg_one_of_neg, Int.sign_eq_one_of_pos, Int.sign_zero, *]
  all_goals omega

/-! ## Keys over a set of values -/

/-- The value is no NaN. -/
def NotNan : Value → Prop
  | .real bits => isNan bits = false
  | _ => True

/-- The key has values of `V` only, and no NaN. -/
def KeyOver (V : Value → Prop) (key : List Value) : Prop := ∀ v ∈ key, V v ∧ NotNan v

/-- A total preorder on the keys that `S` holds of. -/
structure PreorderOn (S : List Value → Prop) (cmp : List Value → List Value → Ordering) : Prop where
  swap : ∀ a b, S a → S b → cmp b a = (cmp a b).swap
  eq_trans : ∀ a b c, S a → S b → S c → cmp a b = .eq → cmp b c = .eq → cmp a c = .eq
  lt_trans : ∀ a b c, S a → S b → S c → cmp a b = .lt → cmp b c = .lt → cmp a c = .lt

/-- No real of `V` is the rounding of two integers of `V`. -/
def Separated (V : Value → Prop) : Prop :=
  ∀ i j bits, V (.integer i) → V (.integer j) → V (.real bits) →
    realUnits bits = some (integerUnits i) → realUnits bits = some (integerUnits j) → i = j

open Classical in
/-- The integer of `V` that rounds to the real, if there is one. -/
noncomputable def roundedFrom (V : Value → Prop) (units : Int) : Int :=
  if h : ∃ i, V (.integer i) ∧ integerUnits i = units then h.choose.toInt else 0

/-- The code of a value: a number has what it is rounded to before the integer. -/
noncomputable def codeOver (V : Value → Prop) : Value → List Int
  | .integer i => [1, integerUnits i, i.toInt]
  | .real bits => [1, (realUnits bits).getD 0, roundedFrom V ((realUnits bits).getD 0)]
  | v => code v

section
variable {V : Value → Prop}

theorem Separated.roundedFrom_eq (hV : Separated V) {i : Int64} {bits : UInt64} (hi : V (.integer i))
    (hbits : V (.real bits)) (hunits : realUnits bits = some (integerUnits i)) :
    roundedFrom V (integerUnits i) = i.toInt := by
  have h : ∃ j, V (.integer j) ∧ integerUnits j = integerUnits i := ⟨i, hi, rfl⟩
  rw [roundedFrom, dif_pos h,
    hV _ i bits h.choose_spec.1 hi hbits (hunits.trans (congrArg some h.choose_spec.2.symm)) hunits]

/-- The integers themselves decide only where the roundings do not. -/
theorem compare_integerUnits (i j : Int64) :
    (compare (integerUnits i) (integerUnits j)).then (compare i.toInt j.toInt) = compare i.toInt j.toInt := by
  obtain h | h | h := Int.lt_trichotomy i.toInt j.toInt
  · have hle := integerUnits_mono (Int.le_of_lt h)
    obtain hlt | heq := Int.lt_or_eq_of_le hle
    · rw [Std.compare_eq_lt.mpr hlt, Std.compare_eq_lt.mpr h]
      rfl
    · rw [heq, Std.compare_self]
      rfl
  · rw [show i = j from Int64.toInt_inj.mp h, Std.compare_self]
    rfl
  · have hle := integerUnits_mono (Int.le_of_lt h)
    obtain hlt | heq := Int.lt_or_eq_of_le hle
    · rw [Std.compare_eq_gt.mpr hlt, Std.compare_eq_gt.mpr h]
      rfl
    · rw [heq, Std.compare_self]
      rfl

/-- An integer and a real: what comes second never decides. -/
theorem compare_rounded {x y x' y' : Int} (h : x = y → x' = y') :
    (compare x y).then (compare x' y') = compare x y := by
  obtain hlt | heq | hgt := Int.lt_trichotomy x y
  · rw [Std.compare_eq_lt.mpr hlt]
    rfl
  · rw [heq, h heq, Std.compare_self, Std.compare_self]
    rfl
  · rw [Std.compare_eq_gt.mpr hgt]
    rfl

theorem Separated.compareValues_eq (hV : Separated V) {a b : Value} (ha : V a ∧ NotNan a) (hb : V b ∧ NotNan b) :
    compareValues a b = compare (codeOver V a) (codeOver V b) := by
  obtain ⟨ha, han⟩ := ha
  obtain ⟨hb, hbn⟩ := hb
  cases a <;> cases b
  all_goals simp only [compareValues, valueRank, codeOver, code, List.compare_cons_cons]
  all_goals try rfl
  case integer.integer i j => simp [compare_integerUnits]
  case integer.real i bits =>
    have hbits := realUnits_some hbn
    rw [hbits]
    have hround : integerUnits i = (realUnits bits).getD 0 → i.toInt = roundedFrom V ((realUnits bits).getD 0) := by
      intro heq
      rw [← heq, hV.roundedFrom_eq ha hb (by rw [hbits, heq])]
    simp [partialCmp, compare_rounded hround]
  case real.integer bits j =>
    have hbits := realUnits_some han
    rw [hbits]
    have hround : (realUnits bits).getD 0 = integerUnits j → roundedFrom V ((realUnits bits).getD 0) = j.toInt := by
      intro heq
      rw [heq, hV.roundedFrom_eq hb ha (by rw [hbits, heq])]
    simp [partialCmp, compare_rounded hround]
  case real.real x y =>
    rw [realUnits_some han, realUnits_some hbn]
    simp [partialCmp, compare_rounded (congrArg (roundedFrom V))]
  case text.text x y => simp [compare_map compare_byte]
  case blob.blob x y => simp [compare_map compare_byte]

theorem Separated.compareKeys_eq (hV : Separated V) {a b : List Value} (ha : KeyOver V a) (hb : KeyOver V b) :
    compareKeys a b = compare (a.map (codeOver V)) (b.map (codeOver V)) :=
  compareKeys_map fun x hx y hy => hV.compareValues_eq (ha x hx) (hb y hy)

theorem Separated.preorder (hV : Separated V) : PreorderOn (KeyOver V) compareKeys where
  swap a b ha hb := by
    rw [hV.compareKeys_eq hb ha, hV.compareKeys_eq ha hb]
    exact Std.OrientedCmp.eq_swap
  eq_trans a b c ha hb hc hab hbc := by
    rw [hV.compareKeys_eq ha hb] at hab
    rw [hV.compareKeys_eq hb hc] at hbc
    rw [hV.compareKeys_eq ha hc]
    exact Std.TransCmp.eq_trans hab hbc
  lt_trans a b c ha hb hc hab hbc := by
    rw [hV.compareKeys_eq ha hb] at hab
    rw [hV.compareKeys_eq hb hc] at hbc
    rw [hV.compareKeys_eq ha hc]
    exact Std.TransCmp.lt_trans hab hbc

/-- Two integers that one real is the rounding of are equal to it, and so to each other. -/
theorem PreorderOn.separated (h : PreorderOn (KeyOver V) compareKeys) : Separated V := by
  intro i j bits hi hj hbits hunits hunits'
  have hnan : isNan bits = false := by
    by_contra hn
    simp [realUnits, hn] at hunits
  have hover : ∀ v, V v → NotNan v → KeyOver V [v] := by
    intro v hv hn w hw
    rw [List.mem_singleton.mp hw]
    exact ⟨hv, hn⟩
  have hir : compareKeys [.integer i] [.real bits] = .eq := by
    simp [compareKeys, compareValues, valueRank, hunits, partialCmp]
  have hrj : compareKeys [.real bits] [.integer j] = .eq := by
    simp [compareKeys, compareValues, valueRank, hunits', partialCmp]
  have hij := h.eq_trans _ _ _ (hover _ hi trivial) (hover _ hbits hnan) (hover _ hj trivial) hir hrj
  have heq : compare i.toInt j.toInt = .eq := by
    cases hc : compare i.toInt j.toInt <;> simp [compareKeys, compareValues, valueRank, hc] at hij ⊢
  exact Int64.toInt_inj.mp (Std.compare_eq_iff_eq.mp heq)

end

/-- On the keys over a set of values, NaN left out, `compare_keys` is a total
preorder exactly when no real of the set is the rounding of two of its
integers. -/
theorem compareKeys_preorder_iff (V : Value → Prop) : PreorderOn (KeyOver V) compareKeys ↔ Separated V :=
  ⟨PreorderOn.separated, Separated.preorder⟩

/-- Both `2 ^ 53` and `2 ^ 53 + 1` equal the real `2 ^ 53`, and the second is the
larger one; with another column, less-than is not transitive either. -/
theorem rounded_integers_equal :
    compareKeys [.integer 9007199254740993] [.real 0x4340000000000000] = .eq ∧
      compareKeys [.real 0x4340000000000000] [.integer 9007199254740992] = .eq ∧
      compareKeys [.integer 9007199254740993] [.integer 9007199254740992] = .gt ∧
      compareKeys [.integer 9007199254740993, .integer 0] [.real 0x4340000000000000, .integer 1] = .lt ∧
      compareKeys [.real 0x4340000000000000, .integer 1] [.integer 9007199254740992, .integer 2] = .lt ∧
      compareKeys [.integer 9007199254740993, .integer 0] [.integer 9007199254740992, .integer 2] = .gt := by
  decide +kernel

end DbStorage.Btree.Index
