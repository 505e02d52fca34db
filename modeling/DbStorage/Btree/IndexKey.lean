import DbStorage.Record.Codec

/-!
# Index keys (`btree/index.rs`)

`compare_keys` orders keys column by column. An integer and a real are
compared as reals, after the integer is rounded, so the order is one of
values only where no rounding takes part: `compareKeys_eq` puts it in terms
of the order of lists, for keys whose numbers are `Exact`.
-/
namespace DbStorage.Btree.Index
open Bytes Record

/-! ## Reals -/

/-- One, in units of `2 ^ -1074`: every finite real is a whole number of them. -/
def one : Int := 2 ^ 1074

/-- The value of a real in these units; an infinity is beyond every finite
value. -/
def realUnits (bits : UInt64) : Option Int :=
  let n := bits.toNat
  let exponent := n / 2 ^ 52 % 2 ^ 11
  let mantissa := n % 2 ^ 52
  let magnitude : Nat := if exponent = 0 then mantissa else (2 ^ 52 + mantissa) * 2 ^ (exponent - 1)
  if isNan bits then none else some (if n / 2 ^ 63 = 1 then -(magnitude : Int) else magnitude)

/-- A number rounded to 53 bits, to the even one of two that are equally near. -/
def roundNat (n : Nat) : Nat :=
  let s := n.log2 - 52
  let q := n / 2 ^ s
  let r := n % 2 ^ s
  if 2 ^ s < 2 * r ∨ 2 * r = 2 ^ s ∧ q % 2 = 1 then (q + 1) * 2 ^ s else q * 2 ^ s

/-- `i as f64` -/
def integerUnits (i : Int64) : Int := i.toInt.sign * roundNat i.toInt.natAbs * one

/-- `partial_cmp(..).unwrap_or(Ordering::Equal)` -/
def partialCmp : Option Int → Option Int → Ordering
  | some x, some y => compare x y
  | _, _ => .eq

/-! ## Comparison -/

/-- mirrors index.rs:486-493 -/
def valueRank : Value → Nat
  | .null => 0
  | .integer _ => 1
  | .real _ => 1
  | .text _ => 2
  | .blob _ => 3

/-- mirrors index.rs:495-514 -/
def compareValues (a b : Value) : Ordering :=
  if valueRank a ≠ valueRank b then compare (valueRank a) (valueRank b)
  else
    match a, b with
    | .integer x, .integer y => compare x.toInt y.toInt
    | .real x, .real y => partialCmp (realUnits x) (realUnits y)
    | .integer x, .real y => partialCmp (some (integerUnits x)) (realUnits y)
    | .real x, .integer y => partialCmp (realUnits x) (some (integerUnits y))
    | .text x, .text y => compare (encodeUtf8 x) (encodeUtf8 y)
    | .blob x, .blob y => compare x y
    | _, _ => .eq

/-- The lengths are compared where one key ends, which is the comparison of
the whole lengths.
mirrors index.rs:518-526 -/
def compareKeys : List Value → List Value → Ordering
  | x :: xs, y :: ys =>
    match compareValues x y with
    | .eq => compareKeys xs ys
    | c => c
  | xs, ys => compare xs.length ys.length

/-! ## Keys without rounding -/

/-- The value is compared as it is: it is no NaN, and an integer that a real
represents. -/
def Exact : Value → Prop
  | .integer i => roundNat i.toInt.natAbs = i.toInt.natAbs
  | .real bits => isNan bits = false
  | _ => True

/-- A value as a list whose order is the order of values. -/
def code : Value → List Int
  | .null => [0]
  | .integer i => [1, i.toInt * one]
  | .real bits => [1, (realUnits bits).getD 0]
  | .text s => 2 :: (encodeUtf8 s).map fun b => (b.toNat : Int)
  | .blob b => 3 :: b.map fun b => (b.toNat : Int)

theorem realUnits_some {bits : UInt64} (h : isNan bits = false) : realUnits bits = some ((realUnits bits).getD 0) := by
  simp [realUnits, h]

theorem integerUnits_exact {i : Int64} (h : roundNat i.toInt.natAbs = i.toInt.natAbs) :
    integerUnits i = i.toInt * one := by
  rw [integerUnits, h, Int.sign_mul_natAbs]

theorem compare_map {α β : Type} [Ord α] [Ord β] {f : α → β} (hf : ∀ a b, compare (f a) (f b) = compare a b)
    (xs ys : List α) : compare (xs.map f) (ys.map f) = compare xs ys := by
  induction xs generalizing ys with
  | nil => cases ys <;> simp [List.compare_nil_cons]
  | cons x xs ih =>
    cases ys with
    | nil => simp [List.compare_cons_nil]
    | cons y ys => simp [List.compare_cons_cons, hf, ih]

theorem compare_byte (a b : UInt8) : compare (a.toNat : Int) (b.toNat : Int) = compare a b := by
  simp only [compare, compareOfLessAndEq, Int.ofNat_lt, Int.natCast_inj, UInt8.lt_iff_toNat_lt, UInt8.toNat_inj]

theorem compare_scaled (x y : Int) : compare (x * one) (y * one) = compare x y := by
  have hone : 0 < one := Int.pow_pos (by decide)
  simp only [compare, compareOfLessAndEq, Int.mul_lt_mul_right hone, Int.mul_eq_mul_right_iff (Int.ne_of_gt hone)]

theorem compareValues_eq {a b : Value} (ha : Exact a) (hb : Exact b) :
    compareValues a b = compare (code a) (code b) := by
  cases a <;> cases b
  all_goals simp only [compareValues, valueRank, code, List.compare_cons_cons]
  all_goals try rfl
  case integer.integer x y => simp [compare_scaled]
  case integer.real x y =>
    rw [realUnits_some hb, integerUnits_exact ha]
    simp [partialCmp]
  case real.integer x y =>
    rw [realUnits_some ha, integerUnits_exact hb]
    simp [partialCmp]
  case real.real x y =>
    rw [realUnits_some ha, realUnits_some hb]
    simp [partialCmp]
  case text.text x y => simp [compare_map compare_byte]
  case blob.blob x y => simp [compare_map compare_byte]

/-- Where the values are compared by a code of theirs, the keys are compared as
the lists of the codes. -/
theorem compareKeys_map {f : Value → List Int} {a b : List Value}
    (h : ∀ x ∈ a, ∀ y ∈ b, compareValues x y = compare (f x) (f y)) :
    compareKeys a b = compare (a.map f) (b.map f) := by
  induction a generalizing b with
  | nil => cases b <;> simp [compareKeys, List.compare_nil_cons, Nat.compare_eq_lt]
  | cons x xs ih =>
    cases b with
    | nil => simp [compareKeys, List.compare_cons_nil, Nat.compare_eq_gt]
    | cons y ys =>
      have hxy := h x List.mem_cons_self y List.mem_cons_self
      have hrest := ih fun v hv w hw => h v (List.mem_cons_of_mem _ hv) w (List.mem_cons_of_mem _ hw)
      simp only [compareKeys, hxy, hrest, List.map_cons, List.compare_cons_cons]
      cases compare (f x) (f y) <;> rfl

/-- Keys of exact values are compared as lists. -/
theorem compareKeys_eq {a b : List Value} (ha : ∀ v ∈ a, Exact v) (hb : ∀ v ∈ b, Exact v) :
    compareKeys a b = compare (a.map code) (b.map code) :=
  compareKeys_map fun x hx y hy => compareValues_eq (ha x hx) (hb y hy)

/-- What is less than a key that is less than the target is less than it. -/
theorem compareKeys_lt_trans {a b c : List Value} (ha : ∀ v ∈ a, Exact v) (hb : ∀ v ∈ b, Exact v)
    (hc : ∀ v ∈ c, Exact v) (hab : compareKeys a b = .lt) (hbc : compareKeys b c = .lt) : compareKeys a c = .lt := by
  rw [compareKeys_eq ha hb] at hab
  rw [compareKeys_eq hb hc] at hbc
  rw [compareKeys_eq ha hc]
  exact Std.TransCmp.lt_trans hab hbc

end DbStorage.Btree.Index
