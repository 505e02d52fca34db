import DbStorage.Parquet.Hybrid

/-!
# Snappy blocks (`parquet/compression/snappy.rs`)

A block is the varint of its uncompressed length and then elements: literals,
whose length is in the tag or in up to four bytes behind it, and copies of
bytes already written, with an offset of 11, 16 or 32 bits. A copy may read
bytes that it has written itself: it repeats the last `offset` bytes.

`Element` has every element in every form, `Element.bytes` its bytes and
`Element.apply` what it does to the output.

Results: `decompress_ok_iff` (if the size passed by the caller can be reserved
and the preamble is below `2 ^ 32`, exactly the blocks are decompressed; for a
block both are needed), `size_panics` (a page header with a negative size) and
`long_block_accepted` (a longer block).
-/
namespace DbStorage.Parquet.Snappy
open Bytes List

/-- `panicked` is a reservation of more than `isize::MAX` bytes. -/
inductive SnappyError where
  | unexpectedEof
  | invalidVarint
  | invalidCopyOffset
  | sizeMismatch (expected actual : Nat)
  | panicked
  | outOfFuel
  deriving DecidableEq

/-! ## Copies -/

variable {offset : Nat} {o r data : Bytes}

section Copy
variable {α : Type}

/-- `out` after `i` rounds of the loop that pushes `out[start + i]`. -/
def copyLoop (out : List α) (start : Nat) : Nat → Option (List α)
  | 0 => some out
  | i + 1 => do
    let o ← copyLoop out start i
    let b ← o[start + i]?
    some (o ++ [b])

/-- The first `len` of `w` over and over. -/
def repeated (w : List α) (len : Nat) : List α := (List.range len).filterMap fun i => w[i % w.length]?

variable {w : List α}

theorem repeated_succ (w : List α) (n : Nat) :
    repeated w (n + 1) = repeated w n ++ (w[n % w.length]?).toList := by
  rw [repeated, range_succ, filterMap_append]
  congr 1

theorem repeated_length (hw : 0 < w.length) (n : Nat) : (repeated w n).length = n := by
  induction n with
  | zero => rfl
  | succ n ih =>
    rw [repeated_succ, List.getElem?_eq_getElem (Nat.mod_lt n hw), length_append, ih]
    rfl

theorem repeated_getElem? (hw : 0 < w.length) {n i : Nat} (hi : i < n) : (repeated w n)[i]? = w[i % w.length]? := by
  induction n with
  | zero => omega
  | succ n ih =>
    rw [repeated_succ, List.getElem?_eq_getElem (Nat.mod_lt n hw)]
    by_cases hn : i < n
    · rw [List.getElem?_append_left (by rwa [repeated_length hw]), ih hn]
    · obtain rfl : i = n := by omega
      rw [List.getElem?_append_right (Nat.le_of_eq (repeated_length hw i)), repeated_length hw, Nat.sub_self,
        List.getElem?_eq_getElem (Nat.mod_lt i hw)]
      rfl

/-- The loop never reads past what is there: it repeats the last bytes. -/
theorem copyLoop_eq {out : List α} (hpos : 0 < offset) (hle : offset ≤ out.length) (n : Nat) :
    copyLoop out (out.length - offset) n = some (out ++ repeated (out.drop (out.length - offset)) n) := by
  have hlen : (out.drop (out.length - offset)).length = offset := by
    rw [length_drop]
    omega
  induction n with
  | zero => rw [copyLoop, repeated, range_zero, filterMap_nil, append_nil]
  | succ n ih =>
    have hw : 0 < (out.drop (out.length - offset)).length := by omega
    have hread : (out ++ repeated (out.drop (out.length - offset)) n)[out.length - offset + n]? =
        (out.drop (out.length - offset))[n % offset]? := by
      by_cases hn : n < offset
      · rw [List.getElem?_append_left (by omega), List.getElem?_drop, Nat.mod_eq_of_lt hn]
      · rw [List.getElem?_append_right (by omega), repeated_getElem? hw (by omega), hlen,
          show out.length - offset + n - out.length = n - offset by omega, ← Nat.mod_eq_sub_mod (by omega)]
    have hsome := List.getElem?_eq_getElem (l := out.drop (out.length - offset)) (i := n % offset)
      (by rw [hlen]; exact Nat.mod_lt n hpos)
    rw [copyLoop, ih, repeated_succ, hlen, hsome, Option.toList_some, ← append_assoc]
    simp only [Option.bind_eq_bind, Option.bind_some, hread, hsome]

end Copy

/-- mirrors snappy.rs:140-150 -/
def copyFromOffset (out : Bytes) (offset len : Nat) : Except SnappyError Bytes :=
  if offset = 0 ∨ out.length < offset then .error .invalidCopyOffset
  else
    match copyLoop out (out.length - offset) len with
    | none => .error .panicked
    | some out => .ok out

/-! ## The decoder -/

/-- A varint of at most five bytes.
mirrors snappy.rs:41-57 -/
def readVarint (data : Bytes) : Except SnappyError (Nat × Bytes) :=
  match readUnsignedVarintFrom 5 0 0 data with
  | .ok (v, rest) => .ok (v.toNat, rest)
  | .error .unexpectedEof => .error .unexpectedEof
  | .error _ => .error .invalidVarint

def takeLiteral (len : Nat) (rest out : Bytes) : Except SnappyError (Bytes × Bytes) :=
  if rest.length < len then .error .unexpectedEof else .ok (out ++ rest.take len, rest.drop len)

/-- One round of the loop: the output and what is left of the input.
mirrors snappy.rs:67-124 -/
def decodeElement (tag : UInt8) (rest out : Bytes) : Except SnappyError (Bytes × Bytes) :=
  match (tag &&& 0x03).toNat with
  | 0 =>
    let lenTag := (tag >>> 2).toNat
    if lenTag < 60 then takeLiteral (lenTag + 1) rest out
    else
      let extraBytes := lenTag - 59
      if rest.length < extraBytes then .error .unexpectedEof
      else takeLiteral (leNat (rest.take extraBytes) + 1) (rest.drop extraBytes) out
  | 1 =>
    match rest with
    | offsetLo :: rest =>
      let len := ((tag >>> 2) &&& 0x07).toNat + 4
      let offsetHi := ((tag >>> 5) &&& 0x07).toNat
      (copyFromOffset out (offsetHi <<< 8 ||| offsetLo.toNat) len).map (·, rest)
    | [] => .error .unexpectedEof
  | 2 =>
    match rest with
    | lo :: hi :: rest => (copyFromOffset out (lo.toNat ||| hi.toNat <<< 8) ((tag >>> 2).toNat + 1)).map (·, rest)
    | _ => .error .unexpectedEof
  | _ =>
    if rest.length < 4 then .error .unexpectedEof
    else (copyFromOffset out (leNat (rest.take 4)) ((tag >>> 2).toNat + 1)).map (·, rest.drop 4)

def decodeElements : Nat → Bytes → Bytes → Except SnappyError Bytes
  | _, [], out => .ok out
  | 0, _ :: _, _ => .error .outOfFuel
  | f + 1, tag :: rest, out =>
    match decodeElement tag rest out with
    | .error e => .error e
    | .ok (out, rest) => decodeElements f rest out

/-- mirrors snappy.rs:62-134 -/
def decompress (data : Bytes) (uncompressedSize : Nat) : Except SnappyError Bytes :=
  match readVarint data with
  | .error e => .error e
  | .ok (declaredLen, rest) =>
    if 2 ^ 63 ≤ max declaredLen uncompressedSize then .error .panicked
    else
      match decodeElements rest.length rest [] with
      | .error e => .error e
      | .ok out => if out.length ≠ declaredLen then .error (.sizeMismatch declaredLen out.length) else .ok out

/-! ## What is written -/

/-- Where the length of a literal stands: in the tag, or in `extra + 1` bytes. -/
inductive LengthForm where
  | short
  | long (extra : Fin 4)
  deriving DecidableEq

def LengthForm.Admits : LengthForm → Nat → Prop
  | .short, len => 1 ≤ len ∧ len ≤ 60
  | .long extra, len => 1 ≤ len ∧ len ≤ 256 ^ (extra.1 + 1)

/-- The three copies, by the bytes behind the tag. -/
inductive OffsetForm where
  | one
  | two
  | four
  deriving DecidableEq

def OffsetForm.Admits : OffsetForm → Nat → Nat → Prop
  | .one, offset, len => offset < 2 ^ 11 ∧ 4 ≤ len ∧ len ≤ 11
  | .two, offset, len => offset < 2 ^ 16 ∧ 1 ≤ len ∧ len ≤ 64
  | .four, offset, len => offset < 2 ^ 32 ∧ 1 ≤ len ∧ len ≤ 64

inductive Element where
  | literal (form : LengthForm) (data : Bytes) (h : form.Admits data.length)
  | copy (form : OffsetForm) (offset len : Nat) (h : form.Admits offset len)

namespace Element

def tag : Element → UInt8
  | .literal .short data _ => UInt8.ofNat (4 * (data.length - 1))
  | .literal (.long extra) _ _ => UInt8.ofNat (4 * (60 + extra.1))
  | .copy .one offset len _ => UInt8.ofNat (1 + 4 * (len - 4) + 32 * (offset / 256))
  | .copy .two _ len _ => UInt8.ofNat (2 + 4 * (len - 1))
  | .copy .four _ len _ => UInt8.ofNat (3 + 4 * (len - 1))

/-- What stands behind the tag. -/
def body : Element → Bytes
  | .literal .short data _ => data
  | .literal (.long extra) data _ => leBytes (extra.1 + 1) (data.length - 1) ++ data
  | .copy .one offset _ _ => leBytes 1 (offset % 256)
  | .copy .two offset _ _ => leBytes 2 offset
  | .copy .four offset _ _ => leBytes 4 offset

def bytes (e : Element) : Bytes := e.tag :: e.body

/-- A copy reads behind the start of the output. -/
def InReach (out : Bytes) : Element → Prop
  | .literal _ _ _ => True
  | .copy _ offset _ _ => 1 ≤ offset ∧ offset ≤ out.length

def apply (out : Bytes) : Element → Bytes
  | .literal _ data _ => out ++ data
  | .copy _ offset len _ => out ++ repeated (out.drop (out.length - offset)) len

end Element

/-- What the elements denote behind `out`. -/
def denote (out : Bytes) (es : List Element) : Bytes := es.foldl Element.apply out

/-- Every copy reads what is there when its turn comes. -/
def Valid : Bytes → List Element → Prop
  | _, [] => True
  | out, e :: es => e.InReach out ∧ Valid (e.apply out) es

/-! ## One element -/

theorem copyFromOffset_eq {out : Bytes} (hpos : 1 ≤ offset) (hle : offset ≤ out.length) (len : Nat) :
    copyFromOffset out offset len = .ok (out ++ repeated (out.drop (out.length - offset)) len) := by
  rw [copyFromOffset, if_neg (by omega), copyLoop_eq hpos hle]

theorem copyFromOffset_ok {out : Bytes} {len : Nat} (h : copyFromOffset out offset len = .ok o) :
    1 ≤ offset ∧ offset ≤ out.length ∧ o = out ++ repeated (out.drop (out.length - offset)) len := by
  by_cases hr : offset = 0 ∨ out.length < offset
  · rw [copyFromOffset, if_pos hr] at h
    cases h
  · rw [copyFromOffset_eq (by omega) (by omega)] at h
    cases h
    exact ⟨by omega, by omega, rfl⟩

theorem takeLiteral_ok {len : Nat} {rest out : Bytes} (h : takeLiteral len rest out = .ok (o, r)) :
    ∃ data, data.length = len ∧ rest = data ++ r ∧ o = out ++ data := by
  rw [takeLiteral] at h
  split at h
  · cases h
  · cases h
    exact ⟨rest.take len, by rw [length_take]; omega, (take_append_drop len rest).symm, rfl⟩

theorem takeLiteral_append (data rest out : Bytes) :
    takeLiteral data.length (data ++ rest) out = .ok (out ++ data, rest) := by
  rw [takeLiteral, if_neg (by rw [length_append]; omega), take_left, drop_left]

section Tag
variable (tag : UInt8)

theorem and_three : (tag &&& 0x03).toNat = tag.toNat % 4 := by
  rw [UInt8.toNat_and]
  exact Nat.and_two_pow_sub_one_eq_mod tag.toNat 2

theorem shift_two : (tag >>> 2).toNat = tag.toNat / 4 := by
  rw [UInt8.toNat_shiftRight]
  exact Nat.shiftRight_eq_div_pow tag.toNat 2

theorem shift_two_and_seven : ((tag >>> 2) &&& 0x07).toNat = tag.toNat / 4 % 8 := by
  rw [UInt8.toNat_and, shift_two]
  exact Nat.and_two_pow_sub_one_eq_mod _ 3

theorem shift_five_and_seven : ((tag >>> 5) &&& 0x07).toNat = tag.toNat / 32 := by
  have hlt := tag.toNat_lt
  have hshift : (tag >>> 5).toNat = tag.toNat / 32 := by
    rw [UInt8.toNat_shiftRight]
    exact Nat.shiftRight_eq_div_pow tag.toNat 5
  rw [UInt8.toNat_and, hshift]
  refine (Nat.and_two_pow_sub_one_eq_mod _ 3).trans (Nat.mod_eq_of_lt ?_)
  omega

end Tag

theorem or_byte (hi : Nat) (lo : UInt8) : hi <<< 8 ||| lo.toNat = 256 * hi + lo.toNat := by
  rw [Nat.shiftLeft_eq, Nat.mul_comm, ← Nat.two_pow_add_eq_or_of_lt lo.toNat_lt]

variable {tag : UInt8} {rest out : Bytes}

theorem decodeElement_short (h0 : tag.toNat % 4 = 0) (hs : tag.toNat / 4 < 60) :
    decodeElement tag rest out = takeLiteral (tag.toNat / 4 + 1) rest out := by
  simp only [decodeElement, and_three, shift_two, h0]
  exact if_pos hs

theorem decodeElement_long (h0 : tag.toNat % 4 = 0) (hs : 60 ≤ tag.toNat / 4) :
    decodeElement tag rest out =
      if rest.length < tag.toNat / 4 - 59 then .error .unexpectedEof
      else takeLiteral (leNat (rest.take (tag.toNat / 4 - 59)) + 1) (rest.drop (tag.toNat / 4 - 59)) out := by
  simp only [decodeElement, and_three, shift_two, h0]
  exact if_neg (by omega)

theorem decodeElement_one (h1 : tag.toNat % 4 = 1) (lo : UInt8) :
    decodeElement tag (lo :: rest) out =
      (copyFromOffset out (256 * (tag.toNat / 32) + lo.toNat) (tag.toNat / 4 % 8 + 4)).map (·, rest) := by
  simp only [decodeElement, and_three, shift_two_and_seven, shift_five_and_seven, or_byte, h1]

theorem decodeElement_two (h2 : tag.toNat % 4 = 2) (lo hi : UInt8) :
    decodeElement tag (lo :: hi :: rest) out =
      (copyFromOffset out (lo.toNat + 256 * hi.toNat) (tag.toNat / 4 + 1)).map (·, rest) := by
  simp only [decodeElement, and_three, shift_two, Nat.or_comm lo.toNat, or_byte, Nat.add_comm lo.toNat, h2]

theorem decodeElement_four (h3 : tag.toNat % 4 = 3) :
    decodeElement tag rest out =
      if rest.length < 4 then .error .unexpectedEof
      else (copyFromOffset out (leNat (rest.take 4)) (tag.toNat / 4 + 1)).map (·, rest.drop 4) := by
  simp only [decodeElement, and_three, shift_two, h3]

/-- An element is decoded from its bytes, whatever follows them. -/
theorem decodeElement_bytes (e : Element) (h : e.InReach out) :
    decodeElement e.tag (e.body ++ rest) out = .ok (e.apply out, rest) := by
  obtain ⟨form, data, hf⟩ | ⟨form, offset, len, hf⟩ := e
  · cases form with
    | short =>
      have htag : (UInt8.ofNat (4 * (data.length - 1))).toNat = 4 * (data.length - 1) := by
        rw [UInt8.toNat_ofNat']
        have := hf.2
        omega
      simp only [Element.tag, Element.body]
      have hlen : 4 * (data.length - 1) / 4 + 1 = data.length := by
        have := hf.1
        omega
      rw [decodeElement_short (by rw [htag]; omega) (by rw [htag]; have := hf.2; omega), htag, hlen, takeLiteral_append]
      rfl
    | long extra =>
      have hextra := extra.2
      have htag : (UInt8.ofNat (4 * (60 + extra.1))).toNat = 4 * (60 + extra.1) := by
        rw [UInt8.toNat_ofNat']
        omega
      have hcount : 4 * (60 + extra.1) / 4 - 59 = extra.1 + 1 := by omega
      have hnat : leNat (leBytes (extra.1 + 1) (data.length - 1)) + 1 = data.length := by
        have hf := hf
        simp only [LengthForm.Admits] at hf
        rw [leNat_leBytes, Nat.mod_eq_of_lt (by omega)]
        omega
      simp only [Element.tag, Element.body]
      rw [decodeElement_long (by rw [htag]; omega) (by rw [htag]; omega), htag, hcount, append_assoc,
        if_neg (by simp only [length_append, leBytes_length]; omega),
        take_left' (leBytes_length _ _), drop_left' (leBytes_length _ _), hnat, takeLiteral_append]
      rfl
  · obtain ⟨hpos, hle⟩ := h
    cases form with
    | one =>
      simp only [OffsetForm.Admits] at hf
      have htag : (UInt8.ofNat (1 + 4 * (len - 4) + 32 * (offset / 256))).toNat =
          1 + 4 * (len - 4) + 32 * (offset / 256) := by
        rw [UInt8.toNat_ofNat']
        omega
      have hlo : (UInt8.ofNat (offset % 256)).toNat = offset % 256 := by
        rw [UInt8.toNat_ofNat']
        omega
      simp only [Element.tag, Element.body, leBytes, cons_append, nil_append]
      rw [decodeElement_one (by rw [htag]; omega), htag, hlo,
        show 256 * ((1 + 4 * (len - 4) + 32 * (offset / 256)) / 32) + offset % 256 = offset by omega,
        show (1 + 4 * (len - 4) + 32 * (offset / 256)) / 4 % 8 + 4 = len by omega, copyFromOffset_eq hpos hle]
      rfl
    | two =>
      simp only [OffsetForm.Admits] at hf
      have htag : (UInt8.ofNat (2 + 4 * (len - 1))).toNat = 2 + 4 * (len - 1) := by
        rw [UInt8.toNat_ofNat']
        omega
      simp only [Element.tag, Element.body, leBytes, cons_append, nil_append]
      rw [decodeElement_two (by rw [htag]; omega), htag, UInt8.toNat_ofNat', UInt8.toNat_ofNat',
        show offset % 2 ^ 8 + 256 * (offset / 256 % 2 ^ 8) = offset by omega,
        show (2 + 4 * (len - 1)) / 4 + 1 = len by omega, copyFromOffset_eq hpos hle]
      rfl
    | four =>
      simp only [OffsetForm.Admits] at hf
      have htag : (UInt8.ofNat (3 + 4 * (len - 1))).toNat = 3 + 4 * (len - 1) := by
        rw [UInt8.toNat_ofNat']
        omega
      have hnat : leNat (leBytes 4 offset) = offset := by
        rw [leNat_leBytes, Nat.mod_eq_of_lt (by omega)]
      simp only [Element.tag, Element.body]
      rw [decodeElement_four (by rw [htag]; omega), htag,
        if_neg (by simp only [length_append, leBytes_length]; omega),
        take_left' (leBytes_length _ _), drop_left' (leBytes_length _ _), hnat,
        show (3 + 4 * (len - 1)) / 4 + 1 = len by omega, copyFromOffset_eq hpos hle]
      rfl

theorem ofNat_eq (tag : UInt8) {n : Nat} (h : tag.toNat = n) : UInt8.ofNat n = tag := by
  rw [← h, UInt8.ofNat_toNat]

theorem copied_ok {len : Nat} {r' : Bytes} (h : (copyFromOffset out offset len).map (·, r') = .ok (o, r)) :
    1 ≤ offset ∧ offset ≤ out.length ∧ o = out ++ repeated (out.drop (out.length - offset)) len ∧ r' = r := by
  cases hc : copyFromOffset out offset len with
  | error e =>
    rw [hc] at h
    cases h
  | ok a =>
    rw [hc] at h
    cases h
    obtain ⟨hpos, hle, ho⟩ := copyFromOffset_ok hc
    exact ⟨hpos, hle, ho, rfl⟩

/-- What is decoded from a tag and the bytes behind it is some element. -/
def IsElement (tag : UInt8) (rest out o r : Bytes) : Prop :=
  ∃ e : Element, tag :: rest = e.bytes ++ r ∧ e.InReach out ∧ o = e.apply out

theorem literal_ok (h0 : tag.toNat % 4 = 0) (h : decodeElement tag rest out = .ok (o, r)) : IsElement tag rest out o r := by
  have htag := tag.toNat_lt
  by_cases hs : tag.toNat / 4 < 60
  · rw [decodeElement_short h0 hs] at h
    obtain ⟨data, hlen, rfl, rfl⟩ := takeLiteral_ok h
    have hadm : LengthForm.short.Admits data.length := by
      simp only [LengthForm.Admits]
      omega
    refine ⟨.literal .short data hadm, ?_, trivial, rfl⟩
    simp only [Element.bytes, Element.tag, Element.body, cons_append]
    rw [ofNat_eq tag (by omega)]
  · rw [decodeElement_long h0 (by omega)] at h
    split at h
    · cases h
    · obtain ⟨data, hlen, hrest, rfl⟩ := takeLiteral_ok h
      have htake : (rest.take (tag.toNat / 4 - 59)).length = tag.toNat / 4 - 60 + 1 := by
        rw [length_take]
        omega
      have hlt := leNat_lt (rest.take (tag.toNat / 4 - 59))
      rw [htake] at hlt
      have hadm : (LengthForm.long ⟨tag.toNat / 4 - 60, by omega⟩).Admits data.length := by
        simp only [LengthForm.Admits]
        omega
      refine ⟨.literal _ data hadm, ?_, trivial, rfl⟩
      simp only [Element.bytes, Element.tag, Element.body, cons_append, append_assoc]
      rw [ofNat_eq tag (by omega), ← hrest, show data.length - 1 = leNat (rest.take (tag.toNat / 4 - 59)) by omega,
        ← htake, leBytes_leNat, take_append_drop]

theorem copyOne_ok (h1 : tag.toNat % 4 = 1) (h : decodeElement tag rest out = .ok (o, r)) : IsElement tag rest out o r := by
  have htag := tag.toNat_lt
  cases rest with
  | nil =>
    simp only [decodeElement, and_three, h1] at h
    cases h
  | cons lo rest =>
    have hlo := lo.toNat_lt
    rw [decodeElement_one h1] at h
    obtain ⟨hpos, hle, rfl, rfl⟩ := copied_ok h
    have hadm : OffsetForm.one.Admits (256 * (tag.toNat / 32) + lo.toNat) (tag.toNat / 4 % 8 + 4) := by
      simp only [OffsetForm.Admits]
      omega
    refine ⟨.copy .one _ _ hadm, ?_, ⟨hpos, hle⟩, rfl⟩
    simp only [Element.bytes, Element.tag, Element.body, leBytes, cons_append, nil_append]
    rw [ofNat_eq tag (by omega), ofNat_eq lo (by omega)]

theorem copyTwo_ok (h2 : tag.toNat % 4 = 2) (h : decodeElement tag rest out = .ok (o, r)) : IsElement tag rest out o r := by
  have htag := tag.toNat_lt
  obtain _ | ⟨lo, _ | ⟨hi, rest⟩⟩ := rest
  · simp only [decodeElement, and_three, h2] at h
    cases h
  · simp only [decodeElement, and_three, h2] at h
    cases h
  · have hlo := lo.toNat_lt
    have hhi := hi.toNat_lt
    rw [decodeElement_two h2] at h
    obtain ⟨hpos, hle, rfl, rfl⟩ := copied_ok h
    have hadm : OffsetForm.two.Admits (lo.toNat + 256 * hi.toNat) (tag.toNat / 4 + 1) := by
      simp only [OffsetForm.Admits]
      omega
    refine ⟨.copy .two _ _ hadm, ?_, ⟨hpos, hle⟩, rfl⟩
    have hbytes : leBytes 2 (lo.toNat + 256 * hi.toNat) = [lo, hi] := leBytes_leNat [lo, hi]
    simp only [Element.bytes, Element.tag, Element.body, hbytes, cons_append, nil_append]
    rw [ofNat_eq tag (by omega)]

theorem copyFour_ok (h3 : tag.toNat % 4 = 3) (h : decodeElement tag rest out = .ok (o, r)) : IsElement tag rest out o r := by
  have htag := tag.toNat_lt
  rw [decodeElement_four h3] at h
  split at h
  · cases h
  · obtain ⟨hpos, hle, rfl, rfl⟩ := copied_ok h
    have htake : (rest.take 4).length = 4 := by
      rw [length_take]
      omega
    have hlt := leNat_lt (rest.take 4)
    rw [htake] at hlt
    have hadm : OffsetForm.four.Admits (leNat (rest.take 4)) (tag.toNat / 4 + 1) := by
      simp only [OffsetForm.Admits]
      omega
    refine ⟨.copy .four _ _ hadm, ?_, ⟨hpos, hle⟩, rfl⟩
    have hbytes := leBytes_leNat (rest.take 4)
    rw [htake] at hbytes
    simp only [Element.bytes, Element.tag, Element.body, hbytes, cons_append, take_append_drop]
    rw [ofNat_eq tag (by omega)]

theorem decodeElement_ok (h : decodeElement tag rest out = .ok (o, r)) : IsElement tag rest out o r := by
  obtain h0 | h1 | h2 | h3 : tag.toNat % 4 = 0 ∨ tag.toNat % 4 = 1 ∨ tag.toNat % 4 = 2 ∨ tag.toNat % 4 = 3 := by omega
  · exact literal_ok h0 h
  · exact copyOne_ok h1 h
  · exact copyTwo_ok h2 h
  · exact copyFour_ok h3 h

/-! ## All elements -/

theorem decodeElements_bytes {es : List Element} (h : Valid out es) {f : Nat}
    (hf : (es.flatMap Element.bytes).length ≤ f) :
    decodeElements f (es.flatMap Element.bytes) out = .ok (denote out es) := by
  induction es generalizing out f with
  | nil => cases f <;> rfl
  | cons e es ih =>
    rw [flatMap_cons, Element.bytes, cons_append] at hf ⊢
    simp only [length_cons, length_append] at hf
    obtain ⟨f, rfl⟩ := Nat.exists_eq_succ_of_ne_zero (by omega : f ≠ 0)
    rw [decodeElements, decodeElement_bytes e h.1]
    exact ih h.2 (by omega)

theorem decodeElements_ok {f : Nat} (h : decodeElements f data out = .ok o) :
    ∃ es, Valid out es ∧ data = es.flatMap Element.bytes ∧ o = denote out es := by
  induction f generalizing data out with
  | zero =>
    cases data with
    | nil =>
      cases h
      exact ⟨[], trivial, rfl, rfl⟩
    | cons tag rest => cases h
  | succ f ih =>
    cases data with
    | nil =>
      cases h
      exact ⟨[], trivial, rfl, rfl⟩
    | cons tag rest =>
      rw [decodeElements] at h
      split at h
      · cases h
      · rename_i out' rest' helem
        obtain ⟨e, hbytes, hreach, rfl⟩ := decodeElement_ok helem
        obtain ⟨es, hvalid, rfl, rfl⟩ := ih h
        exact ⟨e :: es, ⟨hreach, hvalid⟩, by rw [hbytes, flatMap_cons], rfl⟩

/-! ## The preamble -/

theorem readVarint_leb {v : Nat} {b : Bytes} (h : Leb v b) (hb : b.length ≤ 5) (rest : Bytes) :
    readVarint (b ++ rest) = .ok (v, rest) := by
  have hv : v < 128 ^ 5 := Nat.lt_of_lt_of_le h.lt (Nat.pow_le_pow_right (by decide) hb)
  obtain ⟨x, hx, hread⟩ := readUnsignedVarintFrom_leb h (n := 5) (s := 0) (r := 0) rest hb (by decide) (by decide)
    (by simp; omega)
  rw [readVarint, hread]
  simp only [hx, Nat.pow_zero, Nat.mul_one, UInt64.toNat_zero, Nat.add_zero]

theorem readVarint_ok {rest : Bytes} {v : Nat} (h : readVarint data = .ok (v, rest)) :
    ∃ b, Leb v b ∧ b.length ≤ 5 ∧ data = b ++ rest := by
  rw [readVarint] at h
  split at h
  · rename_i x rest' hread
    cases h
    obtain ⟨v, b, hleb, hlen, hdata, hx⟩ := readUnsignedVarintFrom_ok (by decide) (by decide) hread
    simp only [Nat.pow_zero, Nat.mul_one, UInt64.toNat_zero, Nat.add_zero] at hx
    rw [hx]
    exact ⟨b, hleb, hlen, hdata⟩
  · cases h
  · cases h

/-! ## Blocks -/

/-- `data` is a length in at most five bytes and elements that denote `out`,
which has that length. -/
def Denotes (data out : Bytes) : Prop :=
  ∃ (preamble : Bytes) (es : List Element), Leb out.length preamble ∧ preamble.length ≤ 5 ∧ Valid [] es ∧
    data = preamble ++ es.flatMap Element.bytes ∧ out = denote [] es

/-- A block has less than `2 ^ 32` bytes of output. -/
def Block (data out : Bytes) : Prop := Denotes data out ∧ out.length < 2 ^ 32

/-- The number at the start of `data` is `n`. -/
def Declares (data : Bytes) (n : Nat) : Prop :=
  ∃ preamble rest, Leb n preamble ∧ preamble.length ≤ 5 ∧ data = preamble ++ rest

theorem decompress_denotes {out : Bytes} (h : Denotes data out) {size : Nat} (hs : size < 2 ^ 63) :
    decompress data size = .ok out := by
  obtain ⟨preamble, es, hleb, hlen, hvalid, rfl, hout⟩ := h
  have hlt : out.length < 128 ^ 5 := Nat.lt_of_lt_of_le hleb.lt (Nat.pow_le_pow_right (by decide) hlen)
  have hcap : ¬2 ^ 63 ≤ max out.length size := by omega
  rw [decompress, readVarint_leb hleb hlen]
  simp only [if_neg hcap, decodeElements_bytes hvalid (Nat.le_refl _), ← hout]
  exact if_neg (not_not_intro rfl)

theorem decompress_ok {out : Bytes} {size : Nat} (h : decompress data size = .ok out) :
    Denotes data out ∧ size < 2 ^ 63 := by
  rw [decompress] at h
  split at h
  · cases h
  · rename_i declaredLen rest hpre
    split at h
    · cases h
    · split at h
      · cases h
      · rename_i o helems
        split at h
        · cases h
        · rename_i hlen
          cases h
          obtain ⟨preamble, hleb, hle, rfl⟩ := readVarint_ok hpre
          obtain ⟨es, hvalid, rfl, hout⟩ := decodeElements_ok helems
          rw [← not_not.1 hlen] at hleb
          exact ⟨⟨preamble, es, hleb, hle, hvalid, rfl, hout⟩, by omega⟩

/-- **A block is decompressed to what its elements denote**, and nothing else
is decompressed, if the size passed can be reserved and the preamble is below
`2 ^ 32`. With a larger size nothing is decompressed, and with a larger
preamble what is no block is. -/
theorem decompress_ok_iff (data : Bytes) (size : Nat) :
    (size < 2 ^ 63 → (∀ n, Declares data n → n < 2 ^ 32) → ∀ out, decompress data size = .ok out ↔ Block data out) ∧
      (2 ^ 63 ≤ size → ∀ out, decompress data size ≠ .ok out) ∧
      (size < 2 ^ 63 → ∀ out, Denotes data out → 2 ^ 32 ≤ out.length →
        decompress data size = .ok out ∧ ¬ Block data out) := by
  refine ⟨fun hsize hpre out => ⟨fun h => ?_, fun h => decompress_denotes h.1 hsize⟩, fun hsize out h => ?_,
    fun hsize out h hlong => ⟨decompress_denotes h hsize, fun hblock => ?_⟩⟩
  · obtain ⟨preamble, es, hleb, hlen, hrest⟩ := (decompress_ok h).1
    exact ⟨⟨preamble, es, hleb, hlen, hrest⟩, hpre _ ⟨preamble, _, hleb, hlen, hrest.2.1⟩⟩
  · exact absurd (decompress_ok h).2 (Nat.not_lt.2 hsize)
  · exact absurd hblock.2 (Nat.not_lt.2 hlong)

/-- A literal of one byte, and four copies of it. -/
theorem run_decompressed : decompress [5, 0, 7, 14, 1, 0] 5 = .ok [7, 7, 7, 7, 7] := by
  have hpre : ∀ n, Declares [5, 0, 7, 14, 1, 0] n → n < 2 ^ 32 := by
    rintro n ⟨preamble, rest, hleb, hlen, hdata⟩
    have hread := readVarint_leb hleb hlen rest
    rw [← hdata] at hread
    have hfive : readVarint [5, 0, 7, 14, 1, 0] = .ok (5, [0, 7, 14, 1, 0]) := by decide
    obtain ⟨rfl, -⟩ := Prod.mk.inj (Except.ok.inj (hfive.symm.trans hread))
    decide
  refine (((decompress_ok_iff [5, 0, 7, 14, 1, 0] 5).1 (by decide) hpre) [7, 7, 7, 7, 7]).2 ⟨?_, by decide⟩
  exact ⟨[5], [.literal .short [7] (by decide : 1 ≤ 1 ∧ 1 ≤ 60),
    .copy .two 1 4 (by decide : 1 < 2 ^ 16 ∧ 1 ≤ 4 ∧ 4 ≤ 64)], .last 5 (by decide), by decide,
    ⟨trivial, (by decide : 1 ≤ 1 ∧ 1 ≤ 1), trivial⟩, by decide, by decide⟩

/-- The size of a page header that says -1, for the block without elements. -/
theorem size_panics : Block [0] [] ∧ decompress [0] (2 ^ 64 - 1) = .error .panicked :=
  ⟨⟨⟨[0], [], .last 0 (by decide), by decide, trivial, rfl, rfl⟩, by decide⟩, by decide⟩

/-- One literal of `2 ^ 32` bytes is decompressed, though it is no block. -/
theorem long_block_accepted : ∃ data out, decompress data 0 = .ok out ∧ ¬ Block data out := by
  obtain ⟨out, hout⟩ : ∃ out : Bytes, out.length = 2 ^ 32 := ⟨List.replicate (2 ^ 32) 0, length_replicate⟩
  have hadm : (LengthForm.long 3).Admits out.length := by
    rw [hout]
    exact ⟨by decide, Nat.le_refl _⟩
  have hleb : Leb (2 ^ 32) [0x80, 0x80, 0x80, 0x80, 0x10] :=
    .more 0 (2 ^ 25) _ (by decide) (.more 0 (2 ^ 18) _ (by decide) (.more 0 (2 ^ 11) _ (by decide)
      (.more 0 (2 ^ 4) _ (by decide) (.last 16 (by decide)))))
  have hden : Denotes ([0x80, 0x80, 0x80, 0x80, 0x10] ++ [Element.literal _ out hadm].flatMap Element.bytes) out :=
    ⟨_, [.literal _ out hadm], hout ▸ hleb, by decide, ⟨trivial, trivial⟩, rfl, rfl⟩
  exact ⟨_, out, decompress_denotes hden (by decide), fun h => absurd h.2 (by omega)⟩

end DbStorage.Parquet.Snappy
