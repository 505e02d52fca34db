import DbStorage.Record.Varint

/-!
# Text in records (`record/encode.rs`, `record/decode.rs`)

A `str` is a sequence of Unicode scalar values, which is what `Char` is; a
record holds it in the database's encoding, UTF-8 or UTF-16 with the bytes
of a unit in either order. The checked decoders of the standard library are
`utf8Decode?` and, for UTF-16, `decodeUnits`: a unit that is no surrogate is
a character of its own, a leading surrogate takes the trailing one behind
it, and anything else is an error.

Result: `decodeText_write`, text survives in each encoding.
-/
namespace DbStorage.Record

inductive TextEncoding where
  | utf8
  | utf16Le
  | utf16Be
  deriving DecidableEq

/-! ## UTF-16 -/

/-- The units of a character: one, or a pair of surrogates. -/
def charUnits (c : Char) : List UInt16 :=
  if c.toNat < 0x10000 then [UInt16.ofNat c.toNat]
  else [UInt16.ofNat (0xd800 + (c.toNat - 0x10000) / 1024), UInt16.ofNat (0xdc00 + (c.toNat - 0x10000) % 1024)]

/-- `str::encode_utf16` -/
def encodeUtf16 (s : List Char) : List UInt16 := s.flatMap charUnits

/-- `char::decode_utf16`, up to the first error. The flag keeps a leading
surrogate that waits for its trailing one. -/
def decodeUnits : Option UInt16 → List UInt16 → Except RecordError (List Char)
  | none, [] => .ok []
  | some _, [] => .error .invalidUtf16
  | none, u :: rest =>
    if u.toNat < 0xd800 ∨ 0xe000 ≤ u.toNat then do
      let s ← decodeUnits none rest
      .ok (Char.ofNat u.toNat :: s)
    else if u.toNat < 0xdc00 then decodeUnits (some u) rest
    else .error .invalidUtf16
  | some lead, u :: rest =>
    if 0xdc00 ≤ u.toNat ∧ u.toNat < 0xe000 then do
      let s ← decodeUnits none rest
      .ok (Char.ofNat (0x10000 + (lead.toNat - 0xd800) * 1024 + (u.toNat - 0xdc00)) :: s)
    else .error .invalidUtf16

/-- `u16::to_le_bytes` and `u16::to_be_bytes` -/
def unitBytes (bigEndian : Bool) (u : UInt16) : Bytes :=
  if bigEndian then [UInt8.ofNat (u.toNat / 256), UInt8.ofNat u.toNat]
  else [UInt8.ofNat u.toNat, UInt8.ofNat (u.toNat / 256)]

/-- `u16::from_le_bytes` and `u16::from_be_bytes` -/
def unitOfBytes (bigEndian : Bool) (b₀ b₁ : UInt8) : UInt16 :=
  if bigEndian then UInt16.ofNat (b₀.toNat * 256 + b₁.toNat) else UInt16.ofNat (b₁.toNat * 256 + b₀.toNat)

/-- Pairs of bytes; an odd byte at the end is left out. -/
def unitsOfBytes (bigEndian : Bool) : Bytes → List UInt16
  | b₀ :: b₁ :: rest => unitOfBytes bigEndian b₀ b₁ :: unitsOfBytes bigEndian rest
  | _ => []

/-- mirrors decode.rs:406-414 -/
def decodeUtf16 (bigEndian : Bool) (bytes : Bytes) : Except RecordError (List Char) :=
  if bytes.length % 2 = 0 then decodeUnits none (unitsOfBytes bigEndian bytes) else .error .invalidUtf16

theorem char_ranges (c : Char) : c.toNat < 0xd800 ∨ 0xdfff < c.toNat ∧ c.toNat < 0x110000 := c.valid

/-- The units of a character are read as the character. -/
theorem decodeUnits_charUnits (c : Char) (rest : List UInt16) :
    decodeUnits none (charUnits c ++ rest) = (decodeUnits none rest).map (c :: ·) := by
  have hc := char_ranges c
  have hchar : Char.ofNat c.toNat = c := Char.ofNat_toNat c
  unfold charUnits
  split
  · rename_i h
    have hu : (UInt16.ofNat c.toNat).toNat = c.toNat := by
      rw [UInt16.toNat_ofNat']
      exact Nat.mod_eq_of_lt (by omega)
    rw [List.singleton_append, decodeUnits, hu, if_pos (by omega), hchar]
    cases decodeUnits none rest <;> rfl
  · rename_i h
    have hlead : (UInt16.ofNat (0xd800 + (c.toNat - 0x10000) / 1024)).toNat = 0xd800 + (c.toNat - 0x10000) / 1024 := by
      rw [UInt16.toNat_ofNat']
      exact Nat.mod_eq_of_lt (by omega)
    have htrail : (UInt16.ofNat (0xdc00 + (c.toNat - 0x10000) % 1024)).toNat = 0xdc00 + (c.toNat - 0x10000) % 1024 := by
      rw [UInt16.toNat_ofNat']
      exact Nat.mod_eq_of_lt (by omega)
    have hval : 0x10000 + (0xd800 + (c.toNat - 0x10000) / 1024 - 0xd800) * 1024 +
        (0xdc00 + (c.toNat - 0x10000) % 1024 - 0xdc00) = c.toNat := by omega
    rw [List.cons_append, List.singleton_append, decodeUnits, hlead, if_neg (by omega), if_pos (by omega), decodeUnits,
      htrail, hlead, if_pos (by omega), hval, hchar]
    cases decodeUnits none rest <;> rfl

theorem decodeUnits_encode (s : List Char) : decodeUnits none (encodeUtf16 s) = .ok s := by
  induction s with
  | nil => rfl
  | cons c s ih =>
    rw [encodeUtf16, List.flatMap_cons, decodeUnits_charUnits]
    change (decodeUnits none (encodeUtf16 s)).map (c :: ·) = _
    rw [ih]
    rfl

theorem unitBytes_length (bigEndian : Bool) (u : UInt16) : (unitBytes bigEndian u).length = 2 := by
  cases bigEndian <;> rfl

theorem unitsOfBytes_unitBytes (bigEndian : Bool) (u : UInt16) (rest : Bytes) :
    unitsOfBytes bigEndian (unitBytes bigEndian u ++ rest) = u :: unitsOfBytes bigEndian rest := by
  have hu : u.toNat < 65536 := u.toNat_lt
  have hsum : u.toNat / 256 % 256 * 256 + u.toNat % 256 = u.toNat := by omega
  cases bigEndian <;>
    simp [unitBytes, unitsOfBytes, unitOfBytes, UInt8.toNat_ofNat', hsum]

theorem unitsOfBytes_flatMap (bigEndian : Bool) (units : List UInt16) :
    unitsOfBytes bigEndian (units.flatMap (unitBytes bigEndian)) = units := by
  induction units with
  | nil => rfl
  | cons u units ih => rw [List.flatMap_cons, unitsOfBytes_unitBytes, ih]

theorem flatMap_unitBytes_length (bigEndian : Bool) (units : List UInt16) :
    (units.flatMap (unitBytes bigEndian)).length = 2 * units.length := by
  induction units with
  | nil => rfl
  | cons u units ih =>
    rw [List.flatMap_cons, List.length_append, unitBytes_length, ih, List.length_cons]
    omega

theorem decodeUtf16_encode (bigEndian : Bool) (s : List Char) :
    decodeUtf16 bigEndian ((encodeUtf16 s).flatMap (unitBytes bigEndian)) = .ok s := by
  rw [decodeUtf16, flatMap_unitBytes_length, if_pos (by omega), unitsOfBytes_flatMap, decodeUnits_encode]

/-! ## UTF-8 -/

/-- `str::as_bytes` -/
def encodeUtf8 (s : List Char) : Bytes := s.flatMap String.utf8EncodeChar

/-- `std::str::from_utf8` -/
def decodeUtf8 (bytes : Bytes) : Except RecordError (List Char) :=
  match bytes.toByteArray.utf8Decode? with
  | some s => .ok s.toList
  | none => .error .invalidUtf8

theorem decodeUtf8_encode (s : List Char) : decodeUtf8 (encodeUtf8 s) = .ok s := by
  have h := List.utf8Decode?_utf8Encode (l := s)
  rw [List.utf8Encode] at h
  rw [decodeUtf8, encodeUtf8, h]

/-! ## Either encoding -/

/-- mirrors encode.rs:131-136 -/
def encodedTextLen (s : List Char) : TextEncoding → Nat
  | .utf8 => (encodeUtf8 s).length
  | .utf16Le | .utf16Be => min ((encodeUtf16 s).length * 2) (2 ^ 64 - 1)

/-- mirrors encode.rs:138-148 -/
def writeTextBody (s : List Char) : TextEncoding → Bytes
  | .utf8 => encodeUtf8 s
  | .utf16Le => (encodeUtf16 s).flatMap (unitBytes false)
  | .utf16Be => (encodeUtf16 s).flatMap (unitBytes true)

/-- mirrors decode.rs:396-404 -/
def decodeText (bytes : Bytes) : TextEncoding → Except RecordError (List Char)
  | .utf8 => decodeUtf8 bytes
  | .utf16Le => decodeUtf16 false bytes
  | .utf16Be => decodeUtf16 true bytes

theorem decodeText_write (s : List Char) (encoding : TextEncoding) :
    decodeText (writeTextBody s encoding) encoding = .ok s := by
  cases encoding with
  | utf8 => exact decodeUtf8_encode s
  | utf16Le => exact decodeUtf16_encode false s
  | utf16Be => exact decodeUtf16_encode true s

/-- The length that the serial type gets is the length of the body. -/
theorem encodedTextLen_eq (s : List Char) (encoding : TextEncoding) (h : (writeTextBody s encoding).length < 2 ^ 64) :
    encodedTextLen s encoding = (writeTextBody s encoding).length := by
  cases encoding with
  | utf8 => rfl
  | utf16Le | utf16Be =>
    simp only [encodedTextLen, writeTextBody, flatMap_unitBytes_length] at h ⊢
    omega

end DbStorage.Record
