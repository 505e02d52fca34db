import DbStorage.Record.Columns

/-!
# Reported body lengths (`record/encode.rs`)

`encode_record_into` leaves the serial type and the body length of each column
in a buffer of the caller. The lengths come from a table of their own
(`integerBodyLen`), next to the one by which bodies are written and the one by
which they are read, and it has five bytes for the integers of serial type 5,
which take six.

Result: `body_lengths_agree_iff` (the three agree, and the reported lengths
add up to the record, exactly when no column is such an integer).
-/
namespace DbStorage.Record
open Bytes

/-- mirrors encode.rs:105-115 -/
def integerBodyLen (serialType : Nat) : Nat :=
  match serialType with
  | 1 => 1
  | 2 => 2
  | 3 => 3
  | 4 => 4
  | 5 => 5
  | 6 => 8
  | _ => 0

/-- mirrors encode.rs:163-177 -/
def serialTypeAndBodyLen (value : Value) (encoding : TextEncoding) : Nat × Nat :=
  match value with
  | .null => (0, 0)
  | .integer i => (integerSerialType i, integerBodyLen (integerSerialType i))
  | .real _ => (7, 8)
  | .blob b => (blobSerialType b.length, b.length)
  | .text s => (textSerialType (encodedTextLen s encoding), encodedTextLen s encoding)

/-- The two buffers, which are cleared first. The sum of the body lengths only
reserves room.
mirrors encode.rs:217-251 -/
def encodeRecordInto (values : List Value) (encoding : TextEncoding) (_out : Bytes) (_serialTypes : List (Nat × Nat)) :
    Bytes × List (Nat × Nat) :=
  let serialTypes := values.map (serialTypeAndBodyLen · encoding)
  (encodeVarint (headerLen (serialTypes.map Prod.fst)) ++ (serialTypes.flatMap (fun entry => encodeVarint entry.1) ++
    (values.zip serialTypes).flatMap fun (value, entry) => writeBody value entry.1 encoding), serialTypes)

/-- What is reported for a column is what is written for it and what the
decoder takes for its serial type. -/
structure ColumnAgrees (encoding : TextEncoding) (value : Value) (entry : Nat × Nat) : Prop where
  written : (writeBody value entry.1 encoding).length = entry.2
  declared : serialTypeLen entry.1 = entry.2
  consumed : ∀ pre rest, ∃ v, decodeSerialValue entry.1 (pre ++ (writeBody value entry.1 encoding ++ rest)) pre.length
    encoding = .ok (v, entry.2)

/-- The header and the reported lengths are the whole record. -/
structure LengthsAgree (encoding : TextEncoding) (values : List Value) (out : Bytes) (entries : List (Nat × Nat)) :
    Prop where
  columns : List.Forall₂ (ColumnAgrees encoding) values entries
  total : headerLen (entries.map Prod.fst) + (entries.map Prod.snd).sum = out.length

/-- An integer that takes six bytes and not fewer. -/
def SixBytes (i : Int64) : Prop := -2 ^ 47 ≤ i.toInt ∧ i.toInt < -2 ^ 31 ∨ 2 ^ 31 ≤ i.toInt ∧ i.toInt < 2 ^ 47

/-! ## One column -/

section
variable {value : Value} {encoding : TextEncoding}

theorem serialTypeAndBodyLen_fst (value : Value) (encoding : TextEncoding) :
    (serialTypeAndBodyLen value encoding).1 = serialType value encoding := by
  cases value <;> rfl

theorem integerSerialType_eq_five (i : Int64) : integerSerialType i = 5 ↔ SixBytes i := by
  unfold integerSerialType SixBytes
  dsimp only
  repeat' split
  all_goals omega

theorem integerBodyLen_cases (st : Nat) :
    integerBodyLen st = integerWidth st ∧ st ≠ 5 ∨ integerBodyLen st + 1 = integerWidth st ∧ st = 5 := by
  unfold integerBodyLen integerWidth
  split <;> simp_all

/-- The reported length is the written one, or one less for an integer of six
bytes. -/
theorem reported_cases (hlen : (writeBody value (serialType value encoding) encoding).length < 2 ^ 63 - 7) :
    (serialTypeAndBodyLen value encoding).2 = (writeBody value (serialType value encoding) encoding).length ∧
        (∀ i, value = .integer i → ¬SixBytes i) ∨
      (serialTypeAndBodyLen value encoding).2 + 1 = (writeBody value (serialType value encoding) encoding).length ∧
        ∃ i, value = .integer i ∧ SixBytes i := by
  cases value with
  | null => exact .inl ⟨rfl, nofun⟩
  | real bits => exact .inl ⟨(beBytes_length 8 _).symm, nofun⟩
  | blob b => exact .inl ⟨rfl, nofun⟩
  | text s => exact .inl ⟨encodedTextLen_eq s encoding (Nat.lt_trans hlen (by decide)), nofun⟩
  | integer i =>
    simp only [serialTypeAndBodyLen, serialType, writeBody, writeIntegerBody, beBytes_length, ← integerSerialType_eq_five]
    obtain ⟨heq, hne⟩ | ⟨heq, hst⟩ := integerBodyLen_cases (integerSerialType i)
    · exact .inl ⟨heq, fun j hj => Value.integer.inj hj ▸ hne⟩
    · exact .inr ⟨heq, i, rfl, hst⟩

/-- The decoder takes the written body, for a NaN as well. -/
theorem decodeSerialValue_consumes
    (hlen : (writeBody value (serialType value encoding) encoding).length < 2 ^ 63 - 7) (pre rest : Bytes) :
    ∃ v, decodeSerialValue (serialType value encoding)
      (pre ++ (writeBody value (serialType value encoding) encoding ++ rest)) pre.length encoding =
      .ok (v, (writeBody value (serialType value encoding) encoding).length) := by
  by_cases hnan : ∀ bits, value = .real bits → ¬isNan bits
  · exact ⟨value, decodeSerialValue_body encoding hnan hlen pre rest⟩
  · push Not at hnan
    obtain ⟨bits, rfl, -⟩ := hnan
    have htake := takeBytes_append pre (beBytes 8 bits.toNat) rest
    rw [beBytes_length] at htake
    simp only [serialType, writeBody, beBytes_length, decodeSerialValue, htake, bind, Except.bind]
    split
    · exact ⟨_, rfl⟩
    · exact ⟨_, rfl⟩

/-- A column agrees unless it is an integer of six bytes. -/
theorem columnAgrees_iff (hlen : (writeBody value (serialType value encoding) encoding).length < 2 ^ 63 - 7) :
    ColumnAgrees encoding value (serialTypeAndBodyLen value encoding) ↔ ∀ i, value = .integer i → ¬SixBytes i := by
  have hreads := decodeSerialValue_consumes hlen
  obtain ⟨v, hread⟩ := hreads [] []
  have hdeclared := decodeSerialValue_len hread
  obtain ⟨heq, hfree⟩ | ⟨heq, i, hi, hsix⟩ := reported_cases hlen
  · refine iff_of_true ⟨?_, ?_, ?_⟩ hfree
    · rw [serialTypeAndBodyLen_fst, heq]
    · rw [serialTypeAndBodyLen_fst, heq, hdeclared]
    · rw [serialTypeAndBodyLen_fst, heq]
      exact hreads
  · refine iff_of_false (fun h => ?_) fun h => h i hi hsix
    have := h.written
    rw [serialTypeAndBodyLen_fst] at this
    omega

end

/-! ## Records -/

section
variable {values : List Value} {encoding : TextEncoding}

theorem map_fst_reported (values : List Value) (encoding : TextEncoding) :
    (values.map (serialTypeAndBodyLen · encoding)).map Prod.fst = values.map (serialType · encoding) := by
  rw [List.map_map]
  exact List.map_congr_left fun value _ => serialTypeAndBodyLen_fst value encoding

theorem encodeRecordInto_fst (values : List Value) (encoding : TextEncoding) (out : Bytes) (serialTypes : List (Nat × Nat)) :
    (encodeRecordInto values encoding out serialTypes).1 = encodeRecord values encoding := by
  simp only [encodeRecordInto, encodeRecord, map_fst_reported, List.flatMap_map, List.zip_map_right, Prod.map_fst, Prod.map_snd,
    serialTypeAndBodyLen_fst]

theorem sum_reported
    (hlen : ∀ value ∈ values, (writeBody value (serialType value encoding) encoding).length < 2 ^ 63 - 7)
    (h : ∀ i, .integer i ∈ values → ¬SixBytes i) :
    ((values.map (serialTypeAndBodyLen · encoding)).map Prod.snd).sum =
      (values.flatMap fun value => writeBody value (serialType value encoding) encoding).length := by
  induction values with
  | nil => rfl
  | cons value values ih =>
    have hrest := ih (fun v hv => hlen v (List.mem_cons_of_mem _ hv)) fun i hi => h i (List.mem_cons_of_mem _ hi)
    rw [List.map_cons, List.map_cons, List.sum_cons, List.flatMap_cons, List.length_append, hrest]
    obtain ⟨hval, -⟩ | ⟨-, i, rfl, hsix⟩ := reported_cases (hlen value List.mem_cons_self)
    · rw [hval]
    · exact absurd hsix (h i List.mem_cons_self)

end

/-- **Reported lengths.** For a record that a `Vec` can hold they are right
exactly when no column is an integer of six bytes. -/
theorem body_lengths_agree_iff (values : List Value) (encoding : TextEncoding) (out : Bytes) (serialTypes : List (Nat × Nat))
    (hmem : (encodeRecordInto values encoding out serialTypes).1.length < 2 ^ 63) :
    LengthsAgree encoding values (encodeRecordInto values encoding out serialTypes).1
        (encodeRecordInto values encoding out serialTypes).2 ↔
      ∀ i, .integer i ∈ values → ¬SixBytes i := by
  rw [encodeRecordInto_fst] at hmem ⊢
  obtain ⟨hsum, hbodies⟩ := encodeRecord_bounds hmem
  have hentries : (encodeRecordInto values encoding out serialTypes).2 = values.map (serialTypeAndBodyLen · encoding) := rfl
  rw [hentries]
  constructor
  · intro h i hi
    have hcolumn := List.forall₂_map_right_iff.1 h.columns
    rw [List.forall₂_same] at hcolumn
    exact (columnAgrees_iff (hbodies _ hi)).1 (hcolumn _ hi) i rfl
  · intro h
    refine ⟨List.forall₂_map_right_iff.2 (List.forall₂_same.2 fun value hvalue => ?_), ?_⟩
    · exact (columnAgrees_iff (hbodies value hvalue)).2 fun i hi => h i (hi ▸ hvalue)
    · rw [sum_reported hbodies h, map_fst_reported, encodeRecord_eq, List.length_append, List.length_append,
        encodeVarint_length, flatMap_encodeVarint_length, ← Nat.add_assoc, ← (headerLen_spec hsum).1]

/-- 2147483648 is written with six bytes and reported with five. -/
theorem six_bytes_misreported :
    ¬LengthsAgree .utf8 [.integer 2147483648] (encodeRecordInto [.integer 2147483648] .utf8 [] []).1
      (encodeRecordInto [.integer 2147483648] .utf8 [] []).2 := by
  intro h
  exact absurd h.total (by decide)

theorem mixed_lengths_agree :
    LengthsAgree .utf16Le [.integer 7, .real 0x7ff8000000000000, .text ['a', '😀'], .blob [0, 255]]
      (encodeRecordInto [.integer 7, .real 0x7ff8000000000000, .text ['a', '😀'], .blob [0, 255]] .utf16Le [] []).1
      (encodeRecordInto [.integer 7, .real 0x7ff8000000000000, .text ['a', '😀'], .blob [0, 255]] .utf16Le [] []).2 := by
  refine (body_lengths_agree_iff _ .utf16Le [] [] (by decide)).2 fun i hi => ?_
  simp only [List.mem_cons, Value.integer.injEq, reduceCtorEq, List.not_mem_nil, or_false] at hi
  subst hi
  unfold SixBytes
  decide

end DbStorage.Record
