import DbStorage.Core.PageWalk
import DbStorage.Record.Codec

/-!
# Reading some columns of a record (`record/decode.rs`)

`decode_record` reads the serial types and then the bodies, each where the one
before has ended. The other decoders walk the header only and compute where
each body is from the serial types before it, one of them without keeping a
table. On a record that `decode_record` accepts they all read the same values
(`partial_decoders_agree`).

A body position saturates, as a serial type may declare more bytes than there
are; the position in the header does not need to, since a varint ends inside
of the payload.
-/
namespace DbStorage.Record
open Bytes
open PageWalk (bind_eq_ok_iff)

/-! ## The decoders -/

/-- mirrors decode.rs:261-273 -/
def serialTypeLen (serialType : Nat) : Nat :=
  match serialType with
  | 0 | 8 | 9 | 10 | 11 => 0
  | 1 => 1
  | 2 => 2
  | 3 => 3
  | 4 => 4
  | 5 => 6
  | 6 | 7 => 8
  | n => if n % 2 = 0 then (n - 12) / 2 else (n - 13) / 2

/-- The header's length and where the serial types start.
mirrors decode.rs:79-86, decode.rs:228-235 -/
def headerStart (payload : Bytes) : Except RecordError (Nat × Nat) := do
  let (headerLen, n) ← decodeVarintAt payload 0
  if headerLen < n then .error (.headerTooShort headerLen n) else .ok (headerLen, n)

/-- mirrors decode.rs:90-101 -/
def parseHeaderLoop (payload : Bytes) (headerLen : Nat) :
    Nat → Nat → Nat → List (Nat × Nat) → Except RecordError (List (Nat × Nat))
  | 0, pos, _, _ => .error (.unexpectedEof pos)
  | n + 1, pos, bodyPos, entries =>
    if pos < headerLen then do
      let (serialType, len) ← decodeVarintAt payload pos
      if headerLen < pos + len then .error (.headerOverrun pos headerLen)
      else
        parseHeaderLoop payload headerLen n (pos + len) (saturatingAdd bodyPos (serialTypeLen serialType))
          (entries ++ [(serialType, bodyPos)])
    else .ok entries

/-- The scratch vector is cleared first; what an error leaves in it is cleared
by the next call.
mirrors decode.rs:74-103 -/
def parseHeaderInto (payload : Bytes) (_entries : List (Nat × Nat)) : Except RecordError (List (Nat × Nat)) := do
  let (headerLen, n) ← headerStart payload
  parseHeaderLoop payload headerLen (payload.length + 1) n headerLen []

/-- mirrors decode.rs:64-68 -/
def parseHeader (payload : Bytes) : Except RecordError (List (Nat × Nat)) := parseHeaderInto payload []

/-- The value of a column with its serial type and offset, `NULL` where there
is no such column.
mirrors decode.rs:119-125, decode.rs:201-206 -/
def entryValue (payload : Bytes) (encoding : TextEncoding) : Option (Nat × Nat) → Except RecordError Value
  | some (serialType, offset) => do
    let (value, _) ← decodeSerialValue serialType payload offset encoding
    .ok value
  | none => .ok .null

/-- mirrors decode.rs:113-126 -/
def decodeColumn (payload : Bytes) (idx : Nat) (encoding : TextEncoding) : Except RecordError Value := do
  let entries ← parseHeader payload
  entryValue payload encoding entries[idx]?

/-- mirrors decode.rs:132-134 -/
def recordColumnCount (payload : Bytes) : Except RecordError Nat := do
  let entries ← parseHeader payload
  .ok entries.length

/-- mirrors decode.rs:158-172 -/
def decodeRecordUptoInto (payload : Bytes) (maxColumns : Nat) (encoding : TextEncoding) (entries : List (Nat × Nat)) :
    Except RecordError (List Value) := do
  let entries ← parseHeaderInto payload entries
  (entries.take (min maxColumns entries.length)).mapM fun entry => entryValue payload encoding (some entry)

/-- mirrors decode.rs:144-151 -/
def decodeRecordUpto (payload : Bytes) (maxColumns : Nat) (encoding : TextEncoding) : Except RecordError (List Value) :=
  decodeRecordUptoInto payload maxColumns encoding []

/-- mirrors decode.rs:239-254 -/
def decodeSingleLoop (payload : Bytes) (idx : Nat) (encoding : TextEncoding) (headerLen : Nat) :
    Nat → Nat → Nat → Nat → Except RecordError Value
  | 0, pos, _, _ => .error (.unexpectedEof pos)
  | n + 1, pos, bodyPos, col =>
    if pos < headerLen then do
      let (serialType, len) ← decodeVarintAt payload pos
      if headerLen < pos + len then .error (.headerOverrun pos headerLen)
      else if col = idx then entryValue payload encoding (some (serialType, bodyPos))
      else
        decodeSingleLoop payload idx encoding headerLen n (pos + len)
          (saturatingAdd bodyPos (serialTypeLen serialType)) (col + 1)
    else .ok .null

/-- mirrors decode.rs:223-255 -/
def decodeSingleColumn (payload : Bytes) (idx : Nat) (encoding : TextEncoding) : Except RecordError Value := do
  let (headerLen, n) ← headerStart payload
  decodeSingleLoop payload idx encoding headerLen (payload.length + 1) n headerLen 0

/-- mirrors decode.rs:189-210 -/
def decodeRecordOnlyInto (payload : Bytes) (wanted : List Nat) (encoding : TextEncoding) (entries : List (Nat × Nat)) :
    Except RecordError (List Value) :=
  match wanted with
  | [only] => do
    let value ← decodeSingleColumn payload only encoding
    .ok [value]
  | wanted => do
    let entries ← parseHeaderInto payload entries
    wanted.mapM fun idx => entryValue payload encoding entries[idx]?

/-! ## The table of columns -/

/-- Each serial type with the offset that the ones before it add up to. -/
def columnsFrom : Nat → List Nat → List (Nat × Nat)
  | _, [] => []
  | bodyPos, serialType :: serialTypes =>
    (serialType, bodyPos) :: columnsFrom (saturatingAdd bodyPos (serialTypeLen serialType)) serialTypes

variable {n pos : Nat} {serialTypes : List Nat}

section
variable {payload : Bytes} {encoding : TextEncoding} {headerLen : Nat}

theorem decodeSerialTypes_succ (h : decodeSerialTypes payload headerLen (n + 1) pos = .ok serialTypes) :
    (¬ pos < headerLen ∧ serialTypes = []) ∨
      ∃ serialType len rest, pos < headerLen ∧ decodeVarintAt payload pos = .ok (serialType, len) ∧
        ¬ headerLen < pos + len ∧ decodeSerialTypes payload headerLen n (pos + len) = .ok rest ∧
        serialTypes = serialType :: rest := by
  rw [decodeSerialTypes] at h
  split at h
  · rename_i hpos
    obtain ⟨⟨serialType, len⟩, hvarint, h⟩ := bind_eq_ok_iff.1 h
    dsimp only at h
    split at h
    · cases h
    · rename_i hover
      obtain ⟨rest, hrest, h⟩ := bind_eq_ok_iff.1 h
      cases h
      exact .inr ⟨serialType, len, rest, hpos, hvarint, hover, hrest, rfl⟩
  · rename_i hpos
    cases h
    exact .inl ⟨hpos, rfl⟩

theorem parseHeaderLoop_eq (h : decodeSerialTypes payload headerLen n pos = .ok serialTypes) (bodyPos : Nat)
    (entries : List (Nat × Nat)) :
    parseHeaderLoop payload headerLen n pos bodyPos entries = .ok (entries ++ columnsFrom bodyPos serialTypes) := by
  induction n generalizing pos serialTypes bodyPos entries with
  | zero => cases h
  | succ n ih =>
    obtain ⟨hpos, rfl⟩ | ⟨serialType, len, rest, hpos, hvarint, hover, hrest, rfl⟩ := decodeSerialTypes_succ h
    · rw [parseHeaderLoop, if_neg hpos, columnsFrom, List.append_nil]
    · rw [parseHeaderLoop, if_pos hpos, hvarint]
      dsimp only [bind, Except.bind]
      rw [if_neg hover, ih hrest, List.append_assoc]
      rfl

/-- The walk without a table finds the column where the table has it. -/
theorem decodeSingleLoop_eq (h : decodeSerialTypes payload headerLen n pos = .ok serialTypes) (bodyPos col k : Nat) :
    decodeSingleLoop payload (col + k) encoding headerLen n pos bodyPos col =
      entryValue payload encoding (columnsFrom bodyPos serialTypes)[k]? := by
  induction n generalizing pos serialTypes bodyPos col k with
  | zero => cases h
  | succ n ih =>
    obtain ⟨hpos, rfl⟩ | ⟨serialType, len, rest, hpos, hvarint, hover, hrest, rfl⟩ := decodeSerialTypes_succ h
    · rw [decodeSingleLoop, if_neg hpos, columnsFrom]
      rfl
    · rw [decodeSingleLoop, if_pos hpos, hvarint]
      dsimp only [bind, Except.bind]
      rw [if_neg hover]
      cases k with
      | zero => rw [if_pos (Nat.add_zero col).symm, columnsFrom, List.getElem?_cons_zero]
      | succ k =>
        rw [if_neg (by omega), show col + (k + 1) = col + 1 + k by omega, ih hrest, columnsFrom,
          List.getElem?_cons_succ]

end

/-! ## Where the bodies are -/

section
variable {payload : Bytes} {encoding : TextEncoding}

theorem serialTypeLen_ge (h : 12 ≤ n) : serialTypeLen n = if n % 2 = 0 then (n - 12) / 2 else (n - 13) / 2 := by
  obtain ⟨m, rfl⟩ : ∃ m, n = m + 12 := ⟨n - 12, by omega⟩
  rfl

theorem decodeInteger_len {k len : Nat} {value : Value} (h : decodeInteger payload pos k = .ok (value, len)) :
    len = k := by
  obtain ⟨b, -, h⟩ := bind_eq_ok_iff.1 h
  cases h
  rfl

/-- The bytes that a body takes are those its serial type declares. -/
theorem decodeSerialValue_len {serialType len : Nat} {value : Value}
    (h : decodeSerialValue serialType payload pos encoding = .ok (value, len)) : len = serialTypeLen serialType := by
  obtain hlt | hge := Nat.lt_or_ge serialType 12
  · unfold decodeSerialValue at h
    split at h
    case h_1 | h_9 | h_10 | h_11 | h_12 => cases h; rfl
    case h_2 | h_3 | h_4 | h_5 | h_6 | h_7 => exact decodeInteger_len h
    case h_8 =>
      obtain ⟨b, -, h⟩ := bind_eq_ok_iff.1 h
      dsimp only at h
      split at h <;> cases h <;> rfl
    case h_13 =>
      exfalso
      grind
  · rw [decodeSerialValue_ge hge] at h
    rw [serialTypeLen_ge hge]
    by_cases heven : serialType % 2 = 0
    · rw [if_pos heven] at h ⊢
      obtain ⟨b, -, h⟩ := bind_eq_ok_iff.1 h
      cases h
      rfl
    · rw [if_neg heven] at h ⊢
      obtain ⟨b, -, h⟩ := bind_eq_ok_iff.1 h
      obtain ⟨s, -, h⟩ := bind_eq_ok_iff.1 h
      cases h
      rfl

/-- The bodies that are read one after the other are at the table's offsets,
as long as the last one ends at a position there is. -/
theorem decodeBodies_columns {bodyPos stop : Nat} {values : List Value}
    (h : decodeBodies payload encoding serialTypes bodyPos = .ok (values, stop)) (hstop : stop < 2 ^ 64) :
    bodyPos ≤ stop ∧ List.Forall₂ (fun entry value => entryValue payload encoding (some entry) = .ok value)
      (columnsFrom bodyPos serialTypes) values := by
  induction serialTypes generalizing bodyPos values with
  | nil =>
    cases h
    exact ⟨Nat.le_refl _, .nil⟩
  | cons serialType serialTypes ih =>
    obtain ⟨⟨value, len⟩, hvalue, h⟩ := bind_eq_ok_iff.1 h
    obtain ⟨⟨rest, stop'⟩, hrest, h⟩ := bind_eq_ok_iff.1 h
    cases h
    obtain ⟨hle, hall⟩ := ih hrest
    have hpos : saturatingAdd bodyPos (serialTypeLen serialType) = bodyPos + len := by
      rw [saturatingAdd, decodeSerialValue_len hvalue]
      rw [decodeSerialValue_len hvalue] at hle
      omega
    refine ⟨by omega, .cons ?_ ?_⟩
    · rw [entryValue, hvalue]
      rfl
    · rw [hpos]
      exact hall

end

/-! ## Agreement -/

theorem mapM_ok {α β ε : Type} {f : α → Except ε β} {l : List α} {bs : List β}
    (h : List.Forall₂ (fun a b => f a = .ok b) l bs) : l.mapM f = .ok bs := by
  induction h with
  | nil => rfl
  | cons hb _ ih =>
    rw [List.mapM_cons, hb, ih]
    rfl

/-- A record that is accepted has a table of columns, from which all of its
values are read. -/
structure Tabled (payload : Bytes) (encoding : TextEncoding) (entries : List (Nat × Nat)) (values : List Value) : Prop where
  parsed : ∀ scratch, parseHeaderInto payload scratch = .ok entries
  single : ∀ idx, decodeSingleColumn payload idx encoding = entryValue payload encoding entries[idx]?
  bodies : List.Forall₂ (fun entry value => entryValue payload encoding (some entry) = .ok value) entries values

theorem decodeRecord_tabled {payload : Bytes} {encoding : TextEncoding} {values : List Value}
    (h : decodeRecord payload encoding = .ok values) (hlen : payload.length < 2 ^ 64) :
    ∃ entries, Tabled payload encoding entries values := by
  obtain ⟨⟨headerLen, n⟩, hstart, h⟩ := bind_eq_ok_iff.1 h
  dsimp only at h
  split at h
  · cases h
  rename_i hshort
  obtain ⟨serialTypes, hserial, h⟩ := bind_eq_ok_iff.1 h
  obtain ⟨⟨values', stop⟩, hbodies, h⟩ := bind_eq_ok_iff.1 h
  dsimp only at h
  split at h
  · cases h
  rename_i hstop
  cases h
  rw [Decidable.not_not] at hstop
  have hheader : headerStart payload = .ok (headerLen, n) := by
    rw [headerStart, hstart]
    exact if_neg hshort
  refine ⟨columnsFrom headerLen serialTypes, fun scratch => ?_, fun idx => ?_, ?_⟩
  · rw [parseHeaderInto, hheader]
    exact parseHeaderLoop_eq hserial headerLen []
  · rw [decodeSingleColumn, hheader]
    have hloop : decodeSingleLoop payload (0 + idx) encoding headerLen (payload.length + 1) n headerLen 0 =
        entryValue payload encoding (columnsFrom headerLen serialTypes)[idx]? :=
      decodeSingleLoop_eq hserial headerLen 0 idx
    rwa [Nat.zero_add] at hloop
  · exact (decodeBodies_columns hbodies (hstop ▸ hlen)).2

namespace Tabled
variable {payload : Bytes} {encoding : TextEncoding} {entries : List (Nat × Nat)} {values : List Value}

theorem entryValue_get (h : Tabled payload encoding entries values) (idx : Nat) :
    entryValue payload encoding entries[idx]? = .ok (values.getD idx .null) := by
  have hbodies := h.bodies
  clear h
  induction hbodies generalizing idx with
  | nil => rfl
  | cons hvalue _ ih =>
    cases idx with
    | zero => exact hvalue
    | succ idx => exact ih idx

theorem length_eq (h : Tabled payload encoding entries values) : entries.length = values.length := h.bodies.length_eq

theorem decodeColumn_eq (h : Tabled payload encoding entries values) (idx : Nat) :
    decodeColumn payload idx encoding = .ok (values.getD idx .null) := by
  rw [decodeColumn, parseHeader, h.parsed]
  exact h.entryValue_get idx

theorem recordColumnCount_eq (h : Tabled payload encoding entries values) :
    recordColumnCount payload = .ok values.length := by
  rw [recordColumnCount, parseHeader, h.parsed, ← h.length_eq]
  rfl

theorem decodeRecordUptoInto_eq (h : Tabled payload encoding entries values) (maxColumns : Nat)
    (scratch : List (Nat × Nat)) :
    decodeRecordUptoInto payload maxColumns encoding scratch = .ok (values.take maxColumns) := by
  rw [decodeRecordUptoInto, h.parsed]
  dsimp only [bind, Except.bind]
  have hmin : values.take maxColumns = values.take (min maxColumns values.length) := List.take_eq_take_min
  rw [hmin, h.length_eq]
  exact mapM_ok (List.forall₂_take _ h.bodies)

theorem decodeRecordOnlyInto_eq (h : Tabled payload encoding entries values) (wanted : List Nat)
    (scratch : List (Nat × Nat)) :
    decodeRecordOnlyInto payload wanted encoding scratch = .ok (wanted.map (values.getD · .null)) := by
  unfold decodeRecordOnlyInto
  split
  · rw [h.single, h.entryValue_get]
    rfl
  · rw [h.parsed]
    refine mapM_ok (List.forall₂_map_right_iff.mpr (List.forall₂_same.mpr ?_))
    exact fun idx _ => h.entryValue_get idx

end Tabled

/-- On a record that `decode_record` accepts, the decoders of some of its
columns read what it reads there, and `NULL` past the end. -/
theorem partial_decoders_agree {payload : Bytes} {encoding : TextEncoding} {values : List Value}
    (h : decodeRecord payload encoding = .ok values) (hlen : payload.length < 2 ^ 64) :
    recordColumnCount payload = .ok values.length ∧
      (∀ idx, decodeColumn payload idx encoding = .ok (values.getD idx .null)) ∧
      (∀ maxColumns, decodeRecordUpto payload maxColumns encoding = .ok (values.take maxColumns)) ∧
      (∀ maxColumns scratch,
        decodeRecordUptoInto payload maxColumns encoding scratch = .ok (values.take maxColumns)) ∧
      ∀ wanted scratch,
        decodeRecordOnlyInto payload wanted encoding scratch = .ok (wanted.map (values.getD · .null)) := by
  obtain ⟨entries, htab⟩ := decodeRecord_tabled h hlen
  exact ⟨htab.recordColumnCount_eq, htab.decodeColumn_eq, fun n => htab.decodeRecordUptoInto_eq n [],
    htab.decodeRecordUptoInto_eq, htab.decodeRecordOnlyInto_eq⟩

/-- A reserved type, an empty text, a long varint and a blob. -/
theorem reserved_types_agree :
    decodeRecordOnlyInto [6, 10, 13, 0x80, 0x10, 1, 7, 9, 200] [4, 3, 3, 1] .utf8 [] =
      .ok [.null, .integer (-56), .integer (-56), .text []] := by
  have h : decodeRecord [6, 10, 13, 0x80, 0x10, 1, 7, 9, 200] .utf8 =
      .ok [.null, .text [], .blob [7, 9], .integer (-56)] := by decide
  exact (partial_decoders_agree h (by decide)).2.2.2.2 _ _

end DbStorage.Record
