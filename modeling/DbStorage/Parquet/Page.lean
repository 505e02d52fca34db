import DbStorage.Parquet.Footer
import DbStorage.Parquet.ThriftCodec

/-!
# Page headers (`parquet/page.rs`)

A page starts with a `PageHeader` in the compact protocol. `Wire` says which
bytes a writer may use for a struct of the kinds of fields page headers and
their statistics have, in ascending order of their ids: a part of `Encodes`.

Result: `decodePageHeader_wire` (a header so written is read back, with the
number of its bytes, whatever follows it).
-/
namespace DbStorage.Parquet
open Bytes

/-- mirrors page.rs:39-59 -/
inductive Encoding where
  | plain
  | plainDictionary
  | rle
  | deltaBinaryPacked
  | rleDictionary
  | other (v : Int32)
  deriving DecidableEq

def Encoding.ofI32 (v : Int32) : Encoding :=
  if v = 0 then .plain
  else if v = 2 then .plainDictionary
  else if v = 3 then .rle
  else if v = 5 then .deltaBinaryPacked
  else if v = 8 then .rleDictionary
  else .other v

structure DataPageHeader where
  numValues : Int32
  encoding : Encoding
  definitionLevelEncoding : Encoding
  repetitionLevelEncoding : Encoding
  deriving DecidableEq

structure DictionaryPageHeader where
  numValues : Int32
  encoding : Encoding
  deriving DecidableEq

inductive PageType where
  | data (h : DataPageHeader)
  | dictionary (h : DictionaryPageHeader)
  deriving DecidableEq

structure PageHeader where
  uncompressedPageSize : Int32
  compressedPageSize : Int32
  pageType : PageType
  deriving DecidableEq

/-- `panicked` stands for an overflow in the decoder. -/
inductive PageError where
  | thrift (h : Halt)
  | unsupportedPageType (t : Int32)
  | missingDataPageHeader
  | panicked
  deriving DecidableEq

/-- `.field(id).and_then(Value::as_i32).unwrap_or(d)` -/
def Value.i32Or (v : Value) (id : Int16) (d : Int32) : Int32 := ((v.field id).bind Value.asI32).getD d

def Value.encodingAt (v : Value) (id : Int16) : Encoding :=
  (((v.field id).bind Value.asI32).map Encoding.ofI32).getD (.other (-1))

/-- The header in the fields of the struct.
mirrors page.rs:97-146 -/
def pageHeaderOf (root : Value) : Except PageError PageHeader :=
  let pageType := root.i32Or 1 (-1)
  let make := fun t => PageHeader.mk (root.i32Or 2 0) (root.i32Or 3 0) t
  if pageType = 0 then
    match root.field 5 with
    | none => .error .missingDataPageHeader
    | some dph => .ok (make (.data ⟨dph.i32Or 1 0, dph.encodingAt 2, dph.encodingAt 3, dph.encodingAt 4⟩))
  else if pageType = 2 then
    match root.field 7 with
    | none => .error .missingDataPageHeader
    | some dph => .ok (make (.dictionary ⟨dph.i32Or 1 0, dph.encodingAt 2⟩))
  else .error (.unsupportedPageType pageType)

/-- The header and the bytes behind it.
mirrors page.rs:94-146 -/
def decodePageHeader (Z : Layout) (buf : Bytes) : Except PageError (PageHeader × Bytes) :=
  let (r, s) := decodeStruct Z buf
  if s.log.any Event.panics then .error .panicked
  else
    match r with
    | .error h => .error (.thrift h)
    | .ok fields => (pageHeaderOf (.struct fields)).map (·, s.rest)

variable {Z : Layout} {bytes : Bytes} {item : Item}

/-- A header takes a byte at least. -/
theorem decodePageHeader_shorter {buf rest : Bytes} {header : PageHeader}
    (h : decodePageHeader Z buf = .ok (header, rest)) : rest.length < buf.length := by
  have heats := (enough Z (2 * buf.length + 2)).fields 0 ⟨buf, []⟩ (Nat.le_refl _)
  unfold Eats at heats
  rcases hr : Action.exec (readFields Z (2 * buf.length + 2) 0) ⟨buf, []⟩ with ⟨e | fields, s⟩
  · simp only [decodePageHeader, decodeStruct, hr] at h
    split at h <;> nomatch h
  · rw [hr] at heats
    simp only [decodePageHeader, decodeStruct, hr] at h
    split at h
    · nomatch h
    · cases hp : pageHeaderOf (.struct fields) with
      | error e => simp [hp, Except.map] at h
      | ok header' =>
        simp only [hp, Except.map, Except.ok.injEq, Prod.mk.injEq] at h
        rw [← h.2]
        exact heats

/-! ## What is written -/

inductive Item where
  | value (code : UInt8) (v : Value)
  | fields (last : Int16) (fs : List (Int16 × Value))

inductive Wire : Item → Bytes → Prop
  | true : Wire (.value 1 (.bool true)) []
  | false : Wire (.value 2 (.bool false)) []
  | i32 (v : Int32) (bytes : Bytes) (h : Varint (zigzag v.toInt) bytes) : Wire (.value 5 (.i32 v)) bytes
  | i64 (v : Int64) (bytes : Bytes) (h : Varint (zigzag v.toInt) bytes) : Wire (.value 6 (.i64 v)) bytes
  | binary (b len : Bytes) (h : Varint b.length len) : Wire (.value 8 (.binary b)) (len ++ b)
  | struct (fs : List (Int16 × Value)) (bytes : Bytes) (h : Wire (.fields 0 fs) bytes) :
      Wire (.value 12 (.struct fs)) bytes
  | stop (last : Int16) : Wire (.fields last []) [0]
  /-- The id is given as the difference to the last one. -/
  | field (last : Int16) (delta code : UInt8) (v : Value) (fs : List (Int16 × Value)) (vbytes bytes : Bytes)
      (hd : 0 < delta.toNat ∧ delta.toNat < 16) (hc : code.toNat < 16) (hid : last.toInt + delta.toNat < 2 ^ 15)
      (hv : Wire (.value code v) vbytes) (h : Wire (.fields (last + Int16.ofNat delta.toNat) fs) bytes) :
      Wire (.fields last ((last + Int16.ofNat delta.toNat, v) :: fs)) ((delta <<< 4 ||| code) :: (vbytes ++ bytes))

/-! ## Reading it -/

/-- What reading an item gives. -/
def ReadsBack (Z : Layout) (f : Nat) (bytes rest : Bytes) (log : List Event) : Item → Prop
  | .value code v => ∃ log', Quiet log' ∧
      Action.exec (readValue Z f (CType.ofNibble code) (CType.ofNibble code).boolValue) ⟨bytes ++ rest, log⟩ =
        (.ok v, ⟨rest, log'⟩)
  | .fields last fs => ∃ log', Quiet log' ∧
      Action.exec (readFields Z f last) ⟨bytes ++ rest, log⟩ = (.ok fs, ⟨rest, log'⟩)

def Item.fuel : Item → Nat
  | .value _ _ => 1
  | .fields _ _ => 0

/-- A page header is a struct of the protocol. -/
def Item.piece : Item → Piece
  | .value code v => .value true (CType.ofNibble code) v
  | .fields last fs => .fields last fs

theorem Wire.code_eq {code : UInt8} {v : Value} (h : Wire (.value code v) bytes) :
    (CType.ofNibble code).code = code := by
  cases h <;> rfl

theorem Wire.encodes (h : Wire item bytes) : Encodes item.piece bytes := by
  induction h with
  | true => exact .fieldTrue
  | false => exact .fieldFalse
  | i32 v bytes h => exact .i32 _ v bytes h
  | i64 v bytes h => exact .i64 _ v bytes h
  | binary b len h => exact .binary _ b len h
  | struct fs bytes h ih => exact .struct _ fs bytes ih
  | stop last => exact .stop last
  | field last delta code v fs vbytes bytes hd hc hid hv h ihv ih =>
    have hhead := FieldHeader.short (t := CType.ofNibble code) delta hd hid
    rw [hv.code_eq] at hhead
    exact .field last _ _ v fs _ vbytes bytes hhead ihv ih

/-- It has no lists and maps, so nothing is reserved for it. -/
theorem Wire.held (h : Wire item bytes) : item.piece.Held Z := by
  induction h with
  | stop last => exact nofun
  | field last delta code v fs vbytes bytes hd hc hid hv h ihv ih =>
    intro p hp
    obtain rfl | hp := List.mem_cons.1 hp
    · exact ihv
    · exact ih p hp
  | struct fs bytes h ih =>
    refine ⟨fun vs hp => ?_, fun kvs hp => ?_⟩
    · cases hp with
      | field id v _ hv hp => exact (ih (id, v) hv).list vs hp
    · cases hp with
      | field id v _ hv hp => exact (ih (id, v) hv).map kvs hp
  | _ => exact ⟨fun _ hp => (nomatch hp), fun _ hp => (nomatch hp)⟩

/-- What the protocol's rules give for page headers. -/
theorem Wire.readsBack (h : Wire item bytes) {f : Nat} (rest : Bytes) {log : List Event}
    (hf : 2 * bytes.length + item.fuel ≤ f) (hlog : Quiet log) : ReadsBack Z f bytes rest log item := by
  cases item with
  | value code v =>
    obtain ⟨log', hread, hq⟩ := h.encodes.reads (Z := Z) hf rest log
    exact ⟨log', hq h.held hlog, hread⟩
  | fields last fs =>
    obtain ⟨log', hread, hq⟩ := h.encodes.reads (Z := Z) hf rest log
    exact ⟨log', hq h.held hlog, hread⟩

/-- **A page header is read back**, whatever follows it. -/
theorem decodePageHeader_wire {fs : List (Int16 × Value)} {header : PageHeader} (h : Wire (.fields 0 fs) bytes)
    (hh : pageHeaderOf (.struct fs) = .ok header) (rest : Bytes) :
    decodePageHeader Z (bytes ++ rest) = .ok (header, rest) := by
  have hempty : Quiet [] := nofun
  obtain ⟨log, hlog, hread⟩ := h.readsBack (Z := Z) (f := 2 * (bytes ++ rest).length + 2) rest
    (by simp [Item.fuel]; omega) hempty
  have hquiet : log.any Event.panics = false := by
    rw [List.any_eq_false]
    intro e he
    rw [hlog e he]
    exact Bool.false_ne_true
  simp only [decodePageHeader, decodeStruct, hread, hquiet, hh]
  rfl

end DbStorage.Parquet
