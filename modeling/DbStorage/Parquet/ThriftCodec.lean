import DbStorage.Parquet.Hybrid
import DbStorage.Parquet.Thrift

/-!
# What the compact protocol writes (`parquet/thrift.rs`)

`Encodes` has the rules of the protocol for every kind of value: a boolean
field is its type, a boolean element a byte; a field's id is a difference to
the last one or a number of its own; a list states its size in four bits or
behind its header; a set is a list of another type; an empty map is one byte.

Result: `decode_struct_returns` (a struct written by these rules is read
back, whatever follows it, with the number of its bytes). The decoder's
vectors are those of the value: it panics for no value that fits in memory.
-/
namespace DbStorage.Parquet
open Bytes List

/-! ## The rules -/

/-- mirrors thrift.rs:8-20 -/
def CType.code : CType → UInt8
  | .booleanTrue => 1
  | .booleanFalse => 2
  | .byte => 3
  | .i16 => 4
  | .i32 => 5
  | .i64 => 6
  | .double => 7
  | .binary => 8
  | .list => 9
  | .set => 10
  | .map => 11
  | .struct => 12
  | .other n => n

/-- Collections have one type for booleans. -/
def CType.IsElement : CType → Prop
  | .booleanFalse => False
  | .other _ => False
  | _ => True

/-- The header of a list or set of `n` elements. -/
inductive ListHeader (t : CType) (n : Nat) : Bytes → Prop
  | short (h : n < 15) : ListHeader t n [UInt8.ofNat n <<< 4 ||| t.code]
  | long (size : Bytes) (h : Varint n size) : ListHeader t n (((15 : UInt8) <<< 4 ||| t.code) :: size)

/-- The header of the field `id` behind the field `last`. -/
inductive FieldHeader (t : CType) (last : Int16) : Int16 → Bytes → Prop
  | short (delta : UInt8) (hd : 0 < delta.toNat ∧ delta.toNat < 16) (hid : last.toInt + delta.toNat < 2 ^ 15) :
      FieldHeader t last (last + Int16.ofNat delta.toNat) [delta <<< 4 ||| t.code]
  | long (id : Int16) (bytes : Bytes) (h : Varint (zigzag id.toInt) bytes) : FieldHeader t last id (t.code :: bytes)

/-- What is written: a value as a field or as an element, the elements of a
list or map, the fields of a struct behind the id of the last one. -/
inductive Piece where
  | value (isField : Bool) (t : CType) (v : Value)
  | items (t : CType) (vs : List Value)
  | pairs (t u : CType) (kvs : List (Value × Value))
  | fields (last : Int16) (fs : List (Int16 × Value))

inductive Encodes : Piece → Bytes → Prop
  | fieldTrue : Encodes (.value true .booleanTrue (.bool true)) []
  | fieldFalse : Encodes (.value true .booleanFalse (.bool false)) []
  | elementTrue : Encodes (.value false .booleanTrue (.bool true)) [1]
  | elementFalse (b : UInt8) (hb : b = 0 ∨ b = 2) : Encodes (.value false .booleanTrue (.bool false)) [b]
  | byte (f : Bool) (b : UInt8) : Encodes (.value f .byte (.byte b.toInt8)) [b]
  | i16 (f : Bool) (v : Int16) (bytes : Bytes) (h : Varint (zigzag v.toInt) bytes) : Encodes (.value f .i16 (.i16 v)) bytes
  | i32 (f : Bool) (v : Int32) (bytes : Bytes) (h : Varint (zigzag v.toInt) bytes) : Encodes (.value f .i32 (.i32 v)) bytes
  | i64 (f : Bool) (v : Int64) (bytes : Bytes) (h : Varint (zigzag v.toInt) bytes) : Encodes (.value f .i64 (.i64 v)) bytes
  | double (f : Bool) (bytes : Bytes) (h : bytes.length = 8) : Encodes (.value f .double (.double bytes)) bytes
  | binary (f : Bool) (b len : Bytes) (h : Varint b.length len) : Encodes (.value f .binary (.binary b)) (len ++ b)
  | list (f : Bool) (t : CType) (vs : List Value) (head bytes : Bytes) (ht : t.IsElement)
      (hh : ListHeader t vs.length head) (h : Encodes (.items t vs) bytes) :
      Encodes (.value f .list (.list vs)) (head ++ bytes)
  | set (f : Bool) (t : CType) (vs : List Value) (head bytes : Bytes) (ht : t.IsElement)
      (hh : ListHeader t vs.length head) (h : Encodes (.items t vs) bytes) :
      Encodes (.value f .set (.list vs)) (head ++ bytes)
  | emptyMap (f : Bool) (bytes : Bytes) (h : Varint 0 bytes) : Encodes (.value f .map (.map [])) bytes
  | map (f : Bool) (t u : CType) (kvs : List (Value × Value)) (size bytes : Bytes) (ht : t.IsElement) (hu : u.IsElement)
      (hne : kvs ≠ []) (hs : Varint kvs.length size) (h : Encodes (.pairs t u kvs) bytes) :
      Encodes (.value f .map (.map kvs)) (size ++ (t.code <<< 4 ||| u.code) :: bytes)
  | struct (f : Bool) (fs : List (Int16 × Value)) (bytes : Bytes) (h : Encodes (.fields 0 fs) bytes) :
      Encodes (.value f .struct (.struct fs)) bytes
  | noItems (t : CType) : Encodes (.items t []) []
  | item (t : CType) (v : Value) (vs : List Value) (vbytes bytes : Bytes) (hv : Encodes (.value false t v) vbytes)
      (h : Encodes (.items t vs) bytes) : Encodes (.items t (v :: vs)) (vbytes ++ bytes)
  | noPairs (t u : CType) : Encodes (.pairs t u []) []
  | pair (t u : CType) (k v : Value) (kvs : List (Value × Value)) (kbytes vbytes bytes : Bytes)
      (hk : Encodes (.value false t k) kbytes) (hv : Encodes (.value false u v) vbytes)
      (h : Encodes (.pairs t u kvs) bytes) : Encodes (.pairs t u ((k, v) :: kvs)) (kbytes ++ (vbytes ++ bytes))
  | stop (last : Int16) : Encodes (.fields last []) [0]
  | field (last id : Int16) (t : CType) (v : Value) (fs : List (Int16 × Value)) (head vbytes bytes : Bytes)
      (hh : FieldHeader t last id head) (hv : Encodes (.value true t v) vbytes) (h : Encodes (.fields id fs) bytes) :
      Encodes (.fields last ((id, v) :: fs)) (head ++ (vbytes ++ bytes))

/-! ## Values in memory -/

/-- `u` is somewhere in `v`. -/
inductive Part (u : Value) : Value → Prop
  | self : Part u u
  | item (v : Value) (vs : List Value) (hv : v ∈ vs) (h : Part u v) : Part u (.list vs)
  | key (k v : Value) (kvs : List (Value × Value)) (hk : (k, v) ∈ kvs) (h : Part u k) : Part u (.map kvs)
  | mapped (k v : Value) (kvs : List (Value × Value)) (hk : (k, v) ∈ kvs) (h : Part u v) : Part u (.map kvs)
  | field (id : Int16) (v : Value) (fs : List (Int16 × Value)) (hv : (id, v) ∈ fs) (h : Part u v) : Part u (.struct fs)

/-- The lists and maps in a value are vectors of at most `isize::MAX` bytes. -/
structure Held (Z : Layout) (v : Value) : Prop where
  list : ∀ vs, Part (.list vs) v → vs.length * Z.value < 2 ^ 63
  map : ∀ kvs, Part (.map kvs) v → kvs.length * Z.pair < 2 ^ 63

variable {v : Value} {t : CType} {last : Int16} {head : Bytes}

theorem Held.part {Z : Layout} {w : Value} (h : Held Z w) (hp : ∀ u, Part u v → Part u w) : Held Z v :=
  ⟨fun vs hv => h.list vs (hp _ hv), fun kvs hv => h.map kvs (hp _ hv)⟩

/-- Everything in a piece is. -/
def Piece.Held (Z : Layout) : Piece → Prop
  | .value _ _ v => Parquet.Held Z v
  | .items _ vs => ∀ v ∈ vs, Parquet.Held Z v
  | .pairs _ _ kvs => ∀ p ∈ kvs, Parquet.Held Z p.1 ∧ Parquet.Held Z p.2
  | .fields _ fs => ∀ p ∈ fs, Parquet.Held Z p.2

/-! ## Reading it -/

theorem exec_readByte (b : UInt8) (rest : Bytes) (log : List Event) :
    Action.exec readByte ⟨b :: rest, log⟩ = (.ok b, ⟨rest, log⟩) := rfl

/-- The decoder of the metadata reads varints as `encoding.rs` does. -/
theorem exec_readVarintFrom {n s : Nat} {r x : UInt64} {bytes rest : Bytes}
    (h : readUnsignedVarintFrom n s r bytes = .ok (x, rest)) (log : List Event) :
    Action.exec (readVarintFrom n s r) ⟨bytes, log⟩ = (.ok x, ⟨rest, log⟩) := by
  induction n generalizing s r bytes with
  | zero => cases h
  | succ n ih =>
    cases bytes with
    | nil => cases h
    | cons b bytes =>
      rw [readUnsignedVarintFrom] at h
      rw [readVarintFrom, Action.exec_bind_ok (exec_readByte b bytes log)]
      simp only at h ⊢
      split at h
      · rename_i hstop
        cases h
        rw [if_pos hstop]
        rfl
      · rename_i hmore
        rw [if_neg hmore]
        exact ih h

theorem exec_readVarint {v : Nat} {bytes : Bytes} (h : Varint v bytes) (rest : Bytes) (log : List Event) :
    ∃ x : UInt64, x.toNat = v ∧ Action.exec readVarint ⟨bytes ++ rest, log⟩ = (.ok x, ⟨rest, log⟩) := by
  obtain ⟨x, hx, hread⟩ := readUnsignedVarint_of h rest
  exact ⟨x, hx, exec_readVarintFrom hread log⟩

theorem exec_readZigzagI32 {v : Int32} {bytes : Bytes} (h : Varint (zigzag v.toInt) bytes) (rest : Bytes)
    (log : List Event) : Action.exec readZigzagI32 ⟨bytes ++ rest, log⟩ = (.ok v, ⟨rest, log⟩) := by
  obtain ⟨x, hx, hread⟩ := exec_readVarint h rest log
  have hlt : zigzag v.toInt < 2 ^ 32 := zigzag_lt v.le_toInt v.toInt_lt
  have hx32 : x.toUInt32.toNat = zigzag v.toInt := by
    rw [UInt64.toNat_toUInt32, hx, Nat.mod_eq_of_lt hlt]
  rw [readZigzagI32, Action.exec_bind_ok hread]
  simp only [zigzag_i32 hx32]
  rfl

theorem exec_readZigzagI64 {v : Int64} {bytes : Bytes} (h : Varint (zigzag v.toInt) bytes) (rest : Bytes)
    (log : List Event) : Action.exec readZigzagI64 ⟨bytes ++ rest, log⟩ = (.ok v, ⟨rest, log⟩) := by
  obtain ⟨x, hx, hread⟩ := exec_readVarint h rest log
  rw [readZigzagI64, Action.exec_bind_ok hread, zigzag_i64 hx]
  rfl

theorem exec_readBinary {b len : Bytes} (h : Varint b.length len) (rest : Bytes) (log : List Event) :
    Action.exec readBinary ⟨len ++ b ++ rest, log⟩ = (.ok b, ⟨rest, log⟩) := by
  rw [append_assoc]
  obtain ⟨x, hx, hread⟩ := exec_readVarint h (b ++ rest) log
  rw [readBinary, Action.exec_bind_ok hread, hx, readBytes, Action.exec_ofFn]
  simp

theorem nibbles (hi lo : UInt8) (hh : hi.toNat < 16) (hl : lo.toNat < 16) :
    (hi <<< 4 ||| lo) &&& 0x0f = lo ∧ (hi <<< 4 ||| lo) >>> 4 = hi := by
  have h : ∀ d c : Fin 16, (UInt8.ofNat d.1 <<< 4 ||| UInt8.ofNat c.1) &&& 0x0f = UInt8.ofNat c.1 ∧
      (UInt8.ofNat d.1 <<< 4 ||| UInt8.ofNat c.1) >>> 4 = UInt8.ofNat d.1 := by
    decide +kernel
  have := h ⟨hi.toNat, hh⟩ ⟨lo.toNat, hl⟩
  simpa only [UInt8.ofNat_toNat] using this

theorem field_byte {delta code : UInt8} (hd : 0 < delta.toNat ∧ delta.toNat < 16) (hc : code.toNat < 16) :
    delta <<< 4 ||| code ≠ 0 ∧ (delta <<< 4 ||| code) &&& 0x0f = code ∧ (delta <<< 4 ||| code) >>> 4 = delta := by
  obtain ⟨hlow, hhigh⟩ := nibbles delta code hd.2 hc
  refine ⟨fun h0 => ?_, hlow, hhigh⟩
  rw [h0] at hhigh
  rw [← hhigh] at hd
  exact absurd hd.1 (by decide)

def Quiet (log : List Event) : Prop := ∀ e ∈ log, e.panics = false

/-- `x` reads exactly `bytes`, whatever follows, and gives `a`; under `P`
nothing it does panics. -/
def ReadsAs {α : Type} (P : Prop) (x : Decode α) (bytes : Bytes) (a : α) : Prop :=
  ∀ rest log, ∃ log', Action.exec x ⟨bytes ++ rest, log⟩ = (.ok a, ⟨rest, log'⟩) ∧ (P → Quiet log → Quiet log')

section ReadsAs
variable {α β : Type} {P : Prop} {x : Decode α} {bytes more : Bytes} {a : α} {b : β}

theorem ReadsAs.pure (a : α) : ReadsAs P (Pure.pure a) [] a := fun _ log => ⟨log, rfl, fun _ h => h⟩

theorem ReadsAs.bind {k : α → Decode β} (hx : ReadsAs P x bytes a) (hk : ReadsAs P (k a) more b) :
    ReadsAs P (x >>= k) (bytes ++ more) b := by
  intro rest log
  obtain ⟨log₁, hread, hq⟩ := hx (more ++ rest) log
  obtain ⟨log₂, hread', hq'⟩ := hk rest log₁
  refine ⟨log₂, ?_, fun hP hlog => hq' hP (hq hP hlog)⟩
  rw [append_assoc, Action.exec_bind_ok hread]
  exact hread'

theorem ReadsAs.map (hx : ReadsAs P x bytes a) (f : α → β) : ReadsAs P (x >>= fun a => Pure.pure (f a)) bytes (f a) := by
  have := hx.bind (k := fun a => Pure.pure (f a)) (.pure (f a))
  rwa [append_nil] at this

theorem ReadsAs.mono {Q : Prop} (hx : ReadsAs P x bytes a) (h : Q → P) : ReadsAs Q x bytes a := by
  intro rest log
  obtain ⟨log', hread, hq⟩ := hx rest log
  exact ⟨log', hread, fun hQ => hq (h hQ)⟩

theorem reads_emit {e : Event} (he : P → e.panics = false) : ReadsAs P (emit e) [] () := by
  refine fun rest log => ⟨log ++ [e], rfl, fun hP hlog e' he' => ?_⟩
  obtain he' | he' := mem_append.1 he'
  · exact hlog e' he'
  · rw [mem_singleton.1 he']
    exact he hP

theorem reads_byte (b : UInt8) : ReadsAs P readByte [b] b := fun _ log => ⟨log, rfl, fun _ h => h⟩

theorem reads_varint {v : Nat} (h : Varint v bytes) : ReadsAs P readVarint bytes (UInt64.ofNat v) := by
  intro rest log
  obtain ⟨y, rfl, hread⟩ := exec_readVarint h rest log
  exact ⟨log, by rw [hread, UInt64.ofNat_toNat], fun _ h => h⟩

theorem reads_zigzagI32 {v : Int32} (h : Varint (zigzag v.toInt) bytes) : ReadsAs P readZigzagI32 bytes v :=
  fun rest log => ⟨log, exec_readZigzagI32 h rest log, fun _ h => h⟩

theorem reads_zigzagI64 {v : Int64} (h : Varint (zigzag v.toInt) bytes) : ReadsAs P readZigzagI64 bytes v :=
  fun rest log => ⟨log, exec_readZigzagI64 h rest log, fun _ h => h⟩

theorem reads_binary {b len : Bytes} (h : Varint b.length len) : ReadsAs P readBinary (len ++ b) b :=
  fun rest log => ⟨log, exec_readBinary h rest log, fun _ h => h⟩

theorem reads_double (h : bytes.length = 8) : ReadsAs P readDouble bytes bytes := by
  intro rest log
  refine ⟨log, ?_, fun _ h => h⟩
  rw [readDouble, readBytes, Action.exec_ofFn]
  simp [h]

/-- An `i16` is read as an `i32`. -/
theorem reads_i16 {v : Int16} (h : Varint (zigzag v.toInt) bytes) (g : Int16 → β) :
    ReadsAs P (readZigzagI32 >>= fun x => Pure.pure (g x.toInt16)) bytes (g v) := by
  have hv : v.toInt32.toInt = v.toInt := Int16.toInt_toInt32 v
  have := (reads_zigzagI32 (P := P) (v := v.toInt32) (by rwa [hv])).map fun x => g x.toInt16
  rwa [Int16.toInt16_toInt32] at this

end ReadsAs

/-! ## Types and headers -/

theorem CType.ofNibble_code (h : ∀ n, t ≠ .other n) : t.code.toNat < 16 ∧ t.code ≠ 0 ∧ CType.ofNibble t.code = t := by
  cases t with
  | other n => exact absurd rfl (h n)
  | _ => decide

theorem CType.IsElement.ne_other (h : t.IsElement) (n : UInt8) : t ≠ .other n := by
  rintro rfl
  exact h

theorem decodeElementType_code (h : t.IsElement) : decodeElementType t.code = pure t := by
  have hne := (CType.ofNibble_code h.ne_other).2.2
  rw [decodeElementType, hne]
  cases t with
  | booleanFalse => exact h.elim
  | other n => exact h.elim
  | _ => rfl

theorem Encodes.ne_other {f : Bool} {bytes : Bytes} (h : Encodes (.value f t v) bytes) (n : UInt8) : t ≠ .other n := by
  rintro rfl
  cases h

variable {fs : List (Int16 × Value)} {vs : List Value} {kvs : List (Value × Value)}

theorem Encodes.fields_pos {bytes : Bytes} (h : Encodes (.fields last fs) bytes) : 0 < bytes.length := by
  cases h with
  | stop => exact Nat.one_pos
  | field _ id t v fs head vbytes bytes hh hv h => cases hh <;> exact Nat.succ_pos _

theorem Encodes.element_pos {bytes : Bytes} (h : Encodes (.value false t v) bytes) : 0 < bytes.length := by
  cases h with
  | elementTrue => decide
  | elementFalse b hb => exact Nat.one_pos
  | byte _ b => exact Nat.one_pos
  | i16 _ v _ h => exact h.1.length_pos
  | i32 _ v _ h => exact h.1.length_pos
  | i64 _ v _ h => exact h.1.length_pos
  | double _ _ h => omega
  | binary _ b len h =>
    have := h.1.length_pos
    rw [length_append]
    omega
  | list _ t vs head bytes ht hh h =>
    cases hh <;> exact Nat.succ_pos _
  | set _ t vs head bytes ht hh h =>
    cases hh <;> exact Nat.succ_pos _
  | emptyMap _ _ h => exact h.1.length_pos
  | map _ t u kvs size bytes ht hu hne hs h =>
    have := hs.1.length_pos
    rw [length_append]
    omega
  | struct _ fs _ h => exact h.fields_pos

/-! ## Collections and structs -/

section Compound
variable {Z : Layout} {P : Prop} {f n : Nat} {bytes : Bytes}

theorem reserve_quiet {count size : Nat} (h : P → count * size < 2 ^ 63) : P → (Event.reserve count size).panics = false :=
  fun hP => decide_eq_false (Nat.not_le.2 (h hP))

/-- The size of a list, in its header or behind it. -/
theorem reads_listHeader {α : Type} (ht : t.IsElement) (hh : ListHeader t n head) {k : CType → UInt64 → Decode α}
    {a : α} (hn : n < 2 ^ 64) (hk : ReadsAs P (k t (UInt64.ofNat n)) bytes a) : ReadsAs P (do
      let header ← readByte
      let elemType ← decodeElementType (header &&& 0x0f)
      let size ← readSize (header >>> 4)
      k elemType size) (head ++ bytes) a := by
  have hcode := (CType.ofNibble_code ht.ne_other).1
  cases hh with
  | short h =>
    have hnat : (UInt8.ofNat n).toNat = n := by
      rw [UInt8.toNat_ofNat']
      omega
    obtain ⟨hlow, hhigh⟩ := nibbles (UInt8.ofNat n) t.code (by omega) hcode
    have hsize : readSize (UInt8.ofNat n) = pure (UInt64.ofNat n) := by
      have hne : UInt8.ofNat n ≠ 15 := by
        intro h15
        rw [h15] at hnat
        exact absurd hnat (by simp; omega)
      have h64 : (UInt8.ofNat n).toUInt64 = UInt64.ofNat n := by
        refine UInt64.toNat_inj.1 ?_
        rw [UInt8.toNat_toUInt64, hnat, UInt64.toNat_ofNat', Nat.mod_eq_of_lt hn]
      rw [readSize, if_neg hne, h64]
    refine (reads_byte _).bind ?_
    rw [hlow, hhigh, decodeElementType_code ht, hsize]
    exact (ReadsAs.pure t).bind ((ReadsAs.pure _).bind hk)
  | long size h =>
    obtain ⟨hlow, hhigh⟩ := nibbles 15 t.code (by decide) hcode
    refine (reads_byte _).bind ?_
    rw [hlow, hhigh, decodeElementType_code ht]
    exact (ReadsAs.pure t).bind ((reads_varint h).bind hk)

theorem reads_list (ht : t.IsElement) (hh : ListHeader t vs.length head) (hn : vs.length < 2 ^ 64)
    (hP : P → vs.length * Z.value < 2 ^ 63) (h : ReadsAs P (readItems Z f t vs.length) bytes vs) :
    ReadsAs P (readList Z (readItems Z f)) (head ++ bytes) (.list vs) := by
  have hnat : (UInt64.ofNat vs.length).toNat = vs.length := by rw [UInt64.toNat_ofNat', Nat.mod_eq_of_lt hn]
  refine reads_listHeader ht hh hn ?_
  rw [hnat]
  exact (reads_emit (reserve_quiet hP)).bind (h.map Value.list)

theorem reads_map {u : CType} {size : Bytes} (ht : t.IsElement) (hu : u.IsElement) (hne : kvs ≠ [])
    (hs : Varint kvs.length size) (hP : P → kvs.length * Z.pair < 2 ^ 63)
    (h : ReadsAs P (readPairs Z f t u kvs.length) bytes kvs) :
    ReadsAs P (readMap Z (readPairs Z f)) (size ++ (t.code <<< 4 ||| u.code) :: bytes) (.map kvs) := by
  have hnat : (UInt64.ofNat kvs.length).toNat = kvs.length := by rw [UInt64.toNat_ofNat', Nat.mod_eq_of_lt hs.2.2]
  have hsize : UInt64.ofNat kvs.length ≠ 0 := by
    intro h0
    rw [h0] at hnat
    exact hne (eq_nil_of_length_eq_zero hnat.symm)
  obtain ⟨hlow, hhigh⟩ := nibbles t.code u.code (CType.ofNibble_code ht.ne_other).1 (CType.ofNibble_code hu.ne_other).1
  refine (reads_varint hs).bind ?_
  rw [if_neg hsize]
  refine (reads_byte _).bind ?_
  rw [hlow, hhigh, decodeElementType_code ht, decodeElementType_code hu, hnat]
  exact (ReadsAs.pure t).bind ((ReadsAs.pure u).bind ((reads_emit (reserve_quiet hP)).bind (h.map Value.map)))

theorem reads_fieldHeader {α : Type} {id : Int16} (ht : ∀ n, t ≠ .other n) (hh : FieldHeader t last id head)
    {k : CType → Int16 → Decode α} {stop : Decode α} {a : α} (hk : ReadsAs P (k t id) bytes a) : ReadsAs P (do
      let header ← readByte
      if header = 0 then stop
      else do
        let t := CType.ofNibble (header &&& 0x0f)
        let id ← fieldId last (header >>> 4)
        k t id) (head ++ bytes) a := by
  obtain ⟨hcode, hne, hof⟩ := CType.ofNibble_code ht
  cases hh with
  | short delta hd hid =>
    obtain ⟨hheader, hlow, hhigh⟩ := field_byte hd hcode
    refine (reads_byte _).bind ?_
    rw [if_neg hheader, hlow, hhigh, hof, fieldId, if_neg]
    · have hevent : (Event.addI16 last delta).panics = false := decide_eq_false (by omega)
      have hid : ReadsAs P (do emit (.addI16 last delta); pure (last + Int16.ofNat delta.toNat)) []
          (last + Int16.ofNat delta.toNat) := (reads_emit fun _ => hevent).bind (ReadsAs.pure _)
      exact hid.bind hk
    · rintro rfl
      exact absurd hd.1 (by decide)
  | long id idBytes h =>
    have hzero : (0 : UInt8) <<< 4 ||| t.code = t.code := UInt8.zero_or
    obtain ⟨hlow, hhigh⟩ := nibbles 0 t.code (by decide) hcode
    rw [hzero] at hlow hhigh
    refine (reads_byte _).bind ?_
    rw [if_neg hne, hlow, hhigh, hof, fieldId, if_pos rfl]
    have hid : ReadsAs P (readZigzagI32 >>= fun x => pure x.toInt16) idBytes id := reads_i16 h fun x => x
    exact hid.bind hk

end Compound

/-! ## Everything -/

/-- A piece is read back from `bytes`, with `f` units of fuel. -/
def Piece.Reads (Z : Layout) (f : Nat) (bytes : Bytes) : Piece → Prop
  | .value isField t v => ReadsAs (Parquet.Held Z v) (readValue Z f t (if isField then t.boolValue else none)) bytes v
  | .items t vs => ReadsAs ((Piece.items t vs).Held Z) (readItems Z f t vs.length) bytes vs
  | .pairs t u kvs => ReadsAs ((Piece.pairs t u kvs).Held Z) (readPairs Z f t u kvs.length) bytes kvs
  | .fields last fs => ReadsAs ((Piece.fields last fs).Held Z) (readFields Z f last) bytes fs

/-- Above two units for each byte: a boolean field has no byte, and a loop
takes one before its first element. -/
def Piece.fuel : Piece → Nat
  | .value _ _ _ => 1
  | .items _ _ => 2
  | .pairs _ _ _ => 2
  | .fields _ _ => 0

theorem ListHeader.lt {n : Nat} (h : ListHeader t n head) : 0 < head.length ∧ n < 2 ^ 64 := by
  cases h with
  | short h => exact ⟨Nat.one_pos, by omega⟩
  | long size h => exact ⟨Nat.succ_pos _, h.2.2⟩

theorem FieldHeader.pos {id : Int16} (h : FieldHeader t last id head) : 0 < head.length := by
  cases h <;> exact Nat.succ_pos _

section Held
variable {Z : Layout}

theorem Held.items (h : Held Z (.list vs)) : ∀ v ∈ vs, Held Z v :=
  fun v hv => h.part fun _ hu => .item v vs hv hu

theorem Held.pairs (h : Held Z (.map kvs)) : ∀ p ∈ kvs, Held Z p.1 ∧ Held Z p.2 :=
  fun p hp => ⟨h.part fun _ hu => .key p.1 p.2 kvs hp hu, h.part fun _ hu => .mapped p.1 p.2 kvs hp hu⟩

theorem Held.fields (h : Held Z (.struct fs)) : ∀ p ∈ fs, Held Z p.2 :=
  fun p hp => h.part fun _ hu => .field p.1 p.2 fs hp hu

end Held

theorem value_fuel {isField : Bool} {n f : Nat} (hf : n + (Piece.value isField t v).fuel ≤ f) :
    ∃ g, f = g + 1 :=
  Nat.exists_eq_succ_of_ne_zero (by simp only [Piece.fuel] at hf; omega)

theorem Encodes.reads {Z : Layout} {piece : Piece} {bytes : Bytes} (h : Encodes piece bytes) {f : Nat}
    (hf : 2 * bytes.length + piece.fuel ≤ f) : piece.Reads Z f bytes := by
  induction h generalizing f with
  | noItems t =>
    cases f <;> exact .pure []
  | noPairs t u =>
    cases f <;> exact .pure []
  | item t v vs vbytes bytes hv h ihv ih =>
    have hpos := hv.element_pos
    simp only [Piece.fuel, length_append] at hf ihv ih
    obtain ⟨f, rfl⟩ : ∃ g, f = g + 1 := Nat.exists_eq_succ_of_ne_zero (by omega)
    have hvalue := (ihv (f := f) (by omega)).mono fun hh : (Piece.items t (v :: vs)).Held Z => hh v mem_cons_self
    have hitems := (ih (f := f) (by omega)).mono fun hh : (Piece.items t (v :: vs)).Held Z =>
      fun u hu => hh u (mem_cons_of_mem _ hu)
    exact hvalue.bind (hitems.map (v :: ·))
  | pair t u k v kvs kbytes vbytes bytes hk hv h ihk ihv ih =>
    have hkpos := hk.element_pos
    have hvpos := hv.element_pos
    simp only [Piece.fuel, length_append] at hf ihk ihv ih
    obtain ⟨f, rfl⟩ : ∃ g, f = g + 1 := Nat.exists_eq_succ_of_ne_zero (by omega)
    have hkey := (ihk (f := f) (by omega)).mono fun hh : (Piece.pairs t u ((k, v) :: kvs)).Held Z =>
      (hh (k, v) mem_cons_self).1
    have hvalue := (ihv (f := f) (by omega)).mono fun hh : (Piece.pairs t u ((k, v) :: kvs)).Held Z =>
      (hh (k, v) mem_cons_self).2
    have hpairs := (ih (f := f) (by omega)).mono fun hh : (Piece.pairs t u ((k, v) :: kvs)).Held Z =>
      fun p hp => hh p (mem_cons_of_mem _ hp)
    exact hkey.bind (hvalue.bind (hpairs.map ((k, v) :: ·)))
  | stop last =>
    obtain ⟨f, rfl⟩ : ∃ g, f = g + 1 := Nat.exists_eq_succ_of_ne_zero (by simp [Piece.fuel] at hf; omega)
    exact fun rest log => ⟨log, rfl, fun _ h => h⟩
  | field last id t v fs head vbytes bytes hh hv h ihv ih =>
    have hpos := hh.pos
    simp only [Piece.fuel, length_append] at hf ihv ih
    obtain ⟨f, rfl⟩ : ∃ g, f = g + 1 := Nat.exists_eq_succ_of_ne_zero (by omega)
    have hvalue := (ihv (f := f) (by omega)).mono fun hh : (Piece.fields last ((id, v) :: fs)).Held Z =>
      hh (id, v) mem_cons_self
    have hfields := (ih (f := f) (by omega)).mono fun hh : (Piece.fields last ((id, v) :: fs)).Held Z =>
      fun p hp => hh p (mem_cons_of_mem _ hp)
    exact reads_fieldHeader (k := fun t id => do
      let value ← readValue Z f t t.boolValue
      let fields ← readFields Z f id
      pure ((id, value) :: fields)) hv.ne_other hh (hvalue.bind (hfields.map ((id, v) :: ·)))
  | fieldTrue =>
    obtain ⟨f, rfl⟩ := value_fuel hf
    exact .pure _
  | fieldFalse =>
    obtain ⟨f, rfl⟩ := value_fuel hf
    exact .pure _
  | elementTrue =>
    obtain ⟨f, rfl⟩ := value_fuel hf
    exact (reads_byte 1).map fun b => Value.bool (b == 1)
  | elementFalse b hb =>
    obtain ⟨f, rfl⟩ := value_fuel hf
    have hread := (reads_byte (P := Parquet.Held Z (.bool false)) b).map fun b => Value.bool (b == 1)
    obtain rfl | rfl := hb <;> exact hread
  | byte isField b =>
    obtain ⟨f, rfl⟩ := value_fuel hf
    exact (reads_byte b).map fun b => Value.byte b.toInt8
  | i16 isField v bytes h =>
    obtain ⟨f, rfl⟩ := value_fuel hf
    exact reads_i16 h Value.i16
  | i32 isField v bytes h =>
    obtain ⟨f, rfl⟩ := value_fuel hf
    exact (reads_zigzagI32 h).map Value.i32
  | i64 isField v bytes h =>
    obtain ⟨f, rfl⟩ := value_fuel hf
    exact (reads_zigzagI64 h).map Value.i64
  | double isField bytes h =>
    obtain ⟨f, rfl⟩ := value_fuel hf
    exact (reads_double h).map Value.double
  | binary isField b len h =>
    obtain ⟨f, rfl⟩ := value_fuel hf
    exact (reads_binary h).map Value.binary
  | list isField t vs head bytes ht hh h ih =>
    have hlt := hh.lt
    simp only [Piece.fuel, length_append] at hf ih
    obtain ⟨f, rfl⟩ : ∃ g, f = g + 1 := Nat.exists_eq_succ_of_ne_zero (by omega)
    exact reads_list ht hh hlt.2 (fun hP => hP.list vs .self) ((ih (f := f) (by omega)).mono Held.items)
  | set isField t vs head bytes ht hh h ih =>
    have hlt := hh.lt
    simp only [Piece.fuel, length_append] at hf ih
    obtain ⟨f, rfl⟩ : ∃ g, f = g + 1 := Nat.exists_eq_succ_of_ne_zero (by omega)
    exact reads_list ht hh hlt.2 (fun hP => hP.list vs .self) ((ih (f := f) (by omega)).mono Held.items)
  | emptyMap isField bytes h =>
    obtain ⟨f, rfl⟩ := value_fuel hf
    intro rest log
    obtain ⟨log', hread, hq⟩ := reads_varint (P := Parquet.Held Z (.map [])) h rest log
    refine ⟨log', ?_, hq⟩
    show Action.exec (readVarint >>= _) _ = _
    rw [Action.exec_bind_ok hread]
    rfl
  | map isField t u kvs size bytes ht hu hne hs h ih =>
    have hpos := hs.1.length_pos
    simp only [Piece.fuel, length_append, length_cons] at hf ih
    obtain ⟨f, rfl⟩ : ∃ g, f = g + 1 := Nat.exists_eq_succ_of_ne_zero (by omega)
    exact reads_map ht hu hne hs (fun hP => hP.map kvs .self) ((ih (f := f) (by omega)).mono Held.pairs)
  | struct isField fs bytes h ih =>
    simp only [Piece.fuel] at hf ih
    obtain ⟨f, rfl⟩ : ∃ g, f = g + 1 := Nat.exists_eq_succ_of_ne_zero (by omega)
    exact ((ih (f := f) (by omega)).mono Held.fields).map Value.struct

/-- mirrors thrift.rs:128-130 -/
def Decoder.position (s : Decoder) (buf : Bytes) : Nat := buf.length - s.rest.length

/-- **A struct is read back** from every encoding of it and whatever follows,
with the number of its bytes. Nothing panics if the value fits in memory. -/
theorem decode_struct_returns (Z : Layout) (fs : List (Int16 × Value)) (bytes rest : Bytes)
    (h : Encodes (.fields 0 fs) bytes) :
    ∃ s, decodeStruct Z (bytes ++ rest) = (.ok fs, s) ∧ s.position (bytes ++ rest) = bytes.length ∧
      (Held Z (.struct fs) → Quiet s.log) := by
  have hread := h.reads (Z := Z) (f := 2 * (bytes ++ rest).length + 2) (by
    simp only [Piece.fuel, length_append]
    omega)
  obtain ⟨log, hexec, hq⟩ := hread rest []
  refine ⟨⟨rest, log⟩, hexec, ?_, fun hheld => hq hheld.fields nofun⟩
  rw [Decoder.position, length_append, Nat.add_sub_cancel]

/-- A boolean field, a list of booleans under a higher id and a map under a
lower one. -/
def mixedFields : List (Int16 × Value) :=
  [(1, .bool true), (100, .list [.bool true, .bool false]), (99, .map [(.i32 (-1), .struct [])])]

def mixedBytes : Bytes := [0x11, 0x09, 0xc8, 0x01, 0x21, 1, 2, 0x0b, 0xc6, 0x01, 1, 0x5c, 1, 0, 0]

theorem mixed_returned : ∃ s, decodeStruct ⟨32, 64, 80, by decide⟩ (mixedBytes ++ [7]) = (.ok mixedFields, s) ∧
    s.position (mixedBytes ++ [7]) = 15 := by
  have hlist : Encodes (.items .booleanTrue [.bool true, .bool false]) [1, 2] :=
    .item _ _ _ [1] [2] .elementTrue (.item _ _ _ [2] [] (.elementFalse 2 (.inr rfl)) (.noItems _))
  have hkey : Varint (zigzag (-1 : Int32).toInt) [1] := ⟨.last 1 (by decide), by decide, by decide⟩
  have hpairs : Encodes (.pairs .i32 .struct [(.i32 (-1), .struct [])]) [1, 0] :=
    .pair _ _ _ _ _ [1] [0] [] (.i32 _ _ _ hkey) (.struct _ _ _ (.stop 0)) (.noPairs _ _)
  have h100 : Varint (zigzag (100 : Int16).toInt) [0xc8, 0x01] :=
    ⟨.more 72 1 [1] (by decide) (.last 1 (by decide)), by decide, by decide⟩
  have h99 : Varint (zigzag (99 : Int16).toInt) [0xc6, 0x01] :=
    ⟨.more 70 1 [1] (by decide) (.last 1 (by decide)), by decide, by decide⟩
  have hone : Varint 1 [1] := ⟨.last 1 (by decide), by decide, by decide⟩
  have hmap : Encodes (.value true .map (.map [(.i32 (-1), .struct [])])) [1, 0x5c, 1, 0] :=
    .map _ .i32 .struct _ [1] [1, 0] trivial trivial (cons_ne_nil _ _) hone hpairs
  have hlists : Encodes (.value true .list (.list [.bool true, .bool false])) [0x21, 1, 2] :=
    .list _ .booleanTrue _ [0x21] [1, 2] trivial (.short (by decide)) hlist
  have h3 : Encodes (.fields 100 [(99, .map [(.i32 (-1), .struct [])])]) [0x0b, 0xc6, 0x01, 1, 0x5c, 1, 0, 0] :=
    .field _ _ _ _ _ [0x0b, 0xc6, 0x01] [1, 0x5c, 1, 0] [0] (.long _ _ h99) hmap (.stop _)
  have h2 := Encodes.field 1 _ _ _ _ _ _ _ (.long 100 _ h100) hlists h3
  have h1 : Encodes (.fields 0 mixedFields) mixedBytes :=
    .field 0 1 .booleanTrue _ _ [0x11] [] _ (.short 1 (by decide) (by decide)) .fieldTrue h2
  obtain ⟨s, hs, hpos, -⟩ := decode_struct_returns ⟨32, 64, 80, by decide⟩ mixedFields mixedBytes [7] h1
  exact ⟨s, hs, hpos⟩

end DbStorage.Parquet
