import DbStorage.Core.Action
import DbStorage.Core.Bytes

/-!
# Thrift compact protocol (`parquet/thrift.rs`)

The decoder of the footer's metadata. Its arithmetic, index and capacity
operations are logged with their operands: `Event.panics` says when one
panics in an overflow-checked build. The program stops at the first event that
panics; what the model computes behind it does not happen.

`fuel` bounds the recursion. Result: `decodeStruct_fuel` (fuel for twice the
bytes is enough, so the decoder returns a value or an error).

Left out: the depth of the native stack, and the value of a `double` beyond
its bytes.
-/
namespace DbStorage.Parquet
open Bytes

inductive ThriftError where
  | unexpectedEof
  | invalidVarint
  | unknownType (t : UInt8)
  deriving DecidableEq

/-- mirrors thrift.rs:46-58 -/
inductive Value where
  | bool (b : Bool)
  | byte (v : Int8)
  | i16 (v : Int16)
  | i32 (v : Int32)
  | i64 (v : Int64)
  | double (bytes : Bytes)
  | binary (bytes : Bytes)
  | list (items : List Value)
  | map (items : List (Value × Value))
  | struct (fields : List (Int16 × Value))

/-! ## What can panic, and what reserves memory -/

inductive Event where
  /-- `Vec::with_capacity(count)` of elements of `size` bytes. -/
  | reserve (count size : Nat)
  | addI16 (a : Int16) (d : UInt8)
  | addUsize (a b : Nat)
  | index (i len : Nat)
  deriving DecidableEq

def Event.panics : Event → Bool
  | .reserve count size => 2 ^ 63 ≤ count * size
  | .addI16 a d => 2 ^ 15 ≤ a.toInt + d.toNat
  | .addUsize a b => 2 ^ 64 ≤ a + b
  | .index i len => len ≤ i

/-- The sizes in bytes of a `Value`, of a pair of them and of a `SchemaNode`. -/
structure Layout where
  value : Nat
  pair : Nat
  node : Nat
  node_pos : 0 < node := by decide

/-! ## The decoder -/

/-- mirrors thrift.rs:118-121 -/
structure Decoder where
  rest : Bytes
  log : List Event

inductive Halt where
  | error (e : ThriftError)
  | outOfFuel
  deriving DecidableEq

abbrev Decode := Action Decoder Halt

def fail {α : Type} (e : ThriftError) : Decode α := throw (.error e)

def emit (e : Event) : Decode Unit := Action.ofFn fun s => (.ok (), { s with log := s.log ++ [e] })

/-- mirrors thrift.rs:132-136 -/
def readByte : Decode UInt8 := Action.ofFn fun s =>
  match s.rest with
  | [] => (.error (.error .unexpectedEof), s)
  | b :: rest => (.ok b, { s with rest := rest })

/-- mirrors thrift.rs:138-146 -/
def readBytes (n : Nat) : Decode Bytes := Action.ofFn fun s =>
  if n ≤ s.rest.length then (.ok (s.rest.take n), { s with rest := s.rest.drop n })
  else (.error (.error .unexpectedEof), s)

/-- `n` more bytes may follow; `shift` is at most 63.
mirrors thrift.rs:148-164 -/
def readVarintFrom : Nat → Nat → UInt64 → Decode UInt64
  | 0, _, _ => fail .invalidVarint
  | n + 1, shift, result => do
    let b ← readByte
    let result := result ||| ((b &&& 0x7f).toUInt64 <<< UInt64.ofNat shift)
    if b &&& 0x80 = 0 then pure result else readVarintFrom n (shift + 7) result

def readVarint : Decode UInt64 := readVarintFrom 10 0 0

/-- mirrors thrift.rs:166-169 -/
def readZigzagI32 : Decode Int32 := do
  let v ← readVarint
  let v := v.toUInt32
  pure ((v >>> 1).toInt32 ^^^ -(v &&& 1).toInt32)

/-- mirrors thrift.rs:171-174 -/
def readZigzagI64 : Decode Int64 := do
  let v ← readVarint
  pure ((v >>> 1).toInt64 ^^^ -(v &&& 1).toInt64)

/-- mirrors thrift.rs:176-181 -/
def readDouble : Decode Bytes := readBytes 8

/-- mirrors thrift.rs:183-186 -/
def readBinary : Decode Bytes := do
  let len ← readVarint
  readBytes len.toNat

/-- The wire types; `other` has no meaning.
mirrors thrift.rs:8-20 -/
inductive CType where
  | booleanTrue
  | booleanFalse
  | byte
  | i16
  | i32
  | i64
  | double
  | binary
  | list
  | set
  | map
  | struct
  | other (n : UInt8)
  deriving DecidableEq

def CType.ofNibble (n : UInt8) : CType :=
  match n.toNat with
  | 1 => .booleanTrue
  | 2 => .booleanFalse
  | 3 => .byte
  | 4 => .i16
  | 5 => .i32
  | 6 => .i64
  | 7 => .double
  | 8 => .binary
  | 9 => .list
  | 10 => .set
  | 11 => .map
  | 12 => .struct
  | _ => .other n

/-- mirrors thrift.rs:277-284 -/
def decodeElementType (nibble : UInt8) : Decode CType :=
  match CType.ofNibble nibble with
  | .booleanFalse => fail (.unknownType nibble)
  | .other _ => fail (.unknownType nibble)
  | t => pure t

/-- mirrors thrift.rs:260-264 -/
def CType.boolValue : CType → Option Bool
  | .booleanTrue => some true
  | .booleanFalse => some false
  | _ => none

/-- mirrors thrift.rs:213-219 -/
def readSize (nibble : UInt8) : Decode UInt64 :=
  if nibble = 15 then readVarint else pure nibble.toUInt64

/-- mirrors thrift.rs:253-257 -/
def fieldId (last : Int16) (delta : UInt8) : Decode Int16 :=
  if delta = 0 then do
    let v ← readZigzagI32
    pure v.toInt16
  else do
    emit (.addI16 last delta)
    pure (last + Int16.ofNat delta.toNat)

/-- `items` reads that many elements of a type.
mirrors thrift.rs:213-225 -/
def readList (Z : Layout) (items : CType → Nat → Decode (List Value)) : Decode Value := do
  let header ← readByte
  let elemType ← decodeElementType (header &&& 0x0f)
  let size ← readSize (header >>> 4)
  emit (.reserve size.toNat Z.value)
  let items ← items elemType size.toNat
  pure (.list items)

/-- mirrors thrift.rs:227-243 -/
def readMap (Z : Layout) (pairs : CType → CType → Nat → Decode (List (Value × Value))) : Decode Value := do
  let size ← readVarint
  if size = 0 then pure (.map [])
  else do
    let types ← readByte
    let keyType ← decodeElementType (types >>> 4)
    let valType ← decodeElementType (types &&& 0x0f)
    emit (.reserve size.toNat Z.pair)
    let items ← pairs keyType valType size.toNat
    pure (.map items)

mutual

/-- mirrors thrift.rs:193-211 -/
def readValue (Z : Layout) : Nat → CType → Option Bool → Decode Value
  | 0, _, _ => throw .outOfFuel
  | f + 1, t, boolValue =>
    match t with
    | .booleanTrue =>
      match boolValue with
      | some v => pure (.bool v)
      | none => do
        let b ← readByte
        pure (.bool (b == 1))
    | .booleanFalse => pure (.bool (boolValue.getD false))
    | .byte => do
      let b ← readByte
      pure (.byte b.toInt8)
    | .i16 => do
      let v ← readZigzagI32
      pure (.i16 v.toInt16)
    | .i32 => do
      let v ← readZigzagI32
      pure (.i32 v)
    | .i64 => do
      let v ← readZigzagI64
      pure (.i64 v)
    | .double => do
      let b ← readDouble
      pure (.double b)
    | .binary => do
      let b ← readBinary
      pure (.binary b)
    | .list | .set => readList Z (readItems Z f)
    | .map => readMap Z (readPairs Z f)
    | .struct => do
      let fields ← readFields Z f 0
      pure (.struct fields)
    | .other n => fail (.unknownType n)

/-- The loop of `read_list`. -/
def readItems (Z : Layout) : Nat → CType → Nat → Decode (List Value)
  | _, _, 0 => pure []
  | 0, _, _ + 1 => throw .outOfFuel
  | f + 1, t, n + 1 => do
    let v ← readValue Z f t none
    let vs ← readItems Z f t n
    pure (v :: vs)

/-- The loop of `read_map`. -/
def readPairs (Z : Layout) : Nat → CType → CType → Nat → Decode (List (Value × Value))
  | _, _, _, 0 => pure []
  | 0, _, _, _ + 1 => throw .outOfFuel
  | f + 1, t, u, n + 1 => do
    let k ← readValue Z f t none
    let v ← readValue Z f u none
    let vs ← readPairs Z f t u n
    pure ((k, v) :: vs)

/-- The loop of `read_struct`.
mirrors thrift.rs:245-272 -/
def readFields (Z : Layout) : Nat → Int16 → Decode (List (Int16 × Value))
  | 0, _ => throw .outOfFuel
  | f + 1, lastFieldId => do
    let header ← readByte
    if header = 0 then pure []
    else do
      let t := CType.ofNibble (header &&& 0x0f)
      let id ← fieldId lastFieldId (header >>> 4)
      let value ← readValue Z f t t.boolValue
      let fields ← readFields Z f id
      pure ((id, value) :: fields)

end

/-- mirrors thrift.rs:288-292 -/
def decodeStruct (Z : Layout) (buf : Bytes) : Except Halt (List (Int16 × Value)) × Decoder :=
  Action.exec (readFields Z (2 * buf.length + 2) 0) ⟨buf, []⟩

/-! ## Enough fuel -/

/-- `x` does not run out of fuel at `s`, and where it succeeds it consumes at
least `n` bytes. -/
def Eats {α : Type} (n : Nat) (x : Decode α) (s : Decoder) : Prop :=
  match Action.exec x s with
  | (.ok _, s') => s'.rest.length + n ≤ s.rest.length
  | (.error h, _) => h ≠ .outOfFuel

section Eats
variable {α β : Type} {s : Decoder} {m n : Nat}

theorem Eats.pure (a : α) : Eats 0 (Pure.pure a) s := Nat.le_refl _

theorem Eats.fail (e : ThriftError) : Eats n (fail e : Decode α) s := Halt.noConfusion

theorem Eats.mono {x : Decode α} (h : Eats m x s) (hn : n ≤ m) : Eats n x s := by
  unfold Eats at h ⊢
  split
  · rename_i hx
    rw [hx] at h
    simp only at h
    omega
  · rename_i hx
    rw [hx] at h
    exact h

theorem Eats.bind {x : Decode α} {f : α → Decode β} (hx : Eats m x s)
    (hf : ∀ a s', Action.exec x s = (.ok a, s') → s'.rest.length + m ≤ s.rest.length → Eats n (f a) s') :
    Eats (m + n) (x >>= f) s := by
  unfold Eats at hx ⊢
  rw [Action.exec_bind]
  rcases hr : Action.exec x s with ⟨e | a, s'⟩
  · rw [hr] at hx
    exact hx
  · rw [hr] at hx
    have h := hf a s' hr hx
    unfold Eats at h
    simp only at hx ⊢
    split
    · rename_i hfa
      rw [hfa] at h
      simp only at h
      omega
    · rename_i hfa
      rw [hfa] at h
      exact h

theorem Eats.map {x : Decode α} (h : Eats n x s) (f : α → β) : Eats n (x >>= fun a => Pure.pure (f a)) s :=
  (h.bind fun a _ _ _ => .pure (f a)).mono (Nat.le_refl _)

theorem eats_emit (e : Event) : Eats 0 (emit e) s := Nat.le_refl _

theorem eats_readByte : Eats 1 readByte s := by
  unfold Eats readByte
  simp only [Action.exec_ofFn]
  cases hs : s.rest with
  | nil => exact Halt.noConfusion
  | cons b rest => simp

theorem eats_readBytes (k : Nat) : Eats k (readBytes k) s := by
  unfold Eats readBytes
  by_cases hk : k ≤ s.rest.length
  · simp only [Action.exec_ofFn, if_pos hk, List.length_drop]
    omega
  · simp only [Action.exec_ofFn, if_neg hk]
    exact Halt.noConfusion

theorem eats_readVarintFrom (k shift : Nat) (result : UInt64) (s : Decoder) :
    Eats 1 (readVarintFrom k shift result) s := by
  induction k generalizing shift result s with
  | zero => exact .fail _
  | succ k ih =>
    refine (eats_readByte.bind (n := 0) fun b s' _ _ => ?_).mono (Nat.le_refl _)
    simp only
    split
    · exact .pure _
    · exact (ih ..).mono (Nat.zero_le _)

theorem eats_readVarint : Eats 1 readVarint s := eats_readVarintFrom ..

theorem eats_readZigzagI32 : Eats 1 readZigzagI32 s := eats_readVarint.map _

theorem eats_readSize (nibble : UInt8) : Eats 0 (readSize nibble) s := by
  unfold readSize
  split
  · exact eats_readVarint.mono (Nat.zero_le _)
  · exact .pure _

theorem eats_fieldId (last : Int16) (delta : UInt8) : Eats 0 (fieldId last delta) s := by
  unfold fieldId
  split
  · exact (eats_readZigzagI32.map _).mono (Nat.zero_le _)
  · exact (eats_emit _).bind fun _ _ _ _ => .pure _

theorem eats_decodeElementType (nibble : UInt8) : Eats 0 (decodeElementType nibble) s := by
  unfold decodeElementType
  split
  · exact .fail _
  · exact .fail _
  · exact .pure _

/-- An element of a collection is never of the type without a byte. -/
theorem decodeElementType_ok {nibble : UInt8} {t : CType} {s' : Decoder}
    (h : Action.exec (decodeElementType nibble) s = (.ok t, s')) : t ≠ .booleanFalse := by
  unfold decodeElementType at h
  split at h
  · cases h
  · cases h
  · rename_i hne _
    cases h
    exact hne

end Eats

/-- The bytes a value has at least: a boolean field has none of its own. -/
def CType.minBytes : CType → Option Bool → Nat
  | .booleanTrue, some _ => 0
  | .booleanFalse, _ => 0
  | _, _ => 1

/-- The recursion of `fuel` steps is deep enough for the bytes that are left. -/
structure Enough (Z : Layout) (f : Nat) : Prop where
  value : ∀ t b s, 2 * s.rest.length + 3 ≤ f → Eats (t.minBytes b) (readValue Z f t b) s
  items : ∀ t n s, t ≠ .booleanFalse → 2 * s.rest.length + 4 ≤ f → Eats 0 (readItems Z f t n) s
  pairs : ∀ t u n s, t ≠ .booleanFalse → u ≠ .booleanFalse → 2 * s.rest.length + 4 ≤ f →
    Eats 0 (readPairs Z f t u n) s
  fields : ∀ id s, 2 * s.rest.length + 2 ≤ f → Eats 1 (readFields Z f id) s

section Fuel
variable {Z : Layout} {f : Nat} {s : Decoder}

theorem Enough.element (h : Enough Z f) {t : CType} (ht : t ≠ .booleanFalse) (hf : 2 * s.rest.length + 3 ≤ f) :
    Eats 1 (readValue Z f t none) s := by
  have := h.value t none s hf
  cases t with
  | booleanFalse => exact absurd rfl ht
  | _ => exact this

theorem Enough.list (h : Enough Z f) (hf : 2 * s.rest.length + 3 ≤ f + 1) :
    Eats 1 (readList Z (readItems Z f)) s := by
  refine (eats_readByte.bind (n := 0) fun header s₁ _ h₁ => ?_)
  refine (eats_decodeElementType _).bind (n := 0) fun t s₂ ht h₂ => ?_
  refine (eats_readSize _).bind (n := 0) fun size s₃ _ h₃ => ?_
  refine (eats_emit _).bind (n := 0) fun _ s₄ _ h₄ => ?_
  exact (h.items t size.toNat s₄ (decodeElementType_ok ht) (by omega)).map _

theorem Enough.map (h : Enough Z f) (hf : 2 * s.rest.length + 3 ≤ f + 1) :
    Eats 1 (readMap Z (readPairs Z f)) s := by
  refine (eats_readVarint.bind (n := 0) fun size s₁ _ h₁ => ?_)
  split
  · exact .pure _
  · refine (eats_readByte.bind (n := 0) fun types s₂ _ h₂ => ?_).mono (Nat.zero_le _)
    refine (eats_decodeElementType _).bind (n := 0) fun t s₃ ht h₃ => ?_
    refine (eats_decodeElementType _).bind (n := 0) fun u s₄ hu h₄ => ?_
    refine (eats_emit _).bind (n := 0) fun _ s₅ _ h₅ => ?_
    exact (h.pairs t u size.toNat s₅ (decodeElementType_ok ht) (decodeElementType_ok hu) (by omega)).map _

theorem Enough.succ (h : Enough Z f) : Enough Z (f + 1) where
  value t b s hf := by
    unfold readValue
    cases t with
    | booleanTrue =>
      cases b with
      | some v => exact .pure _
      | none => exact eats_readByte.map _
    | booleanFalse => exact .pure _
    | byte => exact eats_readByte.map _
    | i16 => exact eats_readZigzagI32.map _
    | i32 => exact eats_readZigzagI32.map _
    | i64 => exact (eats_readVarint.map _).map _
    | double =>
      have hd : Eats 1 readDouble s := (eats_readBytes 8).mono (by decide)
      exact hd.map _
    | binary =>
      have hb : Eats 1 readBinary s :=
        eats_readVarint.bind (n := 0) fun len _ _ _ => (eats_readBytes len.toNat).mono (Nat.zero_le _)
      exact hb.map _
    | list => exact h.list hf
    | set => exact h.list hf
    | map => exact h.map hf
    | struct => exact (h.fields 0 s (by omega)).map _
    | other n => exact .fail _
  items t n s ht hf := by
    cases n with
    | zero => exact .pure _
    | succ n =>
      refine ((h.element ht (by omega)).bind (n := 0) fun v s₁ _ h₁ => ?_).mono (Nat.zero_le _)
      exact (h.items t n s₁ ht (by omega)).map _
  pairs t u n s ht hu hf := by
    cases n with
    | zero => exact .pure _
    | succ n =>
      refine ((h.element ht (by omega)).bind (n := 0) fun k s₁ _ h₁ => ?_).mono (Nat.zero_le _)
      refine ((h.element hu (by omega)).bind (n := 0) fun v s₂ _ h₂ => ?_).mono (Nat.zero_le _)
      exact (h.pairs t u n s₂ ht hu (by omega)).map _
  fields id s hf := by
    unfold readFields
    refine eats_readByte.bind (n := 0) fun header s₁ _ h₁ => ?_
    split
    · exact .pure _
    · refine (eats_fieldId _ _).bind (n := 0) fun id' s₂ _ h₂ => ?_
      refine ((h.value _ _ s₂ (by omega)).mono (Nat.zero_le _)).bind (n := 0) fun v s₃ _ h₃ => ?_
      exact ((h.fields id' s₃ (by omega)).map _).mono (Nat.zero_le _)

theorem enough (Z : Layout) (f : Nat) : Enough Z f := by
  induction f with
  | zero =>
    refine ⟨fun _ _ _ h => ?_, fun _ _ _ _ h => ?_, fun _ _ _ _ _ _ h => ?_, fun _ _ h => ?_⟩ <;> omega
  | succ f ih => exact ih.succ

/-- The decoder never runs out of fuel. -/
theorem decodeStruct_fuel (Z : Layout) (buf : Bytes) : (decodeStruct Z buf).1 ≠ .error .outOfFuel := by
  have h := (enough Z (2 * buf.length + 2)).fields 0 ⟨buf, []⟩ (Nat.le_refl _)
  unfold Eats at h
  unfold decodeStruct
  intro herr
  rcases hr : Action.exec (readFields Z (2 * buf.length + 2) 0) ⟨buf, []⟩ with ⟨e | fields, s'⟩
  · rw [hr] at h herr
    cases herr
    exact h rfl
  · rw [hr] at herr
    cases herr

end Fuel

end DbStorage.Parquet
