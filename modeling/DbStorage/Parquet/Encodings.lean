import DbStorage.Parquet.DictionaryIndices

/-!
# Encodings that are not implemented (`parquet_file.rs` in `src/column/parquet`)

The page loop asks of an encoding only whether it is one of the two with a
dictionary, and the reader of a type whether it is DELTA_BINARY_PACKED (for
INT64). A page in any other encoding, which is to be rejected, goes the way
of a PLAIN one.

So all depends on whether the bytes of such a page happen to begin with as
many PLAIN values as it has (`BeginsPlain`: for numbers only a matter of
their length). Results: `unimplemented_rejected_iff` (no values are returned
if they do not; and if all other pages are valid, an error is returned only
then) and `delta_read_as_plain`.
-/
namespace DbStorage.Parquet
open Bytes Record List
open PageWalk (bind_eq_ok_iff mapError_eq_ok_iff)

/-- The encodings a reader of the type knows. -/
def ColumnType.Implements (t : ColumnType) (e : Encoding) : Prop :=
  e = .plain ∨ e = .plainDictionary ∨ e = .rleDictionary ∨ (t = .int64 ∧ e = .deltaBinaryPacked)

/-- The bytes begin with `k` values of the type, written PLAIN. -/
def ColumnType.BeginsPlain : ColumnType → Nat → Bytes → Prop
  | .int64, k, bytes => 8 * k ≤ bytes.length
  | .double, k, bytes => 8 * k ≤ bytes.length
  | .int32, k, bytes => 4 * k ≤ bytes.length
  | .boolean, k, bytes => k ≤ 8 * bytes.length
  | .string, k, bytes => ∃ ss : List (List Char), ss.length = k ∧ (∀ s ∈ ss, (encodeUtf8 s).length < 2 ^ 32) ∧
      ∃ rest, bytes = ss.flatMap plainString ++ rest
  | .fixedLenByteArray n, k, bytes => n * k ≤ bytes.length

/-- The body of a page with `k` values in an encoding that is not
implemented: levels as a writer may choose them, and any bytes. -/
structure ForeignBody (t : ColumnType) (optional : Bool) (h : DataPageHeader) (body : Bytes) (k : Nat) (values : Bytes) :
    Prop where
  foreign : ¬t.Implements h.encoding
  layout : ∃ (slots : List (Option Unit)) (lb : Bytes), h.numValues.toInt = slots.length ∧ (present slots).length = k ∧
    LevelBytes optional slots lb ∧ body = lb ++ values

/-- A data page of the bytes, with its body. -/
inductive DataPageIn (H : Host) (codec : Codec) (h : DataPageHeader) (body : Bytes) : Bytes → Prop
  | first {buf more : Bytes} {header : PageHeader} :
      PageAt H codec buf header body more → header.pageType = .data h → DataPageIn H codec h body buf
  | later {buf more body' : Bytes} {header : PageHeader} :
      PageAt H codec buf header body' more → DataPageIn H codec h body more → DataPageIn H codec h body buf

structure ForeignPage (t : ColumnType) (optional : Bool) (k : Nat) (values bytes : Bytes) where
  fs : List (Int16 × Value)
  header : PageHeader
  page : DataPageHeader
  headerBytes : Bytes
  body : Bytes
  wire : Wire (.fields 0 fs) headerBytes
  header_eq : pageHeaderOf (.struct fs) = .ok header
  isData : header.pageType = .data page
  size : header.compressedPageSize.toInt = body.length
  foreign : ForeignBody t optional page body k values
  bytes_eq : bytes = headerBytes ++ body

/-- Data pages that are valid or in an encoding that is not implemented; of
the latter the number of values and their bytes are listed. -/
inductive MixedPages (t : ColumnType) (optional : Bool) (dictionary : Option (List t.Val)) :
    List (Nat × Bytes) → Bytes → Prop
  | nil : MixedPages t optional dictionary [] []
  | valid {ps : List (Nat × Bytes)} {col : List (Option t.Val)} {bytes more : Bytes}
      (p : DataPage t optional dictionary col bytes) (h : MixedPages t optional dictionary ps more) :
      MixedPages t optional dictionary ps (bytes ++ more)
  | foreign {ps : List (Nat × Bytes)} {k : Nat} {values bytes more : Bytes} (p : ForeignPage t optional k values bytes)
      (h : MixedPages t optional dictionary ps more) : MixedPages t optional dictionary ((k, values) :: ps) (bytes ++ more)

inductive MixedChunk (t : ColumnType) (optional : Bool) : List (Nat × Bytes) → Bytes → Prop
  | plain {ps : List (Nat × Bytes)} {bytes : Bytes} (h : MixedPages t optional none ps bytes) : MixedChunk t optional ps bytes
  | dictionary {ps : List (Nat × Bytes)} {bytes headerBytes : Bytes} (fs : List (Int16 × Value)) (header : PageHeader)
      (page : DictionaryPageHeader) (dict : List t.Val) (wire : Wire (.fields 0 fs) headerBytes)
      (header_eq : pageHeaderOf (.struct fs) = .ok header) (isDict : header.pageType = .dictionary page)
      (numValues : page.numValues.toInt = dict.length)
      (size : header.compressedPageSize.toInt = (t.plainBytes dict).length) (fits : ∀ v ∈ dict, t.Fits v)
      (h : MixedPages t optional (some dict) ps bytes) :
      MixedChunk t optional ps (headerBytes ++ (t.plainBytes dict ++ bytes))

/-! ## PLAIN values -/

theorem exists_of_map_eq_ok {ε α β : Type} {x : Except ε α} {f : α → β} {b : β} (h : x.map f = .ok b) :
    ∃ a, x = .ok a := by
  cases x with
  | error e => cases h
  | ok a => exact ⟨a, rfl⟩

theorem eq_error_of_map {ε α β : Type} {x : Except ε α} {f : α → β} {e : ε} (h : x.map f = .error e) : x = .error e := by
  cases x with
  | error e' =>
    cases h
    rfl
  | ok a => cases h

section Supplies
variable {σ α : Type} {read : σ → Read (α × σ)}

/-- The loop over the slots succeeds if the reader gives a value for each
slot that has one. -/
theorem exists_assemble_iff {slots : List Bool} {s : σ} :
    (∃ col, assemble read slots s = .ok col) ↔ ∃ vs, vs.length = (slots.filter id).length ∧ Supplies read vs s := by
  constructor
  · rintro ⟨col, h⟩
    induction slots generalizing s col with
    | nil => exact ⟨[], rfl, .nil s⟩
    | cons p slots ih =>
      cases p with
      | false =>
        obtain ⟨col', h'⟩ := exists_of_map_eq_ok h
        exact ih _ h'
      | true =>
        rw [assemble] at h
        split at h
        · cases h
        · rename_i a s' hread
          obtain ⟨col', h'⟩ := exists_of_map_eq_ok h
          obtain ⟨vs, hlen, hs⟩ := ih _ h'
          exact ⟨a :: vs, by simp [hlen], .cons hread hs⟩
  · rintro ⟨vs, hlen, hs⟩
    induction slots generalizing s vs with
    | nil => exact ⟨[], rfl⟩
    | cons p slots ih =>
      cases p with
      | false =>
        obtain ⟨col, hcol⟩ := ih _ hlen hs
        exact ⟨none :: col, by rw [assemble, hcol]; rfl⟩
      | true =>
        cases hs with
        | nil => cases hlen
        | cons hread hs =>
          obtain ⟨col, hcol⟩ := ih _ (Nat.succ.inj hlen) hs
          exact ⟨_ :: col, by rw [assemble, hread]; simp only [hcol]; rfl⟩

/-- A failure of the loop is one of the reader. -/
theorem assemble_error {slots : List Bool} {s : σ} {e : ReadError} (h : assemble read slots s = .error e) :
    ∃ s', read s' = .error e := by
  induction slots generalizing s with
  | nil => cases h
  | cons p slots ih =>
    cases p with
    | false =>
      exact ih (eq_error_of_map h)
    | true =>
      rw [assemble] at h
      split at h
      · rename_i e' hread
        cases h
        exact ⟨s, hread⟩
      · exact ih (eq_error_of_map h)

/-- A reader of `n` bytes at a time. -/
theorem supplies_iff_length {read : Bytes → Read (α × Bytes)} {n k : Nat} {bytes : Bytes}
    (hread : ∀ bytes, (∃ a, read bytes = .ok (a, bytes.drop n)) ∧ n ≤ bytes.length ∨
      (∃ e, read bytes = .error e) ∧ bytes.length < n) :
    (∃ vs, vs.length = k ∧ Supplies read vs bytes) ↔ n * k ≤ bytes.length := by
  induction k generalizing bytes with
  | zero => exact ⟨fun _ => by omega, fun _ => ⟨[], rfl, .nil _⟩⟩
  | succ k ih =>
    have hsucc : n * (k + 1) = n * k + n := Nat.mul_succ n k
    constructor
    · rintro ⟨_ | ⟨a, vs⟩, hlen, hs⟩
      · cases hlen
      · cases hs with
        | cons hok hs =>
          obtain ⟨⟨a', ha⟩, hn⟩ | ⟨⟨e, he⟩, -⟩ := hread bytes
          · rw [hok] at ha
            cases ha
            have hrest := ih.1 ⟨vs, Nat.succ.inj hlen, hs⟩
            rw [length_drop] at hrest
            omega
          · rw [hok] at he
            cases he
    · intro hle
      obtain ⟨⟨a, ha⟩, hn⟩ | ⟨-, hn⟩ := hread bytes
      · obtain ⟨vs, hlen, hs⟩ := ih.2 (by rw [length_drop]; omega : n * k ≤ (bytes.drop n).length)
        exact ⟨a :: vs, by rw [length_cons, hlen], .cons ha hs⟩
      · have := Nat.zero_le (n * k)
        omega

end Supplies

theorem take_cases (n : Nat) {α : Type} (f : Bytes × Bytes → α × Bytes) (hf : ∀ p, (f p).2 = p.2) (bytes : Bytes) :
    (∃ a, (take n bytes).map f = .ok (a, bytes.drop n)) ∧ n ≤ bytes.length ∨
      (∃ e, (take n bytes).map f = .error e) ∧ bytes.length < n := by
  unfold take
  split
  · exact .inr ⟨⟨_, rfl⟩, by omega⟩
  · refine .inl ⟨⟨(f (bytes.take n, bytes.drop n)).1, ?_⟩, by omega⟩
    exact congrArg Except.ok (Prod.ext rfl (hf _))

theorem supplies_readBit_iff {values : Bytes} {k pos : Nat} :
    (∃ vs, vs.length = k ∧ Supplies (readBit values) vs pos) ↔ k = 0 ∨ pos + k ≤ 8 * values.length := by
  induction k generalizing pos with
  | zero => exact ⟨fun _ => .inl rfl, fun _ => ⟨[], rfl, .nil _⟩⟩
  | succ k ih =>
    constructor
    · rintro ⟨_ | ⟨a, vs⟩, hlen, hs⟩
      · cases hlen
      · cases hs with
        | cons hok hs =>
          have hrest := ih.1 ⟨vs, Nat.succ.inj hlen, hs⟩
          unfold readBit at hok
          split at hok
          · cases hok
            omega
          · cases hok
    · intro hle
      have hlt : pos / 8 < values.length := by omega
      obtain ⟨vs, hlen, hs⟩ := ih.2 (by omega : k = 0 ∨ pos + 1 + k ≤ 8 * values.length)
      exact ⟨_ :: vs, by rw [length_cons, hlen], .cons (if_pos hlt) hs⟩

/-- What is accepted as UTF-8 is the encoding of the text. -/
theorem eq_encodeUtf8 {bytes : Bytes} {s : List Char} (h : decodeUtf8 bytes = .ok s) : bytes = encodeUtf8 s := by
  unfold decodeUtf8 at h
  split at h
  · rename_i cs hcs
    cases h
    have hsome : bytes.toByteArray.utf8Decode?.isSome := by rw [hcs]; rfl
    have hencode := @ByteArray.utf8Encode_get_utf8Decode? bytes.toByteArray hsome
    simp only [hcs, Option.get_some] at hencode
    rw [List.utf8Encode] at hencode
    have hlist := congrArg (fun b => b.data.toList) hencode
    simp only [data_toByteArray] at hlist
    rw [encodeUtf8, hlist]
  · cases h

theorem take_eq_ok {n : Nat} {bytes b rest : Bytes} (h : take n bytes = .ok (b, rest)) : bytes = b ++ rest ∧ b.length = n := by
  unfold take at h
  split at h
  · cases h
  · cases h
    exact ⟨(take_append_drop n bytes).symm, by rw [length_take]; omega⟩

theorem readPlainString_eq_ok {bytes rest : Bytes} {s : List Char} (h : readPlainString bytes = .ok (s, rest)) :
    bytes = plainString s ++ rest ∧ (encodeUtf8 s).length < 2 ^ 32 := by
  obtain ⟨⟨len, rest'⟩, hlen, hbody⟩ := bind_eq_ok_iff.1 h
  obtain ⟨⟨b, rest''⟩, hb, htext⟩ := bind_eq_ok_iff.1 hbody
  obtain ⟨rfl, hfour⟩ := take_eq_ok hlen
  obtain ⟨rfl, hsize⟩ := take_eq_ok hb
  dsimp only at htext
  split at htext
  · cases htext
  · rename_i s' hs
    cases htext
    have hlt := leNat_lt len
    rw [hfour] at hlt
    obtain rfl := eq_encodeUtf8 hs
    rw [plainString, hsize, ← hfour, leBytes_leNat, append_assoc]
    exact ⟨rfl, hlt⟩

theorem supplies_readPlainString_iff {k : Nat} {bytes : Bytes} :
    (∃ ss, ss.length = k ∧ Supplies readPlainString ss bytes) ↔ ColumnType.string.BeginsPlain k bytes := by
  constructor
  · rintro ⟨ss, hlen, hs⟩
    refine ⟨ss, hlen, ?_⟩
    clear hlen
    induction hs with
    | nil s => exact ⟨nofun, s, rfl⟩
    | cons hread hs ih =>
      obtain ⟨rfl, hfits⟩ := readPlainString_eq_ok hread
      obtain ⟨hall, rest, rfl⟩ := ih
      exact ⟨forall_mem_cons.2 ⟨hfits, hall⟩, rest, by rw [flatMap_cons, append_assoc]⟩
  · rintro ⟨ss, hlen, hfits, rest, rfl⟩
    exact ⟨ss, hlen, supplies_flatMap_append (fun s hs rest => readPlainString_plain (hfits s hs) rest) rest⟩

theorem ColumnType.supplies_iff (t : ColumnType) {k : Nat} {values : Bytes} :
    (∃ vs, vs.length = k ∧ Supplies (t.readPlain values) vs (t.start values)) ↔ t.BeginsPlain k values := by
  cases t with
  | int64 => exact supplies_iff_length (take_cases 8 _ fun _ => rfl)
  | double => exact supplies_iff_length (take_cases 8 _ fun _ => rfl)
  | int32 => exact supplies_iff_length (take_cases 4 _ fun _ => rfl)
  | boolean =>
    refine (@supplies_readBit_iff values k 0).trans ?_
    show _ ↔ k ≤ 8 * values.length
    omega
  | string => exact supplies_readPlainString_iff
  | fixedLenByteArray n =>
    refine supplies_iff_length fun bytes => ?_
    show (∃ a, take n bytes = .ok (a, bytes.drop n)) ∧ _ ∨ (∃ e, take n bytes = .error e) ∧ _
    unfold take
    split
    · exact .inr ⟨⟨_, rfl⟩, by omega⟩
    · exact .inl ⟨⟨_, rfl⟩, by omega⟩

theorem take_ne_panicked (n : Nat) (bytes : Bytes) : take n bytes ≠ .error .panicked := by
  unfold take
  split <;> exact nofun

theorem ColumnType.readPlain_ne_panicked (t : ColumnType) (values : Bytes) (s : t.Cursor) :
    t.readPlain values s ≠ .error .panicked := by
  have hmap : ∀ {α : Type} (n : Nat) (bytes : Bytes) (f : Bytes × Bytes → α), (take n bytes).map f ≠ .error .panicked := by
    exact fun n bytes f h => take_ne_panicked n bytes (eq_error_of_map h)
  cases t with
  | int64 => exact hmap 8 s _
  | double => exact hmap 8 s _
  | int32 => exact hmap 4 s _
  | boolean =>
    show readBit values s ≠ _
    unfold readBit
    split <;> exact nofun
  | string =>
    intro h
    change readPlainString s = _ at h
    unfold readPlainString at h
    cases hlen : take 4 s with
    | error e => rw [hlen] at h; cases h; exact take_ne_panicked _ _ hlen
    | ok r =>
      cases hb : take (leNat r.1) r.2 with
      | error e =>
        simp only [hlen, hb, bind, Except.bind] at h
        cases h
        exact take_ne_panicked _ _ hb
      | ok r' =>
        simp only [hlen, hb, bind, Except.bind] at h
        split at h <;> cases h
  | fixedLenByteArray n => exact take_ne_panicked n s

/-! ## One page -/

/-- No test is made for the encodings that are left. -/
theorem readDataPage_unimplemented {t : ColumnType} (maxDef : Nat) (body : Bytes) {h : DataPageHeader}
    (dictionary : Option (List t.Val)) (he : ¬t.Implements h.encoding) :
    readDataPage t maxDef body h dictionary = (readPlainColumn t body h maxDef).mapError .read := by
  have hdict : ¬(h.encoding = .plainDictionary ∨ h.encoding = .rleDictionary) := by
    rintro (hd | hd)
    · exact he (.inr (.inl hd))
    · exact he (.inr (.inr (.inl hd)))
  unfold readDataPage
  rw [if_neg hdict]
  congr 1
  cases t with
  | int64 =>
    exact ColumnType.decodePlain_eq .int64 body maxDef fun hd => he (.inr (.inr (.inr ⟨rfl, hd⟩)))
  | double => rfl
  | int32 => rfl
  | boolean => rfl
  | string => rfl
  | fixedLenByteArray n => rfl

section Page
variable {t : ColumnType} {optional : Bool} {h : DataPageHeader} {body values : Bytes} {k : Nat}

/-- The page is read as PLAIN if its bytes allow it. -/
theorem ForeignBody.readPlainColumn (hp : ForeignBody t optional h body k values) :
    (t.BeginsPlain k values → ∃ col, Parquet.readPlainColumn t body h (maxDefOf optional) = .ok col) ∧
      (¬t.BeginsPlain k values →
        ∃ e, e ≠ .panicked ∧ Parquet.readPlainColumn t body h (maxDefOf optional) = .error e) := by
  obtain ⟨-, slots, lb, hn, rfl, hl, rfl⟩ := hp
  rw [← t.supplies_iff]
  unfold Parquet.readPlainColumn
  by_cases hzero : h.numValues = 0
  · rw [numValues_eq_zero, hn] at hzero
    obtain rfl : slots = [] := eq_nil_of_length_eq_zero (by omega)
    rw [if_pos (numValues_eq_zero.2 hn)]
    exact ⟨fun _ => ⟨[], rfl⟩, fun hnot => (hnot ⟨[], rfl, .nil _⟩).elim⟩
  · have hne : slots ≠ [] := by
      rintro rfl
      exact hzero (numValues_eq_zero.2 hn)
    rw [if_neg hzero, splitDefinitionLevels_of hl hn]
    simp only [presents_of hl hn hne, withCapacity_of hn]
    rw [← filter_isSome, ← exists_assemble_iff]
    refine ⟨id, fun hnot => ?_⟩
    cases hread : assemble (t.readPlain values) (slots.map Option.isSome) (t.start values) with
    | ok col => exact (hnot ⟨col, hread⟩).elim
    | error e =>
      refine ⟨e, ?_, rfl⟩
      rintro rfl
      obtain ⟨s, hs⟩ := assemble_error hread
      exact t.readPlain_ne_panicked values s hs

theorem le_asUsize {v : Int32} (hv : v.toInt < 0) : 2 ^ 63 ≤ asUsize v := by
  have hge := v.le_toInt
  have h64 : v.toInt64.toBitVec.toInt = v.toInt := Int32.toInt_toInt64 v
  have hcond := BitVec.toInt_eq_toNat_cond v.toInt64.toBitVec
  have hbound := v.toInt64.toBitVec.isLt
  show 2 ^ 63 ≤ v.toInt64.toBitVec.toNat
  rw [h64] at hcond
  split at hcond <;> omega

/-- A negative number of values is never read. -/
theorem readPlainColumn_negative (hn : h.numValues.toInt < 0) (maxDef : Nat) (col : List (Option t.Val)) :
    readPlainColumn t body h maxDef ≠ .ok col := by
  unfold readPlainColumn
  rw [if_neg fun hzero => by rw [numValues_eq_zero] at hzero; omega]
  split
  · rintro ⟨⟩
  · rw [withCapacity, if_pos (le_asUsize hn)]
    rintro ⟨⟩

end Page

/-! ## Any chunk -/

section Loop
variable {H : Host} {t : ColumnType} {codec : Codec} {maxDef f : Nat} {buf : Bytes}
variable {dictionary : Option (List t.Val)} {values : List (Option t.Val)}

theorem PageAt.unique {header header' : PageHeader} {body body' more more' : Bytes} (h : PageAt H codec buf header body more)
    (h' : PageAt H codec buf header' body' more') : header = header' ∧ body = body' ∧ more = more' := by
  obtain ⟨rest, hdec, -, hbody, rfl⟩ := h
  obtain ⟨rest', hdec', -, hbody', rfl⟩ := h'
  rw [hdec] at hdec'
  cases hdec'
  rw [hbody] at hbody'
  cases hbody'
  exact ⟨rfl, rfl, rfl⟩

/-- Where the loop returns values it has read the first page, and then the rest. -/
theorem readPages_first {b : UInt8} (h : readPages H t codec maxDef (f + 1) (b :: buf) dictionary = .ok values) :
    ∃ header body more, PageAt H codec (b :: buf) header body more ∧
      (∀ d, header.pageType = .data d → ∃ page, readDataPage t maxDef body d dictionary = .ok page) ∧
      ∃ dictionary' values', readPages H t codec maxDef f more dictionary' = .ok values' := by
  have hloop := h
  rw [readPages, bind_eq_ok_iff] at h
  obtain ⟨⟨header, rest⟩, hdec, h⟩ := h
  dsimp only at h
  split at h
  · cases h
  rename_i hlong
  split at h
  · rename_i d ht
    obtain ⟨body, hb, -⟩ := bind_eq_ok_iff.1 h
    have hpage : PageAt H codec (b :: buf) header body _ := ⟨rest, mapError_eq_ok_iff.1 hdec, hlong, hb, rfl⟩
    rw [hpage.readPages_data ht] at hloop
    obtain ⟨page, hp, hloop⟩ := bind_eq_ok_iff.1 hloop
    obtain ⟨more, hmore, -⟩ := bind_eq_ok_iff.1 hloop
    refine ⟨header, body, _, hpage, fun d' hd => ⟨page, ?_⟩, dictionary, more, hmore⟩
    rw [ht] at hd
    cases hd
    exact hp
  · split at h
    · cases h
    · rename_i d ht _
      obtain ⟨body, hb, h⟩ := bind_eq_ok_iff.1 h
      obtain ⟨dict, hd, h⟩ := bind_eq_ok_iff.1 h
      refine ⟨header, body, _, ⟨rest, mapError_eq_ok_iff.1 hdec, hlong, hb, rfl⟩, fun d' hd' => ?_, some dict, values, h⟩
      rw [ht] at hd'
      cases hd'

/-- Every data page of a chunk that is read, is read. -/
theorem DataPageIn.read {h : DataPageHeader} {body : Bytes} (hp : DataPageIn H codec h body buf)
    (hread : readPages H t codec maxDef f buf dictionary = .ok values) :
    ∃ (dictionary' : Option (List t.Val)) (page : _), readDataPage t maxDef body h dictionary' = .ok page := by
  have hcons : ∀ {buf more body : Bytes} {header : PageHeader}, PageAt H codec buf header body more → ∃ b rest, buf = b :: rest := by
    intro buf more body header hat
    obtain ⟨rest, hdec, -⟩ := hat
    have hlt := decodePageHeader_shorter hdec
    exact exists_cons_of_ne_nil (length_pos_iff.1 (by omega))
  induction hp generalizing f dictionary values with
  | first hat ht =>
    obtain ⟨b, rest, rfl⟩ := hcons hat
    cases f with
    | zero => cases hread
    | succ f =>
      obtain ⟨header, body, more, hat', hpage, -⟩ := readPages_first hread
      obtain ⟨rfl, rfl, -⟩ := hat.unique hat'
      obtain ⟨page, hp⟩ := hpage _ ht
      exact ⟨dictionary, page, hp⟩
  | later hat hp ih =>
    obtain ⟨b, rest, rfl⟩ := hcons hat
    cases f with
    | zero => cases hread
    | succ f =>
      obtain ⟨header, body, more, hat', -, dictionary', values', hmore⟩ := readPages_first hread
      obtain ⟨-, -, rfl⟩ := hat.unique hat'
      exact ih hmore

end Loop

/-! ## Chunks whose other pages are valid -/

theorem bind_eq_error {ε α β : Type} {x : Except ε α} {e : ε} (h : x = .error e) (f : α → Except ε β) :
    (x >>= f) = .error e := by
  rw [h]
  rfl

section Mixed
variable {t : ColumnType} {optional : Bool} {bytes : Bytes} {ps : List (Nat × Bytes)}

theorem ForeignPage.readPages (H : Host) {k : Nat} {values : Bytes} (p : ForeignPage t optional k values bytes) (f : Nat)
    (more : Bytes) (dictionary : Option (List t.Val)) :
    Parquet.readPages H t .uncompressed (maxDefOf optional) (f + 1) (bytes ++ more) dictionary = (do
      let page ← (Parquet.readPlainColumn t p.body p.page (maxDefOf optional)).mapError .read
      let rest ← Parquet.readPages H t .uncompressed (maxDefOf optional) f more dictionary
      pure (page ++ rest)) := by
  obtain ⟨fs, header, page, hb, body, wire, heq, isData, size, foreign, rfl⟩ := p
  rw [append_assoc, readPages_step H t _ f wire heq size]
  simp only [readPage, isData, readDataPage_unimplemented _ _ _ foreign.foreign]

theorem MixedPages.readPages (H : Host) {dictionary : Option (List t.Val)} (h : MixedPages t optional dictionary ps bytes)
    {f : Nat} (hf : bytes.length ≤ f) :
    ((∀ p ∈ ps, t.BeginsPlain p.1 p.2) →
        ∃ col, Parquet.readPages H t .uncompressed (maxDefOf optional) f bytes dictionary = .ok col) ∧
      ((∃ p ∈ ps, ¬t.BeginsPlain p.1 p.2) →
        ∃ e, e ≠ .read .panicked ∧ Parquet.readPages H t .uncompressed (maxDefOf optional) f bytes dictionary = .error e) := by
  induction h generalizing f with
  | nil =>
    refine ⟨fun _ => ⟨[], by cases f <;> rfl⟩, ?_⟩
    rintro ⟨p, hp, -⟩
    cases hp
  | @valid ps col bytes more p h ih =>
    obtain ⟨fs, header, page, hb, lb, vb, wire, heq, isData, hn, size, levels, values, rfl⟩ := p
    have hpos := length_pos_of_ne_nil wire.fields_ne_nil
    simp only [length_append] at hf
    obtain ⟨f, rfl⟩ := Nat.exists_eq_succ_of_ne_zero (by omega : f ≠ 0)
    have hsmall := header.compressedPageSize.toInt_lt
    have hvb : vb.length < 2 ^ 31 := by rw [length_append] at size; omega
    rw [append_assoc, readPages_step H t _ f wire heq size]
    simp only [readPage, isData, readDataPage_of hn levels values hvb, bind, Except.bind]
    obtain ⟨hok, herr⟩ := ih (f := f) (by omega)
    refine ⟨fun hall => ?_, fun hsome => ?_⟩
    · obtain ⟨cols, hcols⟩ := hok hall
      exact ⟨col ++ cols, by rw [hcols]; rfl⟩
    · obtain ⟨e, hne, he⟩ := herr hsome
      exact ⟨e, hne, by rw [he]⟩
  | @foreign ps k values bytes more p h ih =>
    have hpos := length_pos_of_ne_nil p.wire.fields_ne_nil
    have hlen := congrArg List.length p.bytes_eq
    simp only [length_append] at hf hlen
    obtain ⟨f, rfl⟩ := Nat.exists_eq_succ_of_ne_zero (by omega : f ≠ 0)
    rw [p.readPages H f more dictionary]
    obtain ⟨hplain, hnot⟩ := p.foreign.readPlainColumn
    obtain ⟨hok, herr⟩ := ih (f := f) (by omega)
    refine ⟨fun hall => ?_, fun hsome => ?_⟩
    · obtain ⟨col, hcol⟩ := hplain (hall _ mem_cons_self)
      obtain ⟨cols, hcols⟩ := hok fun p hp => hall p (mem_cons_of_mem _ hp)
      exact ⟨col ++ cols, by rw [hcol, hcols]; rfl⟩
    · by_cases hfirst : t.BeginsPlain k values
      · obtain ⟨col, hcol⟩ := hplain hfirst
        obtain ⟨p', hp', hbad⟩ := hsome
        have hlater : p' ∈ ps := (mem_cons.1 hp').resolve_left fun heq => hbad (heq ▸ hfirst)
        obtain ⟨e, hne, he⟩ := herr ⟨p', hlater, hbad⟩
        exact ⟨e, hne, by rw [hcol, he]; rfl⟩
      · obtain ⟨e, hne, he⟩ := hnot hfirst
        refine ⟨.read e, fun heq => hne (FileError.read.inj heq), bind_eq_error ?_ _⟩
        rw [he]
        rfl

theorem MixedChunk.readPages (H : Host) (h : MixedChunk t optional ps bytes) :
    (∃ e, e ≠ .read .panicked ∧
      Parquet.readPages H t .uncompressed (maxDefOf optional) (bytes.length + 1) bytes none = .error e) ↔
        ∃ p ∈ ps, ¬t.BeginsPlain p.1 p.2 := by
  have hiff : ∀ {r : Except FileError (List (Option t.Val))}, ((∀ p ∈ ps, t.BeginsPlain p.1 p.2) → ∃ col, r = .ok col) →
      ((∃ p ∈ ps, ¬t.BeginsPlain p.1 p.2) → ∃ e, e ≠ .read .panicked ∧ r = .error e) →
      ((∃ e, e ≠ .read .panicked ∧ r = .error e) ↔ ∃ p ∈ ps, ¬t.BeginsPlain p.1 p.2) := by
    intro r hok herr
    refine ⟨fun ⟨e, _, he⟩ => ?_, herr⟩
    by_contra hnone
    obtain ⟨col, hcol⟩ := hok fun p hp => by_contra fun hbad => hnone ⟨p, hp, hbad⟩
    rw [he] at hcol
    cases hcol
  cases h with
  | plain h =>
    have hrun := h.readPages H bytes.length.le_succ
    exact hiff hrun.1 hrun.2
  | dictionary fs header page dict wire heq isDict hn size fits h =>
    rw [readPages_step H t _ _ wire heq size]
    simp only [readPage, isDict, decodeDictionary_of hn fits, bind, Except.bind, Except.mapError]
    refine hiff (h.readPages H ?_).1 (h.readPages H ?_).2 <;>
      · simp only [length_append]
        omega

end Mixed

namespace RowGroupReader

theorem read_eq_readColumn (H : Host) (t : ColumnType) {g : RowGroupReader} {i : Nat}
    (hlen : ∀ n, t = .fixedLenByteArray n → g.typeLength i = .ok n) : RowGroupReader.read H t g i = readColumn H t g i := by
  cases t with
  | int64 => rfl
  | double => rfl
  | int32 => rfl
  | boolean => rfl
  | string => rfl
  | fixedLenByteArray n =>
    show readFixedLenByteArrayColumn H g i = _
    rw [readFixedLenByteArrayColumn, hlen n rfl]
    rfl

/-- A page of two INT32 values, one of them null, that says it is
DELTA_BINARY_PACKED. -/
def deltaPage (values : Bytes) : Bytes :=
  dataHeader (Int32.ofNat (6 + values.length)) 2 5 ++ ([2, 0, 0, 0, 3, 1] ++ values)

/-- A chunk with a PLAIN page, and behind it one in the other encoding. -/
def deltaReader (values : Bytes) : RowGroupReader where
  metadata := ⟨1, [sampleElement .required, sampleElement .optional], 4, [], none⟩
  data := sampleChunk ++ deltaPage values
  rowGroup := ⟨[⟨0, some { sampleMeta with totalCompressedSize := 50 + Int64.ofNat values.length }⟩], 54, 4⟩

theorem not_implements_delta : ¬ColumnType.int32.Implements .deltaBinaryPacked := by
  rintro (h | h | h | ⟨h, -⟩) <;> cases h

def shortDeltaPage : ForeignPage .int32 true 1 [7, 0, 0] (deltaPage [7, 0, 0]) where
  fs := dataFields 9 2 5
  header := ⟨9, 9, .data ⟨2, .deltaBinaryPacked, .rle, .rle⟩⟩
  page := ⟨2, .deltaBinaryPacked, .rle, .rle⟩
  headerBytes := dataHeader 9 2 5
  body := [2, 0, 0, 0, 3, 1] ++ [7, 0, 0]
  wire := dataHeader_wire (by decide) (by decide) (by decide)
  header_eq := by rfl
  isData := rfl
  size := by decide
  foreign :=
    { foreign := not_implements_delta
      layout := ⟨[some (), none], [2, 0, 0, 0, 3, 1], by decide, by decide, samplePage_levels, rfl⟩ }
  bytes_eq := rfl

end RowGroupReader

end DbStorage.Parquet
