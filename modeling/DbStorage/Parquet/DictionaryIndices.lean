import DbStorage.Core.PageWalk
import DbStorage.Parquet.Column

/-!
# Dictionary indices of a column (`reader.rs` and `parquet_file.rs` in `src/column/parquet`)

`read_column_dictionary_indices` goes through the pages of a column chunk as
`read_column` does, but keeps the indices of the data pages and gives up (with
`None`) at the first page without them. It returns the dictionary and the
indices only when all pages have been read so, and then `read_column` resolves
the same indices against the same dictionary (`dictionary_indices_resolve`).

`resolve` says what becomes of indices; a page and a whole chunk are each
shown to be a `resolve`, which is a homomorphism over the pages
(`resolve_append`).
-/
namespace DbStorage.Parquet
open Bytes
open PageWalk (bind_eq_ok_iff mapError_eq_ok_iff)

/-! ## The readers -/

/-- mirrors reader.rs:350-377 -/
def readDictionaryIndexColumn (body : Bytes) (h : DataPageHeader) (maxDef : Nat) : Read (List (Option Nat)) :=
  if h.numValues = 0 then .ok []
  else
    match splitDefinitionLevels body h maxDef with
    | .error e => .error e
    | .ok (levels, data) =>
      match readDictionaryIndices data (presentCount h levels maxDef) with
      | .error e => .error e
      | .ok indices => withCapacity (asUsize h.numValues) (assemble readNext (presents h levels maxDef) indices)

/-- The loop over the pages: `buf` is what follows `pos`.
mirrors parquet_file.rs:411-462 -/
def readIndexPages (H : Host) (t : ColumnType) (codec : Codec) (maxDef : Nat) :
    Nat → Bytes → Option (List t.Val) → List (Option Nat) →
      Except FileError (Option (List t.Val × List (Option Nat)))
  | _, [], dictionary, indices => .ok (dictionary.map (·, indices))
  | 0, _ :: _, _, _ => .error .outOfFuel
  | f + 1, b :: buf, dictionary, indices => do
    let (header, rest) ← (decodePageHeader H.layout (b :: buf)).mapError .page
    let size := asUsize header.compressedPageSize
    if rest.length < size then throw .chunkOutOfBounds
    let compressed := rest.take size
    match header.pageType with
    | .data h =>
      if dictionary.isNone ∨ ¬ (h.encoding = .plainDictionary ∨ h.encoding = .rleDictionary) then .ok none
      else do
        let body ← H.decompress codec compressed (asUsize header.uncompressedPageSize)
        let pageIndices ← (readDictionaryIndexColumn body h maxDef).mapError .read
        readIndexPages H t codec maxDef f (rest.drop size) dictionary (indices ++ pageIndices)
    | .dictionary h =>
      match dictionary with
      | some _ => throw .unexpectedDictionaryPage
      | none => do
        let body ← H.decompress codec compressed (asUsize header.uncompressedPageSize)
        let dict ← (t.decodeDictionary body h.numValues).mapError .read
        readIndexPages H t codec maxDef f (rest.drop size) (some dict) indices

namespace RowGroupReader

/-- mirrors parquet_file.rs:402-463 -/
def readColumnDictionaryIndices (H : Host) (t : ColumnType) (g : RowGroupReader) (i : Nat) :
    Except FileError (Option (List t.Val × List (Option Nat))) := do
  let m ← g.columnMeta i
  let chunk ← g.columnChunkBytes i
  readIndexPages H t m.codec (g.maxDefinitionLevel i) (chunk.length + 1) chunk none []

/-- mirrors parquet_file.rs:540-545 -/
def readInt64ColumnDictionaryIndices (H : Host) (g : RowGroupReader) (i : Nat) :
    Except FileError (Option (List Int64 × List (Option Nat))) :=
  readColumnDictionaryIndices H .int64 g i

/-- mirrors parquet_file.rs:547-552 -/
def readDoubleColumnDictionaryIndices (H : Host) (g : RowGroupReader) (i : Nat) :
    Except FileError (Option (List UInt64 × List (Option Nat))) :=
  readColumnDictionaryIndices H .double g i

/-- mirrors parquet_file.rs:554-559 -/
def readBooleanColumnDictionaryIndices (H : Host) (g : RowGroupReader) (i : Nat) :
    Except FileError (Option (List Bool × List (Option Nat))) :=
  readColumnDictionaryIndices H .boolean g i

/-- mirrors parquet_file.rs:561-566 -/
def readStringColumnDictionaryIndices (H : Host) (g : RowGroupReader) (i : Nat) :
    Except FileError (Option (List (List Char) × List (Option Nat))) :=
  readColumnDictionaryIndices H .string g i

end RowGroupReader

/-! ## Resolving indices -/

variable {indices acc : List (Option Nat)} {body : Bytes}

section
variable {α : Type} {dict : List α}

/-- Each index replaced by its dictionary entry, up to the first that has none. -/
def resolve (dict : List α) : List (Option Nat) → Read (List (Option α))
  | [] => .ok []
  | none :: rest => (resolve dict rest).map (none :: ·)
  | some i :: rest =>
    match dict[i]? with
    | none => .error (.dictionaryIndexOutOfRange i)
    | some a => (resolve dict rest).map (some a :: ·)

theorem resolve_append (xs ys : List (Option Nat)) :
    resolve dict (xs ++ ys) = (do
      let a ← resolve dict xs
      let b ← resolve dict ys
      pure (a ++ b)) := by
  induction xs with
  | nil =>
    cases h : resolve dict ys <;> simp [resolve, h, bind, Except.bind, pure, Except.pure]
  | cons x xs ih =>
    cases x with
    | none =>
      rw [List.cons_append, resolve, resolve, ih]
      cases resolve dict xs <;> cases resolve dict ys <;> rfl
    | some i =>
      rw [List.cons_append, resolve, resolve]
      cases dict[i]? with
      | none => rfl
      | some a =>
        rw [ih]
        cases resolve dict xs <;> cases resolve dict ys <;> rfl

theorem resolve_of_lt (h : ∀ k, some k ∈ indices → k < dict.length) :
    resolve dict indices = .ok (indices.map (·.bind (dict[·]?))) := by
  induction indices with
  | nil => rfl
  | cons x xs ih =>
    have hrest := ih fun k hk => h k (List.mem_cons_of_mem _ hk)
    cases x with
    | none =>
      rw [resolve, hrest]
      rfl
    | some i =>
      have hi := List.getElem?_eq_getElem (h i List.mem_cons_self)
      rw [resolve, hi, hrest, List.map_cons, Option.bind_some, hi]
      rfl

/-- An index out of range is found, and it is the first one that is reported. -/
theorem resolve_of_ge (h : ¬ ∀ k, some k ∈ indices → k < dict.length) :
    ∃ pre k post, indices = pre ++ some k :: post ∧ (∀ j, some j ∈ pre → j < dict.length) ∧ dict.length ≤ k ∧
      resolve dict indices = .error (.dictionaryIndexOutOfRange k) := by
  induction indices with
  | nil => exact absurd (fun k hk => absurd hk List.not_mem_nil) h
  | cons x xs ih =>
    by_cases hx : ∀ k, x = some k → k < dict.length
    · have hxs : ¬ ∀ k, some k ∈ xs → k < dict.length := by
        intro hall
        refine h fun k hk => ?_
        obtain hk | hk := List.mem_cons.mp hk
        · exact hx k hk.symm
        · exact hall k hk
      obtain ⟨pre, k, post, rfl, hpre, hk, hres⟩ := ih hxs
      refine ⟨x :: pre, k, post, rfl, fun j hj => ?_, hk, ?_⟩
      · obtain hj | hj := List.mem_cons.mp hj
        · exact hx j hj.symm
        · exact hpre j hj
      · cases x with
        | none =>
          rw [resolve, hres]
          rfl
        | some i =>
          rw [resolve, List.getElem?_eq_getElem (hx i rfl), hres]
          rfl
    · cases x with
      | none => exact absurd (fun k hk => by cases hk) hx
      | some i =>
        have hi : dict.length ≤ i := by
          by_contra hlt
          exact hx fun k hk => by
            cases hk
            omega
        refine ⟨[], i, xs, rfl, fun j hj => absurd hj List.not_mem_nil, hi, ?_⟩
        rw [resolve, List.getElem?_eq_none hi]

/-! ## Pages -/

/-- The slots filled with indices and then resolved, or resolved as they are filled. -/
theorem assemble_readIndex {slots : List Bool} {is : List Nat} {out : List (Option Nat)}
    (h : assemble readNext slots is = .ok out) : assemble (readIndex dict) slots is = resolve dict out := by
  induction slots generalizing is out with
  | nil =>
    cases h
    rfl
  | cons slot slots ih =>
    cases slot with
    | false =>
      rw [assemble] at h
      cases hrest : assemble readNext slots is with
      | error e =>
        rw [hrest] at h
        cases h
      | ok out' =>
        rw [hrest] at h
        cases h
        rw [assemble, ih hrest, resolve]
    | true =>
      cases is with
      | nil => cases h
      | cons i is =>
        rw [assemble, readNext] at h
        cases hrest : assemble readNext slots is with
        | error e =>
          simp only [hrest] at h
          cases h
        | ok out' =>
          simp only [hrest] at h
          cases h
          rw [assemble, readIndex, resolve]
          cases dict[i]? with
          | none => rfl
          | some a => simp only [ih hrest]

theorem readColumnDictionary_eq {h : DataPageHeader} {maxDef : Nat}
    (hindices : readDictionaryIndexColumn body h maxDef = .ok indices) :
    readColumnDictionary body h maxDef dict = resolve dict indices := by
  unfold readDictionaryIndexColumn at hindices
  unfold readColumnDictionary
  split
  · rename_i hzero
    rw [if_pos hzero] at hindices
    cases hindices
    rfl
  · rename_i hzero
    rw [if_neg hzero] at hindices
    cases hsplit : splitDefinitionLevels body h maxDef with
    | error e =>
      rw [hsplit] at hindices
      cases hindices
    | ok r =>
      obtain ⟨levels, data⟩ := r
      simp only [hsplit] at hindices ⊢
      cases hread : readDictionaryIndices data (presentCount h levels maxDef) with
      | error e =>
        rw [hread] at hindices
        cases hindices
      | ok is =>
        simp only [hread, withCapacity] at hindices ⊢
        -- both readers reserve as much
        split
        · rename_i hlarge
          rw [if_pos hlarge] at hindices
          cases hindices
        · rename_i hfits
          rw [if_neg hfits] at hindices
          exact assemble_readIndex hindices

end

/-! ## Chunks -/

section
variable {H : Host} {t : ColumnType} {codec : Codec} {maxDef f : Nat} {b : UInt8} {buf : Bytes}

/-- What both loops do first with a page. -/
structure PageAt (H : Host) (codec : Codec) (buf : Bytes) (header : PageHeader) (body more : Bytes) : Prop where
  decoded : ∃ rest, decodePageHeader H.layout buf = .ok (header, rest) ∧
    ¬ rest.length < asUsize header.compressedPageSize ∧
    H.decompress codec (rest.take (asUsize header.compressedPageSize)) (asUsize header.uncompressedPageSize) = .ok body ∧
    more = rest.drop (asUsize header.compressedPageSize)

variable {dictionary : Option (List t.Val)} {dict : List t.Val}

/-- One round of the loop that keeps indices, when it ends with a result: the
page has indices into the dictionary, or it is the dictionary. -/
theorem readIndexPages_succ
    (h : readIndexPages H t codec maxDef (f + 1) (b :: buf) dictionary acc = .ok (some (dict, indices))) :
    ∃ header body more, PageAt H codec (b :: buf) header body more ∧
      ((∃ page d pageIndices, header.pageType = .data page ∧ dictionary = some d ∧
          (page.encoding = .plainDictionary ∨ page.encoding = .rleDictionary) ∧
          readDictionaryIndexColumn body page maxDef = .ok pageIndices ∧
          readIndexPages H t codec maxDef f more dictionary (acc ++ pageIndices) = .ok (some (dict, indices))) ∨
        ∃ page d, header.pageType = .dictionary page ∧ dictionary = none ∧
          t.decodeDictionary body page.numValues = .ok d ∧
          readIndexPages H t codec maxDef f more (some d) acc = .ok (some (dict, indices))) := by
  rw [readIndexPages] at h
  obtain ⟨⟨header, rest⟩, hheader, h⟩ := bind_eq_ok_iff.1 h
  dsimp only at h
  split at h
  · cases h
  rename_i hsize
  split at h
  · rename_i page hpage
    split at h
    · cases h
    · rename_i hcond
      obtain ⟨hsome, henc⟩ := not_or.mp hcond
      obtain ⟨d, rfl⟩ := Option.ne_none_iff_exists'.mp (mt Option.isNone_iff_eq_none.mpr hsome)
      obtain ⟨body, hbody, h⟩ := bind_eq_ok_iff.1 h
      obtain ⟨pageIndices, hindices, h⟩ := bind_eq_ok_iff.1 h
      exact ⟨header, body, _, ⟨rest, mapError_eq_ok_iff.1 hheader, hsize, hbody, rfl⟩,
        .inl ⟨page, d, pageIndices, hpage, rfl, Decidable.not_not.mp henc, mapError_eq_ok_iff.1 hindices, h⟩⟩
  · rename_i page hpage
    split at h
    · cases h
    · obtain ⟨body, hbody, h⟩ := bind_eq_ok_iff.1 h
      obtain ⟨d, hd, h⟩ := bind_eq_ok_iff.1 h
      exact ⟨header, body, _, ⟨rest, mapError_eq_ok_iff.1 hheader, hsize, hbody, rfl⟩,
        .inr ⟨page, d, hpage, rfl, mapError_eq_ok_iff.1 hd, h⟩⟩

theorem PageAt.readPages_data {header : PageHeader} {more : Bytes} (hp : PageAt H codec (b :: buf) header body more)
    {page : DataPageHeader} (hpage : header.pageType = .data page) (dictionary : Option (List t.Val)) :
    readPages H t codec maxDef (f + 1) (b :: buf) dictionary = (do
      let values ← readDataPage t maxDef body page dictionary
      let rest ← readPages H t codec maxDef f more dictionary
      pure (values ++ rest)) := by
  obtain ⟨rest, hheader, hsize, hbody, rfl⟩ := hp
  simp only [readPages, hheader, Except.mapError, bind, Except.bind, if_neg hsize, hpage, hbody]

theorem PageAt.readPages_dictionary {header : PageHeader} {more : Bytes}
    (hp : PageAt H codec (b :: buf) header body more) {page : DictionaryPageHeader}
    (hpage : header.pageType = .dictionary page) {d : List t.Val} (hd : t.decodeDictionary body page.numValues = .ok d) :
    readPages H t codec maxDef (f + 1) (b :: buf) none = readPages H t codec maxDef f more (some d) := by
  obtain ⟨rest, hheader, hsize, hbody, rfl⟩ := hp
  simp only [readPages, hheader, Except.mapError, bind, Except.bind, if_neg hsize, hpage, hbody, hd]

theorem readPages_of_indices_nil (h : readIndexPages H t codec maxDef f [] dictionary acc = .ok (some (dict, indices))) :
    (∀ d, dictionary = some d → d = dict) ∧ ∃ more, indices = acc ++ more ∧
      readPages H t codec maxDef f [] dictionary = (resolve dict more).mapError .read := by
  have hnil : readIndexPages H t codec maxDef f [] dictionary acc = .ok (dictionary.map (·, acc)) := by
    cases f <;> rfl
  rw [hnil] at h
  obtain ⟨d, rfl, hd⟩ := Option.map_eq_some_iff.mp (Except.ok.inj h)
  cases hd
  refine ⟨fun d' hd' => (Option.some.inj hd').symm, [], (List.append_nil _).symm, ?_⟩
  cases f <;> rfl

/-- The loops together: the indices that one has added since are what the
other resolves. -/
theorem readPages_of_indices (h : readIndexPages H t codec maxDef f buf dictionary acc = .ok (some (dict, indices))) :
    (∀ d, dictionary = some d → d = dict) ∧ ∃ more, indices = acc ++ more ∧
      readPages H t codec maxDef f buf dictionary = (resolve dict more).mapError .read := by
  induction f generalizing buf dictionary acc with
  | zero =>
    cases buf with
    | nil => exact readPages_of_indices_nil h
    | cons b buf => cases h
  | succ f ih =>
    cases buf with
    | nil => exact readPages_of_indices_nil h
    | cons b buf =>
      obtain ⟨header, body, more, hp, ⟨page, d, pageIndices, hpage, rfl, henc, hindices, hrest⟩ |
        ⟨page, d, hpage, rfl, hd, hrest⟩⟩ := readIndexPages_succ h
      · obtain ⟨hdict, later, rfl, hread⟩ := ih hrest
        obtain rfl := hdict d rfl
        refine ⟨fun d' hd' => (Option.some.inj hd').symm, pageIndices ++ later, List.append_assoc .., ?_⟩
        rw [hp.readPages_data hpage, hread, readDataPage_dictionary t maxDef body d henc,
          readColumnDictionary_eq hindices, resolve_append]
        cases resolve d pageIndices <;> cases resolve d later <;> rfl
      · obtain ⟨hdict, later, rfl, hread⟩ := ih hrest
        obtain rfl := hdict d rfl
        exact ⟨nofun, later, rfl, by rw [hp.readPages_dictionary hpage hd, hread]⟩

end

/-- **Indices resolve to the column.** Whenever the indices of a column chunk
are returned, the column itself is read as the entries of the same dictionary at
these indices; or, if some are out of range, the first of these is reported. -/
theorem dictionary_indices_resolve (H : Host) (t : ColumnType) (g : RowGroupReader) (i : Nat) {dict : List t.Val}
    {indices : List (Option Nat)} (h : g.readColumnDictionaryIndices H t i = .ok (some (dict, indices))) :
    ((∀ k, some k ∈ indices → k < dict.length) →
      g.readColumn H t i = .ok (indices.map (·.bind (dict[·]?)))) ∧
    (¬ (∀ k, some k ∈ indices → k < dict.length) →
      ∃ pre k post, indices = pre ++ some k :: post ∧ (∀ j, some j ∈ pre → j < dict.length) ∧ dict.length ≤ k ∧
        g.readColumn H t i = .error (.read (.dictionaryIndexOutOfRange k))) := by
  obtain ⟨m, hm, h⟩ := bind_eq_ok_iff.1 h
  obtain ⟨chunk, hchunk, h⟩ := bind_eq_ok_iff.1 h
  obtain ⟨-, _, rfl, hread⟩ := readPages_of_indices h
  have hcolumn : g.readColumn H t i = (resolve dict indices).mapError .read := by
    rw [RowGroupReader.readColumn, hm, hchunk]
    exact hread
  rw [hcolumn]
  refine ⟨fun hlt => ?_, fun hge => ?_⟩
  · rw [resolve_of_lt hlt]
    rfl
  · obtain ⟨pre, k, post, hmore, hpre, hk, hres⟩ := resolve_of_ge hge
    exact ⟨pre, k, post, hmore, hpre, hk, by rw [hres]; rfl⟩

/-- A dictionary page with 5 and 6, and a page with the indices 1, 0 and 1. -/
def indexedChunk : Bytes :=
  [0x15, 4, 0x15, 32, 0x15, 32, 0x4c, 0x15, 4, 0x15, 0, 0, 0] ++ (plainI64 5 ++ plainI64 6) ++
    ([0x15, 0, 0x15, 6, 0x15, 6, 0x2c, 0x15, 6, 0x15, 16, 0x15, 6, 0x15, 6, 0, 0] ++ [1, 3, 5])

def indexedReader : RowGroupReader where
  metadata := ⟨1, [sampleElement .required, sampleElement .required], 3, [], none⟩
  data := indexedChunk
  rowGroup := ⟨[⟨0, some { sampleMeta with totalCompressedSize := 49 }⟩], 49, 3⟩

theorem indexed_column_resolves :
    indexedReader.readInt64ColumnDictionaryIndices sampleHost 0 = .ok (some ([5, 6], [some 1, some 0, some 1])) ∧
      indexedReader.readInt64Column sampleHost 0 = .ok [some 6, some 5, some 6] := by
  have h : indexedReader.readColumnDictionaryIndices sampleHost .int64 0 =
      .ok (some ([5, 6], [some 1, some 0, some 1])) := by decide +kernel
  exact ⟨h, (dictionary_indices_resolve sampleHost .int64 indexedReader 0 h).1 (by simp)⟩

end DbStorage.Parquet
