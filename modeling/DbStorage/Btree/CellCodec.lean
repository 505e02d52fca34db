import DbStorage.Btree.Overflow
import DbStorage.Btree.ReadBounds
import DbStorage.Record.Codec

/-!
# Writing and reading cells

A payload is written as a cell with its overflow chain (`CellKind.encode`)
and read back with `reassemble_payload`; the length of a cell and its first
overflow page are computed at several more places (`TablePlaces`,
`IndexPlaces`).

Results: every place agrees with the encoder, the chain has the pages that the
bytes need, and the cell fits an empty leaf (`cell_read_back`). The payload is
read back if and only if the chain has at most `MAX_PAGES_VISITED` pages:
`reassemble_payload` gives up a longer chain, which small pages need for
payloads within the limit of 2,147,483,647 bytes (`long_payload_lost`).
-/
namespace DbStorage.Btree
open Bytes Pager Record List

/-! ## Index cells -/

namespace Index

/-- mirrors index.rs:647-660 -/
def valueCellLen (buf : Bytes) (cellStart : Nat) (pageNum : UInt32) (usableSize : Nat) : Except BtreeError Nat := do
  let (payloadLen, tailStart) ← decodePayloadLen buf cellStart pageNum
  .ok (cellEnd usableSize tailStart payloadLen true - cellStart)

/-- mirrors index.rs:609-639 -/
def decodeValueCell (source : PageSource) (buf : Bytes) (valueStart : Nat) (pageNum : UInt32) (usableSize : Nat)
    (encoding : TextEncoding) : Except BtreeError (List Value × Bytes) := do
  let (payloadLen, tailStart) ← decodePayloadLen buf valueStart pageNum
  match buf.getRange valueStart (cellEnd usableSize tailStart payloadLen true) with
  | none => .error (.payloadTooShort pageNum)
  | some cellBytes => do
    let payload ← reassemblePayload source usableSize pageNum buf tailStart payloadLen true
    let key ← (decodeRecord payload encoding).mapError .invalidKeyRecord
    .ok (key, cellBytes)

/-- mirrors index/delete.rs:60-72 -/
def overflowPageOf (valueBytes : Bytes) (usableSize : Nat) : Except BtreeError UInt32 := do
  let (payloadLen, tailStart) ← decodePayloadLen valueBytes 0 0
  let localSize := localPayloadSize usableSize payloadLen true
  if localSize < payloadLen then readU32 valueBytes (tailStart + localSize) 0 else .ok 0

end Index

/-! ## Reading a chain back -/

section
variable {us : Nat} {v : View} {source : PageSource}

/-- The source returns the pages of the view. -/
def Serves (source : PageSource) (v : View) : Prop := ∀ p b, v p = some b → source p = .ok b

theorem chainPage_of_chain {p next : UInt32} {b data : Bytes} (hs : Serves source v) (hb : v p = some b) (hd : data ≠ [])
    (hh : Holds b 0 (be32 next ++ data.take (chunkSize us))) :
    chainPage source (chunkSize us) data.length p = .ok (next, data.take (chunkSize us)) := by
  have hne : data.take (chunkSize us) ≠ [] := by
    intro h
    rcases take_eq_nil_iff.1 h with h | h
    · unfold chunkSize at h
      omega
    · exact hd h
  obtain ⟨hnext, hchunk⟩ := holds_append.1 hh
  rw [be32_length, Nat.zero_add] at hchunk
  have hget := hchunk.getRange hne
  rw [length_take, Nat.min_comm] at hget
  simp only [chainPage, PageSource.readPage, hs p b hb, Except.mapError, bind, Except.bind, readU32_of_holds hnext, hget]

/-- A chain is read back unless it is too long. -/
theorem reassembleFrom_chain {first pageNum : UInt32} {pages visited : List UInt32} {data : Bytes} (hs : Serves source v)
    (h : Chain us v first pages data) (hnd : (pages ++ visited).Nodup) (fuel : Nat) (hfuel : data.length ≤ fuel)
    (hvis : visited.length ≤ maxPagesVisited) :
    reassembleFrom source (chunkSize us) pageNum fuel data.length first visited =
      if pages.length + visited.length ≤ maxPagesVisited then .ok data
      else .error (.overflowChainTooLong pageNum maxPagesVisited) := by
  induction h generalizing visited fuel with
  | nil =>
    rw [if_pos (by simpa using hvis)]
    cases fuel with
    | zero => rfl
    | succ fuel => rw [length_nil, reassembleFrom, if_pos rfl]
  | @cons p next b data pages hp hd hb hh _ ih =>
    have hpos : data.length ≠ 0 := fun h => hd (length_eq_zero_iff.1 h)
    obtain ⟨n, rfl⟩ := Nat.exists_eq_succ_of_ne_zero (show fuel ≠ 0 by omega)
    have hmem : p ∉ visited := fun hm => (nodup_cons.1 hnd).1 (mem_append_right _ hm)
    by_cases hlen : visited.length < maxPagesVisited
    · have hreads : (⟨data.length, p, visited, []⟩ : ChainState).Reads := ⟨hpos, hp, hmem, hlen⟩
      have hnd' : (pages ++ p :: visited).Nodup := by
        have hperm : (pages ++ p :: visited).Perm (p :: (pages ++ visited)) := perm_middle
        exact hperm.nodup_iff.2 hnd
      have hrest := ih hnd' n (by rw [length_drop]; unfold chunkSize; omega) (by rw [length_cons]; omega)
      have hstep := @reassembleFrom_reads source (chunkSize us) pageNum n _ hreads
      simp only [chainPage_of_chain hs hb hd hh] at hstep
      have hsub : data.length - min data.length (chunkSize us) = (data.drop (chunkSize us)).length := by
        rw [length_drop]
        omega
      have hcount : pages.length + (p :: visited).length = (p :: pages).length + visited.length := by
        simp only [length_cons]
        omega
      rw [hstep, hsub, hrest, hcount]
      split
      · simp [Except.map]
      · rfl
    · have hlong : ¬((p :: pages).length + visited.length ≤ maxPagesVisited) := by
        rw [length_cons]
        omega
      rw [if_neg hlong, reassembleFrom, if_neg hpos, if_neg hp, if_neg hmem, if_pos (by omega)]

end

/-! ## Reading a cell back -/

section
variable {us : Nat} {v : View} {source : PageSource} {payload : Bytes} {kind : CellKind} {first : UInt32}
  {pages : List UInt32}

theorem CellKind.header_pos {len : Nat} : 0 < (kind.header len).length := by
  have h := varintLen_bounds len
  cases kind with
  | table rowid =>
    rw [CellKind.header, length_append, encodeVarint_length]
    omega
  | index =>
    rw [CellKind.header, encodeVarint_length]
    omega

theorem CellKind.bytes_ne_nil : kind.bytes us payload first ≠ [] := by
  refine ne_nil_of_length_pos ?_
  rw [CellKind.bytes, length_append]
  exact Nat.add_pos_left CellKind.header_pos _

theorem holds_drop {b d : Bytes} {o k : Nat} (h : Holds b o d) (hk : k ≤ o) : Holds (b.drop k) (o - k) d := by
  rw [Holds, slice, drop_drop, Nat.add_sub_cancel' hk]
  exact h

/-- What is read of a cell at any place of a page, with its chain. -/
theorem reassemblePayload_bytes {b : Bytes} {o : Nat} {p : UInt32} (hs : Serves source v)
    (hch : Chain us v first pages (payload.drop (kind.localSize us payload.length))) (hnd : pages.Nodup)
    (hlen : payload.length ≤ maxPayloadLen) (h : Holds b o (kind.bytes us payload first)) :
    reassemblePayload source us p b (o + (kind.header payload.length).length) payload.length kind.isIndex =
      if pages.length ≤ maxPagesVisited then .ok payload else .error (.overflowChainTooLong p maxPagesVisited) := by
  have hlocal : localPayloadSize us payload.length kind.isIndex = kind.localSize us payload.length := rfl
  have hle := CellKind.localSize_le us payload kind
  have hend := h.le CellKind.bytes_ne_nil
  rw [CellKind.bytes_length, cellEnd, hlocal] at hend
  obtain ⟨-, hrest⟩ := holds_append.1 h
  obtain ⟨htake, hfirst⟩ := holds_append.1 hrest
  rw [length_take, Nat.min_eq_left hle] at hfirst
  have htake' := holds_drop htake (Nat.le_refl _)
  have hfirst' := holds_drop hfirst (Nat.le_add_right _ _)
  rw [Nat.sub_self] at htake'
  rw [Nat.add_sub_cancel_left] at hfirst'
  have hget : getRange (b.drop (o + (kind.header payload.length).length)) 0 (kind.localSize us payload.length) =
      some (payload.take (kind.localSize us payload.length)) := by
    rw [getRange_of_le (Nat.zero_le _) (by rw [length_drop]; omega), Nat.sub_zero]
    rw [Holds, length_take, Nat.min_eq_left hle] at htake'
    rw [htake']
  rw [reassemblePayload, if_neg (by omega), tailFrom, if_pos (by omega)]
  simp only [bind, Except.bind, hlocal, hget]
  by_cases hlt : kind.localSize us payload.length < payload.length
  · rw [if_pos hlt] at hfirst'
    have hchain := @reassembleFrom_chain us v source first p pages [] _ hs hch (by simpa using hnd)
      (payload.length - kind.localSize us payload.length) (by rw [length_drop]) (Nat.zero_le _)
    rw [length_drop, length_nil, Nat.add_zero, chunkSize] at hchain
    have hget₄ := hfirst'.getRange (by simp [be32])
    rw [be32_length] at hget₄
    rw [if_neg (by omega), hget₄]
    simp only [ofBe32_be32, hchain]
    by_cases hshort : pages.length ≤ maxPagesVisited
    · simp only [hshort, if_true, take_append_drop]
    · simp only [hshort, if_false]
  · have heq : kind.localSize us payload.length = payload.length := by omega
    rw [drop_eq_nil_of_le (by omega)] at hch
    rw [if_pos heq, hch.nil_inv.2, length_nil, if_pos (Nat.zero_le _), heq, take_length]

end

/-! ## The places that decode a cell -/

/-- The first overflow page of a cell, where it has one. -/
def CellKind.overflow (us : Nat) (payload : Bytes) (first : UInt32) (kind : CellKind) : Option UInt32 :=
  if kind.localSize us payload.length < payload.length then some first else none

/-- What the functions on a table leaf find of a cell on it, between cells of
other rows. -/
structure TablePlaces (us : Nat) (rowid : Int64) (cell : Bytes) (overflow : Option UInt32) : Prop where
  collectLeafCells {hs : Nat} {ty : UInt8} {b : Bytes} {p : UInt32} {placed : List (Nat × Bytes)}
    {pre post : List (Int64 × Bytes)} : Cells hs 8 ty placed b →
    placed.map Prod.snd = (pre ++ (rowid, cell) :: post).map Prod.snd → (∀ r ∈ pre ++ post, TableRow us r) →
    Btree.collectLeafCells b hs p us = .ok (pre ++ (rowid, cell) :: post)
  /-- The bytes of all cells are summed up. -/
  scanLeafCells {hs : Nat} {ty : UInt8} {b : Bytes} {p : UInt32} {placed : List (Nat × Bytes)}
    {pre post : List (Int64 × Bytes)} {new : Int64} : Cells hs 8 ty placed b →
    placed.map Prod.snd = (pre ++ (rowid, cell) :: post).map Prod.snd → (∀ r ∈ pre ++ post, TableRow us r) →
    new ∉ (pre ++ (rowid, cell) :: post).map Prod.fst →
    ∃ pos, Btree.scanLeafCells b hs p us new = .ok (pos, (pre ++ (rowid, cell) :: post).length,
      (pre.map fun r => r.2.length).sum + cell.length + (post.map fun r => r.2.length).sum)
  findLeafCell {hs : Nat} {ty : UInt8} {b : Bytes} {p : UInt32} {placed : List (Nat × Bytes)}
    {pre post : List (Int64 × Bytes)} : Cells hs 8 ty placed b →
    placed.map Prod.snd = (pre ++ (rowid, cell) :: post).map Prod.snd → (∀ r ∈ pre ++ post, TableRow us r) →
    rowid ∉ pre.map Prod.fst →
    Btree.findLeafCell b hs p us rowid =
      .ok (some (pre.length, (pre ++ (rowid, cell) :: post).length, overflow.getD 0))

/-- What the functions on index cells find of one at any place of a page. -/
structure IndexPlaces (us : Nat) (payload cell : Bytes) (overflow : Option UInt32) : Prop where
  valueCellLen {b : Bytes} {o : Nat} {p : UInt32} : Holds b o cell → Index.valueCellLen b o p us = .ok cell.length
  /-- The cell's bytes come with the key that its payload holds. -/
  decodeValueCell {source : PageSource} {b : Bytes} {o tail : Nat} {p : UInt32} {encoding : TextEncoding} : Holds b o cell →
    decodePayloadLen b o p = .ok (payload.length, tail) →
    reassemblePayload source us p b tail payload.length true = .ok payload →
    Index.decodeValueCell source b o p us encoding =
      ((decodeRecord payload encoding).mapError .invalidKeyRecord).map fun key => (key, cell)
  overflowPageOf : Index.overflowPageOf cell us = .ok (overflow.getD 0)

/-- What both kinds of cells have in common; `splice_delete_cell` is
`takeOutCell` and the release of the bytes that it returns. -/
structure CellPlaces (us : Nat) (kind : CellKind) (payload cell : Bytes) (overflow : Option UInt32) : Prop where
  firstOverflowPage {b : Bytes} {o : Nat} {p : UInt32} : Holds b o cell →
    Btree.firstOverflowPage b (o + (kind.header payload.length).length) payload.length us p kind.isIndex = .ok overflow
  spliceDeleteCell {hs : Nat} {ty : UInt8} {b : Bytes} {p : UInt32} {pre post : List (Nat × Bytes)} {o cs : Nat}
    {blocks : List (Nat × Nat)} : Cells hs 8 ty (pre ++ (o, cell) :: post) b →
    Space hs (pre ++ (o, cell) :: post) blocks cs b →
    Btree.spliceDeleteCell hs p us pre.length (!kind.isIndex) =
        takeOutCell hs p us pre.length (!kind.isIndex) >>= (fun range => freeRange hs p range.1 range.2) ∧
      Edit.Does True (takeOutCell hs p us pre.length (!kind.isIndex)) b fun range _ => range = (o, o + cell.length)

section
variable {us : Nat} {payload : Bytes} {kind : CellKind} {first : UInt32}

theorem tablePlaces (rowid : Int64) (hlen : payload.length < 2 ^ 64) :
    TablePlaces us rowid ((CellKind.table rowid).bytes us payload first)
      ((CellKind.table rowid).overflow us payload first) := by
  have hcell : TableCell us rowid ((CellKind.table rowid).bytes us payload first) payload.length
      ((CellKind.table rowid).header payload.length).length :=
    ⟨CellKind.bytes_table_head rowid hlen, CellKind.bytes_length⟩
  have hrow {pre post : List (Int64 × Bytes)} (h : ∀ r ∈ pre ++ post, TableRow us r) :
      ∀ r ∈ pre ++ (rowid, (CellKind.table rowid).bytes us payload first) :: post, TableRow us r := by
    intro r hr
    rcases mem_append.1 hr with hr | hr
    · exact h r (mem_append_left _ hr)
    · rcases mem_cons.1 hr with rfl | hr
      · exact ⟨_, _, hcell⟩
      · exact h r (mem_append_right _ hr)
  refine ⟨fun hc hp hr => collectLeafCells_eq hc hp (hrow hr), fun {hs ty b p placed pre post new} hc hp hr hnew => ?_,
    fun {hs ty b p placed pre post} hc hp hr hpre => ?_⟩
  · have hscan := scanLeafCells_eq (p := p) new hc hp (hrow hr)
    rw [if_neg hnew, map_append, map_cons, sum_append, sum_cons, ← Nat.add_assoc] at hscan
    exact ⟨_, hscan⟩
  · obtain ⟨first', hfirst', hget⟩ := hcell.overflow
    obtain rfl := Except.ok.inj (hfirst'.symm.trans CellKind.bytes_firstOverflowPage)
    have hnot (r : Int64 × Bytes) (hr : r ∈ pre) : r.1 ≠ rowid := fun h => hpre (h ▸ mem_map_of_mem hr)
    have hfind : pre.find? (fun r => decide (r.1 = rowid)) = none := List.find?_eq_none.2 (by simpa using hnot)
    have hidx : pre.findIdx (fun r => decide (r.1 = rowid)) = pre.length :=
      findIdx_eq_length.2 (by simpa using hnot)
    rw [findLeafCell_eq _ hc hp (hrow hr), List.find?_append, hfind, findIdx_append, hidx]
    simp [CellKind.overflow, hget, findIdx_cons]

theorem indexPlaces (hlen : payload.length < 2 ^ 64) :
    IndexPlaces us payload (CellKind.index.bytes us payload first) (CellKind.index.overflow us payload first) := by
  have hne : CellKind.index.bytes us payload first ≠ [] := CellKind.bytes_ne_nil
  have hl : (CellKind.index.bytes us payload first).length = _ := CellKind.bytes_length
  refine ⟨fun {b o p} h => ?_, fun {source b o tail p encoding} h hhead hread => ?_, ?_⟩
  · obtain ⟨hhead, -⟩ := decodePayloadLen_at (p := p) h hne (CellKind.bytes_index_head hlen)
    simp only [Index.valueCellLen, hhead, bind, Except.bind, cellEnd_add]
    rw [hl, Nat.add_sub_cancel_left]
    rfl
  · obtain ⟨hhead', -⟩ := decodePayloadLen_at (p := p) h hne (CellKind.bytes_index_head hlen)
    obtain rfl : tail = o + (CellKind.index.header payload.length).length := by
      cases hhead.symm.trans hhead'
      rfl
    have hget := h.getRange hne
    rw [hl, ← cellEnd_add] at hget
    simp only [Index.decodeValueCell, hhead, bind, Except.bind, hread]
    rw [CellKind.isIndex] at hget
    rw [hget]
    cases (decodeRecord payload encoding).mapError BtreeError.invalidKeyRecord <;> rfl
  · simp only [Index.overflowPageOf, CellKind.bytes_index_head hlen, bind, Except.bind, CellKind.overflow]
    by_cases hlt : CellKind.index.localSize us payload.length < payload.length
    · rw [if_pos hlt, if_pos (show localPayloadSize us payload.length true < payload.length from hlt)]
      exact readU32_of_holds (CellKind.holds_payload.2 hlt)
    · rw [if_neg hlt, if_neg (show ¬localPayloadSize us payload.length true < payload.length from hlt)]
      rfl

theorem cellPlaces (hlen : payload.length < 2 ^ 64) :
    CellPlaces us kind payload (kind.bytes us payload first) (kind.overflow us payload first) := by
  have hne : kind.bytes us payload first ≠ [] := CellKind.bytes_ne_nil
  have hl : (kind.bytes us payload first).length = _ := CellKind.bytes_length
  refine ⟨fun {b o p} h => firstOverflowPage_at h hl CellKind.header_pos CellKind.bytes_firstOverflowPage,
    fun {hs ty b p pre post o cs blocks} hc hsp => ⟨spliceDeleteCell_eq _ _ _, ?_⟩⟩
  have hdec : (if !kind.isIndex then Prod.snd <$> decodeCellHead b o p else decodePayloadLen b o p) =
      .ok (payload.length, o + (kind.header payload.length).length) := by
    cases kind with
    | table rowid =>
      rw [CellKind.isIndex, Bool.not_false, if_pos rfl,
        (decodeCellHead_at hc.holds hne (CellKind.bytes_table_head rowid hlen)).1]
      rfl
    | index =>
      rw [CellKind.isIndex, Bool.not_true, if_neg Bool.false_ne_true]
      exact (decodePayloadLen_at hc.holds hne (CellKind.bytes_index_head hlen)).1
  have hend : cellEnd us (o + (kind.header payload.length).length) payload.length (!!kind.isIndex) =
      o + (kind.bytes us payload first).length := by rw [Bool.not_not, cellEnd_add, hl]
  exact (takeOutCell_does hc hsp hdec hend).mono fun _ _ h => h.1

end

/-! ## Writing and reading back -/

/-- The pager as the source of pages for a cursor. The cursor's reads may fill
the pager's cache, which does not change what is read. -/
def connSource (s : Conn) : PageSource := fun p => (s.readPage p).1

theorem connSource_serves (s : Conn) : Serves (connSource s) s.pages := fun _ _ h => toOption_eq_some h

/-- The overflow pages that a payload needs. -/
def CellKind.pagesNeeded (us len : Nat) (kind : CellKind) : Nat := overflowPages us (len - kind.localSize us len)

/-- A cell of a payload that was written, with what is read of it in `s`. -/
structure CellWritten (us : Nat) (kind : CellKind) (payload : Bytes) (used : Finset UInt32) (cell : Bytes) (s : Conn)
    (first : UInt32) (pages : List UInt32) : Prop where
  cell : cell = kind.bytes us payload first
  chain : Chain us s.pages first pages (payload.drop (kind.localSize us payload.length))
  nodup : pages.Nodup
  new : Disjoint pages.toFinset used
  /-- The chain has the pages that the bytes beside the local ones need. -/
  length : pages.length = kind.pagesNeeded us payload.length

section
variable {ps : UInt32} {us : Nat} {payload : Bytes} {s : Conn} {used : Finset UInt32}

/-- A payload is written where the page numbers for its chain do not run out. -/
theorem encode_writes (hus : Usable ps us) (kind : CellKind) (hc : CacheOk s) (hps : s.pager.pageSize = ps)
    (h : Owns ps s.pages used) (hroom : used.card + kind.pagesNeeded us payload.length < 2 ^ 32) :
    ∃ cell s' first pages, Action.exec (kind.encode (connOps ps) us payload) s = (.ok cell, s') ∧
      CellWritten us kind payload used cell s' first pages := by
  have hmeets := CellKind.encode_meets (T := True) (conn_lawful ps) rfl hus kind h hroom s ⟨hc, hps, rfl⟩
  revert hmeets
  cases hexec : Action.exec (kind.encode (connOps ps) us payload) s with
  | mk r s' =>
    cases r with
    | error e => exact fun hno => absurd trivial hno
    | ok cell =>
      rintro ⟨v', ⟨-, -, rfl⟩, first, pages, hcell, hch, hnd, hd, hpl, -, -⟩
      refine ⟨cell, s', first, pages, rfl, hcell, ?_, hnd, hd, hpl⟩
      refine hch.congr fun p hp => (body_of_ne_one _ ?_).symm
      rintro rfl
      exact Finset.disjoint_left.1 hd (mem_toFinset.2 hp) h.one

theorem CellWritten.read {kind : CellKind} {cell : Bytes} {first : UInt32} {pages : List UInt32}
    (h : CellWritten us kind payload used cell s first pages) (hlen : payload.length ≤ maxPayloadLen) {b : Bytes} {o : Nat}
    (p : UInt32) (hb : Holds b o cell) :
    reassemblePayload (connSource s) us p b (o + (kind.header payload.length).length) payload.length kind.isIndex =
      if kind.pagesNeeded us payload.length ≤ maxPagesVisited then .ok payload
      else .error (.overflowChainTooLong p maxPagesVisited) := by
  rw [← h.length]
  exact reassemblePayload_bytes (connSource_serves s) h.chain h.nodup hlen (h.cell ▸ hb)

end

/-- What the other places find of a cell. -/
def CellKind.Places (us : Nat) (payload cell : Bytes) (overflow : Option UInt32) : CellKind → Prop
  | .table rowid => TablePlaces us rowid cell overflow
  | .index => IndexPlaces us payload cell overflow

/-- A payload of at most `MAX_PAYLOAD_LEN` bytes is written as a cell and a
chain of the pages it needs; the cell fits an empty leaf, every place that
decodes it agrees, and the payload is read back if and only if the chain is not
longer than a reader follows. -/
theorem cell_read_back {ps : UInt32} {us : Nat} (hus : Usable ps us) (kind : CellKind) {payload : Bytes}
    (hlen : payload.length ≤ maxPayloadLen) {s : Conn} (hc : CacheOk s) (hps : s.pager.pageSize = ps)
    {used : Finset UInt32} (h : Owns ps s.pages used)
    (hroom : used.card + kind.pagesNeeded us payload.length < 2 ^ 32) :
    ∃ cell s' first pages, Action.exec (kind.encode (connOps ps) us payload) s = (.ok cell, s') ∧
      CellWritten us kind payload used cell s' first pages ∧
      (∀ b o p, Holds b o cell →
        (reassemblePayload (connSource s') us p b (o + (kind.header payload.length).length) payload.length kind.isIndex =
          .ok payload ↔ kind.pagesNeeded us payload.length ≤ maxPagesVisited)) ∧
      neededBytes 8 [cell] ≤ us ∧ CellPlaces us kind payload cell (kind.overflow us payload first) ∧
      kind.Places us payload cell (kind.overflow us payload first) := by
  have hlen64 : payload.length < 2 ^ 64 := Nat.lt_of_le_of_lt hlen (by decide)
  obtain ⟨cell, s', first, pages, hexec, hw⟩ := encode_writes hus kind hc hps h hroom
  refine ⟨cell, s', first, pages, hexec, hw, fun b o p hb => ?_, ?_, ?_, ?_⟩
  · rw [hw.read hlen p hb]
    split
    · simp [*]
    · simp [*]
  · have hfit : (kind.bytes us payload first).length + 13 ≤ us := CellKind.bytes_fit hus
    rw [← hw.cell] at hfit
    simp only [neededBytes, foldl_cons, foldl_nil]
    omega
  · exact hw.cell ▸ cellPlaces hlen64
  · cases kind with
    | table rowid => exact hw.cell ▸ tablePlaces rowid hlen64
    | index => exact hw.cell ▸ indexPlaces hlen64

theorem threePages_owns : Owns 512 threePages.conn.pages {1, 2, 3} := by
  refine ⟨by decide, 3, [], threePages_heap.perm ?_⟩
  have herase : ({1, 2, 3} : Finset UInt32).erase 1 = [2, 3].toFinset := by decide
  rw [herase]
  exact toFinset_toList (by decide)

/-- A row that takes one overflow page. -/
def longRow : Bytes := replicate 600 1

/-- The row is written to a database of three pages, and read back. -/
theorem long_row_read_back : (CellKind.table 7).pagesNeeded 512 longRow.length = 1 ∧
    ∃ cell s' first pages, Action.exec ((CellKind.table 7).encode (connOps 512) 512 longRow) threePages.conn =
        (.ok cell, s') ∧ CellWritten 512 (.table 7) longRow {1, 2, 3} cell s' first pages ∧
      reassemblePayload (connSource s') 512 2 cell (0 + ((CellKind.table 7).header longRow.length).length)
        longRow.length false = .ok longRow := by
  have hpages : (CellKind.table 7).pagesNeeded 512 longRow.length = 1 := by decide +kernel
  have hus : Usable 512 512 := ⟨by decide, by decide⟩
  have hlen : longRow.length ≤ maxPayloadLen := by decide +kernel
  obtain ⟨cell, s', first, pages, hexec, hw, hread, -⟩ :=
    cell_read_back hus (.table 7) hlen (cacheOk_ofFile _ _) rfl threePages_owns (by rw [hpages]; decide)
  refine ⟨hpages, cell, s', first, pages, hexec, hw, (hread cell 0 2 (by rw [Holds, slice_self_length])).2 ?_⟩
  rw [hpages]
  decide

/-- A payload with a chain of 1,000,001 pages of 512 bytes. -/
@[irreducible] def longPayload : Bytes := List.replicate 508000547 0

theorem longPayload_length : longPayload.length = 508000547 := by
  unfold longPayload
  exact length_replicate

/-- The payload is written and cannot be read back. -/
theorem long_payload_lost : longPayload.length ≤ maxPayloadLen ∧
    ∃ cell s', Action.exec ((CellKind.table 7).encode (connOps 512) 512 longPayload) threePages.conn = (.ok cell, s') ∧
      reassemblePayload (connSource s') 512 2 cell ((CellKind.table 7).header longPayload.length).length
        longPayload.length false = .error (.overflowChainTooLong 2 maxPagesVisited) := by
  have hlen : longPayload.length ≤ maxPayloadLen := by
    rw [longPayload_length]
    decide
  have hpages : (CellKind.table 7).pagesNeeded 512 longPayload.length = 1000001 := by
    rw [longPayload_length]
    decide
  have hus : Usable 512 512 := ⟨by decide, by decide⟩
  have hroom : ({1, 2, 3} : Finset UInt32).card + (CellKind.table 7).pagesNeeded 512 longPayload.length < 2 ^ 32 := by
    rw [hpages]
    decide
  obtain ⟨cell, s', first, pages, hexec, hw⟩ :=
    encode_writes hus (.table 7) (cacheOk_ofFile _ _) rfl threePages_owns hroom
  have hself : Holds cell 0 cell := by rw [Holds, slice_self_length]
  have hread := hw.read hlen 2 hself
  rw [hpages, if_neg (by decide), Nat.zero_add] at hread
  exact ⟨hlen, cell, s', hexec, hread⟩

end DbStorage.Btree
