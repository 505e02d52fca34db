import DbStorage.Btree.Page

/-!
# The layout of a b-tree page

`Cells hs hl ty cells b`: the page `b` has its b-tree header at `hs`, with
type `ty` and a header of `hl` bytes, and its pointer array leads to
`cells`, each given with its offset.

Results: what the walks over a page return (`collectLeafCells_eq`,
`scanLeafCells_eq`, `findLeafCell_eq`), in terms of the rows in the cells.
-/
namespace DbStorage.Btree
open Bytes Pager Record List

/-! ## Edits -/

/-- From the page `b`, if the edit succeeds its result and the page
afterwards meet `Q`, and it succeeds where `T` holds. -/
abbrev Edit.Does {α : Type} (T : Prop) (f : Edit α) (b : Bytes) (Q : α → Bytes → Prop) : Prop :=
  Action.Meets Eq T f b Q

section
variable {α β : Type} {T : Prop} {b : Bytes} {p : UInt32}

theorem Edit.Does.ofFn {f : Bytes → Except BtreeError α × Bytes} {a : α} {b' : Bytes} {Q : α → Bytes → Prop}
    (h : f b = (.ok a, b')) (hq : Q a b') : Edit.Does T (Action.ofFn f) b Q := by
  intro s hs
  subst hs
  rw [Action.exec_ofFn, h]
  exact ⟨b', rfl, hq⟩

theorem Edit.Does.read {f : Bytes → Except BtreeError α} {a : α} {Q : α → Bytes → Prop} (h : f b = .ok a)
    (hq : Q a b) : Edit.Does T (Edit.read f) b Q := .ofFn (congrArg (·, b) h) hq

theorem put_does {o : Nat} {d : Bytes} {Q : Unit → Bytes → Prop} (h : o + d.length ≤ b.length)
    (hq : Q () (b.writeAt d o)) : Edit.Does T (put o d p) b Q := .ofFn (if_pos h) hq

end

/-! ## Words -/

variable {v n len tail : Nat} {rowid : Int64}

section
variable {b : Bytes} {o : Nat} {p : UInt32}

theorem readU16Or_of_holds (e : BtreeError) (h : Holds b o (be16 v)) (hv : v < 65536) : readU16Or b e o = .ok v := by
  have hr := h.getRange (be16_ne_nil v)
  rw [be16_length] at hr
  rw [readU16Or, hr]
  exact congrArg Except.ok (ofBe16_be16 hv)

theorem readU32_of_holds {v : UInt32} (h : Holds b o (be32 v)) : readU32 b o p = .ok v := by
  have hr := h.getRange (cons_ne_nil _ _)
  rw [be32_length] at hr
  rw [readU32, hr]
  exact congrArg Except.ok (ofBe32_be32 v)

end

/-! ## Cells at their offsets -/

/-- The header's type and cell count, the pointer array and the cells. -/
structure Cells (hs hl : Nat) (ty : UInt8) (cells : List (Nat × Bytes)) (b : Bytes) : Prop where
  type : Holds b hs [ty]
  count : Holds b (hs + 3) (be16 cells.length)
  pointers : Holds b (hs + hl) ((cells.map Prod.fst).flatMap be16)
  cell : ∀ c ∈ cells, Holds b c.1 c.2
  offset_lt : ∀ c ∈ cells, c.1 < 65536
  length_lt : cells.length < 65536

section
variable {hs hl : Nat} {ty : UInt8} {b : Bytes} {p : UInt32} {cells pre post : List (Nat × Bytes)} {c : Nat × Bytes}

theorem Cells.readNumCells (h : Cells hs hl ty cells b) : readNumCells b hs p = .ok cells.length :=
  readU16Or_of_holds _ h.count h.length_lt

theorem Cells.readCellPointer (h : Cells hs hl ty (pre ++ c :: post) b) :
    readCellPointer b (cellPtrOffset (hs + hl) pre.length) p pre.length = .ok c.1 :=
  readU16Or_of_holds _ (h.pointers.word (by simp)) (h.offset_lt c (by simp))

theorem Cells.holds (h : Cells hs hl ty (pre ++ c :: post) b) : Holds b c.1 c.2 := h.cell c (by simp)

end

/-! ## Reading one cell

What is read of a cell on a page is what is read of its bytes alone. -/

section
variable {b c : Bytes} {o : Nat} {p : UInt32}

theorem tailFrom_of_le {e : BtreeError} (h : o ≤ b.length) : tailFrom b e o = .ok (b.drop o) := if_pos h

theorem decodeCellVarint_ok (h : decodeCellVarint p c = .ok (v, n)) : decodeVarint c = .ok (v, n) := by
  unfold decodeCellVarint at h
  cases hd : decodeVarint c with
  | ok a => rw [hd] at h; cases h; rfl
  | error e => rw [hd] at h; cases h

theorem decodeCellVarint_append (h : decodeCellVarint p c = .ok (v, n)) (q : UInt32) (rest : Bytes) :
    decodeCellVarint q (c ++ rest) = .ok (v, n) ∧ 0 < n ∧ n ≤ c.length := by
  have := decodeVarint_append (decodeCellVarint_ok h) rest
  refine ⟨?_, this.2⟩
  rw [decodeCellVarint, this.1]
  rfl

/-- A table leaf's cell with its rowid, its payload length and where the
payload starts in it. -/
structure TableCell (us : Nat) (rowid : Int64) (c : Bytes) (len tail : Nat) : Prop where
  head : decodeCellHead c 0 0 = .ok (rowid, len, tail)
  length : c.length = cellEnd us tail len false

/-- An index cell's value with its payload length and where the payload
starts in it. -/
structure IndexCell (us : Nat) (c : Bytes) (len tail : Nat) : Prop where
  head : decodePayloadLen c 0 0 = .ok (len, tail)
  length : c.length = cellEnd us tail len true

theorem decodeCellHead_at (h : Holds b o c) (hc : c ≠ []) (hd : decodeCellHead c 0 0 = .ok (rowid, len, tail)) :
    decodeCellHead b o p = .ok (rowid, len, o + tail) ∧ 0 < tail ∧ tail ≤ c.length := by
  rw [decodeCellHead, tailFrom_of_le (Nat.zero_le _), drop_zero] at hd
  simp only [bind, Except.bind] at hd
  cases h₁ : decodeCellVarint 0 c with
  | error e => rw [h₁] at hd; cases hd
  | ok r₁ =>
    obtain ⟨len', n₁⟩ := r₁
    obtain ⟨e₁, hn₁, hle₁⟩ := decodeCellVarint_append h₁ p (b.drop (o + c.length))
    rw [h₁] at hd
    simp only [tailFrom_of_le hle₁] at hd
    cases h₂ : decodeCellVarint 0 (c.drop n₁) with
    | error e => rw [h₂] at hd; cases hd
    | ok r₂ =>
      obtain ⟨rid, n₂⟩ := r₂
      obtain ⟨e₂, hn₂, hle₂⟩ := decodeCellVarint_append h₂ p (b.drop (o + c.length))
      rw [h₂] at hd
      cases hd
      rw [length_drop] at hle₂
      refine ⟨?_, by omega, by omega⟩
      have hlen : n₁ ≤ (c ++ b.drop (o + c.length)).length := by rw [length_append]; omega
      rw [decodeCellHead, tailFrom_of_le (h.offset_le hc), h.drop]
      simp only [bind, Except.bind, e₁, tailFrom_of_le hlen]
      rw [drop_append_of_le_length hle₁]
      simp only [e₂, Nat.zero_add, Nat.add_assoc]

theorem decodePayloadLen_at (h : Holds b o c) (hc : c ≠ []) (hd : decodePayloadLen c 0 0 = .ok (len, tail)) :
    decodePayloadLen b o p = .ok (len, o + tail) ∧ 0 < tail ∧ tail ≤ c.length := by
  rw [decodePayloadLen, tailFrom_of_le (Nat.zero_le _), drop_zero] at hd
  simp only [bind, Except.bind] at hd
  cases h₁ : decodeCellVarint 0 c with
  | error e => rw [h₁] at hd; cases hd
  | ok r₁ =>
    obtain ⟨e₁, hn₁, hle₁⟩ := decodeCellVarint_append h₁ p (b.drop (o + c.length))
    rw [h₁] at hd
    cases hd
    refine ⟨?_, by omega, by omega⟩
    rw [decodePayloadLen, tailFrom_of_le (h.offset_le hc), h.drop]
    simp only [bind, Except.bind, e₁, Nat.zero_add]

theorem localPayloadSize_le (us len : Nat) (isIndex : Bool) (h : maxLocal us isIndex < len) :
    localPayloadSize us len isIndex ≤ maxLocal us isIndex := by
  have hmin : (us - 12) * 32 / 255 - 23 ≤ maxLocal us isIndex := by
    unfold maxLocal
    split <;> omega
  unfold localPayloadSize
  rw [if_neg (by omega)]
  dsimp only
  split
  · assumption
  · exact hmin

theorem localPayloadSize_le_len (us len : Nat) (isIndex : Bool) : localPayloadSize us len isIndex ≤ len := by
  by_cases h : len ≤ maxLocal us isIndex
  · exact Nat.le_of_eq (if_pos h)
  · exact Nat.le_trans (localPayloadSize_le us len isIndex (by omega)) (by omega)

theorem cellEnd_add (us tail len : Nat) (isIndex : Bool) (o : Nat) :
    cellEnd us (o + tail) len isIndex = o + cellEnd us tail len isIndex := by
  simp only [cellEnd, Nat.add_assoc]

theorem firstOverflowPage_at {us : Nat} {isIndex : Bool} (h : Holds b o c) (hl : c.length = cellEnd us tail len isIndex)
    (htail : 0 < tail) {first : Option UInt32} (hf : firstOverflowPage c tail len us 0 isIndex = .ok first) :
    firstOverflowPage b (o + tail) len us p isIndex = .ok first := by
  unfold firstOverflowPage at hf ⊢
  dsimp only at hf ⊢
  split at hf
  · rename_i hlt
    rw [if_pos hlt]
    have hc : c ≠ [] := by
      rintro rfl
      simp only [cellEnd, length_nil] at hl
      omega
    have hr : c.getRange (tail + localPayloadSize us len isIndex) (tail + localPayloadSize us len isIndex + 4) =
        some (slice c (tail + localPayloadSize us len isIndex) 4) := by
      rw [getRange_of_le (Nat.le_add_right _ _) (by rw [hl, cellEnd, if_pos hlt]), Nat.add_sub_cancel_left]
    have hb : b.getRange (o + tail + localPayloadSize us len isIndex) (o + tail + localPayloadSize us len isIndex + 4) =
        some (slice c (tail + localPayloadSize us len isIndex) 4) := by
      have hle := h.le hc
      rw [hl, cellEnd, if_pos hlt] at hle
      rw [getRange_of_le (Nat.le_add_right _ _) (by omega), Nat.add_sub_cancel_left]
      have hslice := slice_slice b o c.length (tail + localPayloadSize us len isIndex) 4
        (by rw [hl, cellEnd, if_pos hlt])
      rw [h, ← Nat.add_assoc] at hslice
      rw [hslice]
    rw [readU32, hr] at hf
    rw [readU32, hb]
    exact hf
  · rename_i hlt
    rw [if_neg hlt]
    exact hf

end

/-! ## The rows of a table leaf -/

theorem TableCell.ne_nil {us : Nat} {c : Bytes} (h : TableCell us rowid c len tail) : c ≠ [] := by
  intro hc
  have hd := h.head
  rw [hc] at hd
  cases hd

/-- The bytes of a row's cell. -/
def TableRow (us : Nat) (r : Int64 × Bytes) : Prop := ∃ len tail, TableCell us r.1 r.2 len tail

/-- The first overflow page of a table leaf's cell, 0 when there is none. -/
def cellOverflow (us : Nat) (c : Bytes) : UInt32 :=
  match decodeCellHead c 0 0 with
  | .error _ => 0
  | .ok (_, len, tail) =>
    match firstOverflowPage c tail len us 0 false with
    | .error _ => 0
    | .ok first => first.getD 0

theorem TableCell.overflow {us : Nat} {c : Bytes} (h : TableCell us rowid c len tail) :
    ∃ first, firstOverflowPage c tail len us 0 false = .ok first ∧ first.getD 0 = cellOverflow us c := by
  have hok : ∃ first, firstOverflowPage c tail len us 0 false = .ok first := by
    unfold firstOverflowPage
    dsimp only
    split
    · rename_i hlt
      have hle : tail + localPayloadSize us len false + 4 ≤ c.length := by
        refine Nat.le_of_eq ?_
        rw [h.length, cellEnd, if_pos hlt]
      rw [readU32, getRange_of_le (Nat.le_add_right _ _) hle]
      exact ⟨_, rfl⟩
    · exact ⟨_, rfl⟩
  obtain ⟨first, hf⟩ := hok
  exact ⟨first, hf, by rw [cellOverflow, h.head]; simp only [hf]⟩

section
variable {hs us : Nat} {ty : UInt8} {b : Bytes} {p : UInt32} {post : List (Nat × Bytes)}
  {rows : List (Int64 × Bytes)}

theorem collectLeafCellsFrom_eq (pre : List (Nat × Bytes)) (h : Cells hs 8 ty (pre ++ post) b)
    (hr : post.map Prod.snd = rows.map Prod.snd) (hw : ∀ r ∈ rows, TableRow us r) :
    collectLeafCellsFrom b (hs + 8) p us post.length pre.length = .ok rows := by
  induction post generalizing pre rows with
  | nil =>
    cases rows with
    | nil => rfl
    | cons r rows => cases hr
  | cons c post ih =>
    cases rows with
    | nil => cases hr
    | cons r rows =>
      rw [map_cons, map_cons, List.cons.injEq] at hr
      obtain ⟨len, tail, hc⟩ := hw r mem_cons_self
      have hne := hc.ne_nil
      rw [← hr.1] at hc hne
      have hrest := ih (pre ++ [c]) (by simpa using h) hr.2 fun x hx => hw x (mem_cons_of_mem _ hx)
      have hget := h.holds.getRange hne
      rw [hc.length, ← cellEnd_add] at hget
      rw [length_append, length_singleton] at hrest
      simp only [length_cons, collectLeafCellsFrom, h.readCellPointer, bind, Except.bind,
        (decodeCellHead_at h.holds hne hc.head).1, hget, hrest]
      rw [hr.1]

theorem collectLeafCells_eq (h : Cells hs 8 ty post b) (hr : post.map Prod.snd = rows.map Prod.snd)
    (hw : ∀ r ∈ rows, TableRow us r) : collectLeafCells b hs p us = .ok rows := by
  rw [collectLeafCells, h.readNumCells]
  exact collectLeafCellsFrom_eq [] h hr hw

theorem scanLeafCellsFrom_eq (pre : List (Nat × Bytes)) (rowid : Int64) (pos total : Nat)
    (h : Cells hs 8 ty (pre ++ post) b) (hr : post.map Prod.snd = rows.map Prod.snd) (hw : ∀ r ∈ rows, TableRow us r)
    (hn : pre.length + post.length = n) :
    scanLeafCellsFrom b (hs + 8) p us rowid n post.length pre.length pos total =
      if rowid ∈ rows.map Prod.fst then .error (.duplicateRowid rowid)
      else .ok (if pos = n then pre.length + rows.findIdx fun r => rowid < r.1 else pos,
        total + (rows.map fun r => r.2.length).sum) := by
  induction post generalizing pre rows pos total with
  | nil =>
    cases rows with
    | nil =>
      simp only [length_nil, scanLeafCellsFrom, map_nil, not_mem_nil, if_false, findIdx_nil,
        sum_nil, Nat.add_zero] at hn ⊢
      rw [hn]
      split <;> simp_all
    | cons r rows => cases hr
  | cons c post ih =>
    cases rows with
    | nil => cases hr
    | cons r rows =>
      rw [map_cons, map_cons, List.cons.injEq] at hr
      obtain ⟨len, tail, hc⟩ := hw r mem_cons_self
      have hne := hc.ne_nil
      rw [← hr.1] at hc hne
      have hle := h.holds.le hne
      have hstop : cellEnd us (c.1 + tail) len false = c.1 + c.2.length := by rw [cellEnd_add, hc.length]
      rw [length_cons] at hn
      simp only [length_cons, scanLeafCellsFrom, h.readCellPointer, bind, Except.bind,
        (decodeCellHead_at h.holds hne hc.head).1, hstop, if_neg (Nat.not_lt.2 hle), Nat.add_sub_cancel_left]
      by_cases heq : r.1 = rowid
      · simp [heq]
      · rw [if_neg heq]
        have hrest := ih (pre ++ [c]) (if rowid < r.1 ∧ pos = n then pre.length else pos)
          (total + c.2.length) (by simpa using h) hr.2 (fun x hx => hw x (mem_cons_of_mem _ hx))
          (by rw [length_append, length_singleton]; omega)
        rw [length_append, length_singleton] at hrest
        rw [hrest]
        have hmem : rowid ∈ (r :: rows).map Prod.fst ↔ rowid ∈ rows.map Prod.fst := by
          simp [Ne.symm heq]
        simp only [hmem]
        simp only [findIdx_cons, map_cons, sum_cons, hr.1, Nat.add_assoc]
        by_cases hlt : rowid < r.1
        · by_cases hpos : pos = n
          · simp [hlt, hpos, show pre.length ≠ n by omega]
          · simp [hpos]
        · by_cases hpos : pos = n
          · simp [hlt, hpos, Nat.add_comm]
          · simp [hpos]

theorem scanLeafCells_eq (rowid : Int64) (h : Cells hs 8 ty post b) (hr : post.map Prod.snd = rows.map Prod.snd)
    (hw : ∀ r ∈ rows, TableRow us r) :
    scanLeafCells b hs p us rowid =
      if rowid ∈ rows.map Prod.fst then .error (.duplicateRowid rowid)
      else .ok (rows.findIdx fun r => rowid < r.1, rows.length, (rows.map fun r => r.2.length).sum) := by
  have hlen : post.length = rows.length := by
    have := congrArg List.length hr
    rwa [length_map, length_map] at this
  have hscan := scanLeafCellsFrom_eq (p := p) [] rowid post.length 0 h hr hw
    (Nat.zero_add _)
  rw [length_nil, hlen] at hscan
  rw [scanLeafCells, h.readNumCells, hlen]
  simp only [bind, Except.bind, hscan, if_true, Nat.zero_add]
  by_cases hm : rowid ∈ rows.map Prod.fst
  · rw [if_pos hm, if_pos hm]
  · rw [if_neg hm, if_neg hm]

theorem findLeafCellFrom_eq (pre : List (Nat × Bytes)) (rowid : Int64) (h : Cells hs 8 ty (pre ++ post) b)
    (hr : post.map Prod.snd = rows.map Prod.snd) (hw : ∀ r ∈ rows, TableRow us r) :
    findLeafCellFrom b (hs + 8) p us rowid post.length pre.length =
      .ok ((rows.find? (·.1 = rowid)).map fun r =>
        (pre.length + rows.findIdx (·.1 = rowid), cellOverflow us r.2)) := by
  induction post generalizing pre rows with
  | nil =>
    cases rows with
    | nil => rfl
    | cons r rows => cases hr
  | cons c post ih =>
    cases rows with
    | nil => cases hr
    | cons r rows =>
      rw [map_cons, map_cons, List.cons.injEq] at hr
      obtain ⟨len, tail, hc⟩ := hw r mem_cons_self
      have hne := hc.ne_nil
      obtain ⟨first, hf, hget⟩ := hc.overflow
      rw [← hr.1] at hc hne hf
      obtain ⟨hhead, htail, -⟩ := decodeCellHead_at (p := p) h.holds hne hc.head
      have hfirst := firstOverflowPage_at (p := p) h.holds hc.length htail hf
      have hrest := ih (pre ++ [c]) (by simpa using h) hr.2 fun x hx => hw x (mem_cons_of_mem _ hx)
      rw [length_append, length_singleton] at hrest
      simp only [length_cons, findLeafCellFrom, h.readCellPointer, bind, Except.bind, hhead, hfirst, hrest, hget]
      by_cases heq : r.1 = rowid
      · simp [heq, findIdx_cons]
      · simp [heq, findIdx_cons, Nat.add_assoc, Nat.add_comm 1]

theorem findLeafCell_eq (rowid : Int64) (h : Cells hs 8 ty post b) (hr : post.map Prod.snd = rows.map Prod.snd)
    (hw : ∀ r ∈ rows, TableRow us r) :
    findLeafCell b hs p us rowid = .ok ((rows.find? (·.1 = rowid)).map fun r =>
      (rows.findIdx (·.1 = rowid), rows.length, cellOverflow us r.2)) := by
  have hlen : post.length = rows.length := by
    have := congrArg List.length hr
    rwa [length_map, length_map] at this
  have hfind := findLeafCellFrom_eq (p := p) [] rowid h hr hw
  rw [length_nil, hlen] at hfind
  rw [findLeafCell, h.readNumCells, hlen]
  simp only [bind, Except.bind, hfind, Option.map_map, Nat.zero_add]
  rfl

end

theorem asI64_asU64 (rowid : Int64) : asI64 (asU64 rowid) = rowid := by
  simp [asI64, asU64]

theorem asU64_lt (rowid : Int64) : asU64 rowid < 2 ^ 64 := UInt64.toNat_lt _

end DbStorage.Btree
