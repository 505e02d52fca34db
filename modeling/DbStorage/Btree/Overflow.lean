import DbStorage.Btree.Store
import DbStorage.Btree.Table

/-!
# Overflow chains

A payload too large for its cell continues on a chain of overflow pages.
`Chain us v first pages data`: the pages `pages`, linked from `first`, hold
`data`.

Results: writing a chain takes new pages and no others
(`writeOverflowChain_meets`), and the two encoders write the same shape of
cell (`CellKind.encode_meets`).
-/
namespace DbStorage.Btree
open Bytes Pager Record

/-- The bytes of payload on an overflow page. -/
def chunkSize (us : Nat) : Nat := max (us - 4) 1

inductive Chain (us : Nat) (v : View) : UInt32 → List UInt32 → Bytes → Prop where
  | nil : Chain us v 0 [] []
  | cons {p next : UInt32} {b data : Bytes} {pages : List UInt32} : p ≠ 0 → data ≠ [] → v p = some b →
      Holds b 0 (be32 next ++ data.take (chunkSize us)) → Chain us v next pages (data.drop (chunkSize us)) →
      Chain us v p (p :: pages) data

section
variable {us : Nat} {v v' : View} {first : UInt32} {pages : List UInt32} {data : Bytes}

theorem Chain.congr (h : Chain us v first pages data) (hv : ∀ p ∈ pages, v' p = v p) :
    Chain us v' first pages data := by
  induction h with
  | nil => exact .nil
  | cons hp hd hb hh _ ih =>
    exact .cons hp hd ((hv _ List.mem_cons_self).trans hb) hh (ih fun q hq => hv q (List.mem_cons_of_mem _ hq))

theorem Chain.nil_inv (h : Chain us v first pages []) : first = 0 ∧ pages = [] := by
  cases h with
  | nil => exact ⟨rfl, rfl⟩
  | cons _ hd => exact absurd rfl hd

end

/-! ## Writing a chain -/

section
variable {σ : Type} {O : PageOps σ} {A : σ → View → Prop} {T : Prop} {ps : UInt32} {v : View}
  {used : Finset UInt32} {us : Nat}

theorem allocatePages_meets (L : O.Lawful A) (hO : O.pageSize = ps) (k : Nat) (h : Owns ps v used)
    (hroom : used.card + k < 2 ^ 32) :
    Action.Meets A T (allocatePages O k) v fun pages v' =>
      pages.length = k ∧ pages.Nodup ∧ (∀ p ∈ pages, p ∉ used ∧ p ≠ 0) ∧ Owns ps v' (pages.toFinset ∪ used) ∧
        Kept used v v' := by
  induction k generalizing v used with
  | zero => exact .pure ⟨rfl, .nil, by simp, by simpa using h, .refl _ _⟩
  | succ k ih =>
    refine .bind (allocatePage_meets L hO h (by omega)) fun p v₁ h₁ => ?_
    obtain ⟨hp, hp0, ho₁, hk₁⟩ := h₁
    refine .bind (ih ho₁ (by rw [Finset.card_insert_of_notMem hp]; omega)) fun pages v₂ h₂ => .pure ?_
    obtain ⟨hlen, hnd, hnew, ho₂, hk₂⟩ := h₂
    refine ⟨by rw [List.length_cons, hlen], List.nodup_cons.2 ⟨fun hm => ?_, hnd⟩, fun q hq => ?_, ?_,
      hk₁.trans (hk₂.mono (Finset.subset_insert _ _))⟩
    · exact (hnew p hm).1 (Finset.mem_insert_self _ _)
    · rcases List.mem_cons.1 hq with rfl | hq
      · exact ⟨hp, hp0⟩
      · exact ⟨fun hm => (hnew q hq).1 (Finset.mem_insert_of_mem hm), (hnew q hq).2⟩
    · rwa [List.toFinset_cons, Finset.insert_union, ← Finset.union_insert]

theorem overflowPage_does {p next : UInt32} {b chunk : Bytes} (h : 4 + chunk.length ≤ b.length) :
    Edit.Does T (do put 0 (be32 next) p; put 4 chunk p) b fun _ b' =>
      SameOutside 0 b.length b b' ∧ Holds b' 0 (be32 next ++ chunk) := by
  refine .bind (put_spec (by rw [be32_length]; omega)) fun _ b₁ h₁ => ?_
  have hl₁ := h₁.1.length
  refine (put_spec (by omega)).mono fun _ b₂ h₂ => ⟨?_, ?_⟩
  · rw [be32_length] at h₁
    exact (h₁.1.mono (Nat.le_refl _) (by omega)).trans (h₂.1.mono (Nat.zero_le _) (by omega))
  · rw [holds_append, be32_length]
    exact ⟨h₁.2.same h₂.1 (.inl (by rw [be32_length])), h₂.2⟩

theorem writeOverflowPages_meets (L : O.Lawful A) (n : Nat) {pages : List UInt32} {data : Bytes}
    (h : Owns ps v used) (hus : 4 + chunkSize us ≤ ps.toNat) (hn : data.length ≤ n)
    (hlen : pages.length = (chunksOf (chunkSize us) n data).length) (hnd : pages.Nodup)
    (hp : ∀ p ∈ pages, p ∈ used ∧ p ≠ 0 ∧ p ≠ 1) :
    Action.Meets A T (writeOverflowPages O pages (chunksOf (chunkSize us) n data)) v fun _ v' =>
      Chain us (body v') (pages.head?.getD 0) pages data ∧ Owns ps v' used ∧ Kept (used \ pages.toFinset) v v' := by
  have hc : 0 < chunkSize us := by unfold chunkSize; omega
  have hnil : data = [] → pages = [] → Action.Meets A T (writeOverflowPages O pages []) v fun _ v' =>
      Chain us (body v') (pages.head?.getD 0) pages data ∧ Owns ps v' used ∧ Kept (used \ pages.toFinset) v v' := by
    rintro rfl rfl
    exact .pure ⟨.nil, h, .refl _ _⟩
  induction n generalizing v pages data with
  | zero =>
    have hd : data = [] := List.length_eq_zero_iff.1 (Nat.le_zero.1 hn)
    exact hnil hd (List.length_eq_zero_iff.1 hlen)
  | succ n ih =>
    unfold chunksOf at hlen ⊢
    by_cases hd : data = []
    · rw [if_pos (List.isEmpty_iff.2 hd)] at hlen ⊢
      exact hnil hd (List.length_eq_zero_iff.1 hlen)
    · rw [if_neg (fun he => hd (List.isEmpty_iff.1 he))] at hlen ⊢
      cases pages with
      | nil => cases hlen
      | cons p pages =>
        rw [List.length_cons, List.length_cons, Nat.add_right_cancel_iff] at hlen
        rw [List.nodup_cons] at hnd
        obtain ⟨hpu, hp0, hp1⟩ := hp p List.mem_cons_self
        obtain ⟨b, hb, hbl⟩ := h.page hpu
        have hs0 : page1HeaderStart p = 0 := if_neg hp1
        have hpos : 0 < data.length := List.length_pos_iff.2 hd
        have hchunk : 4 + (data.take (chunkSize us)).length ≤ b.length := by
          rw [List.length_take]
          omega
        refine .bind (onPage_meets L h hpu hb (by rw [hs0]; exact overflowPage_does hchunk)) fun _ v₁ h₁ => ?_
        obtain ⟨b', hb', hholds, -, ho₁, hk₁⟩ := h₁
        rw [clearHeader, if_neg hp1] at hb'
        have hrest : ∀ q ∈ pages, q ∈ used ∧ q ≠ 0 ∧ q ≠ 1 := fun q hq => hp q (List.mem_cons_of_mem _ hq)
        refine (ih ho₁ (by rw [List.length_drop]; omega) hlen hnd.2 hrest
          (by rintro hd₁ rfl; exact .pure ⟨hd₁ ▸ .nil, ho₁, .refl _ _⟩)).mono fun _ v₂ h₂ => ?_
        obtain ⟨hch, ho₂, hk₂⟩ := h₂
        refine ⟨?_, ho₂, (hk₁.mono fun q hq => ?_).trans (hk₂.mono fun q hq => ?_)⟩
        · refine .cons hp0 hd ((hk₂.body p ?_).trans hb') hholds hch
          exact Finset.mem_sdiff.2 ⟨hpu, fun hm => hnd.1 (List.mem_toFinset.1 hm)⟩
        · simp only [List.toFinset_cons, Finset.mem_sdiff, Finset.mem_insert, not_or] at hq
          exact Finset.mem_erase.2 ⟨hq.2.1, hq.1⟩
        · simp only [List.toFinset_cons, Finset.mem_sdiff, Finset.mem_insert, not_or] at hq
          exact Finset.mem_sdiff.2 ⟨hq.1, hq.2.2⟩

theorem chunksOf_length {a : Nat} (ha : 0 < a) (n : Nat) {data : Bytes} (hn : data.length ≤ n) :
    (chunksOf a n data).length = (data.length + a - 1) / a := by
  induction n generalizing data with
  | zero =>
    have hd : data = [] := List.length_eq_zero_iff.1 (Nat.le_zero.1 hn)
    subst hd
    rw [chunksOf, List.length_nil, List.length_nil, Nat.zero_add, Nat.div_eq_of_lt (by omega)]
  | succ n ih =>
    unfold chunksOf
    by_cases hd : data = []
    · subst hd
      rw [if_pos List.isEmpty_nil, List.length_nil, List.length_nil, Nat.zero_add, Nat.div_eq_of_lt (by omega)]
    · have hpos : 0 < data.length := List.length_pos_iff.2 hd
      rw [if_neg (fun he => hd (List.isEmpty_iff.1 he)), List.length_cons, ih (by rw [List.length_drop]; omega),
        List.length_drop]
      by_cases hle : data.length ≤ a
      · rw [Nat.sub_eq_zero_of_le hle, Nat.zero_add, Nat.div_eq_of_lt (by omega), Nat.div_eq_of_lt_le] <;> omega
      · rw [show data.length + a - 1 = data.length - a + a - 1 + a by omega, Nat.add_div_right _ ha]

/-- The overflow pages of that many bytes. -/
def overflowPages (us len : Nat) : Nat := (len + chunkSize us - 1) / chunkSize us

theorem writeOverflowChain_meets (L : O.Lawful A) (hO : O.pageSize = ps) {data : Bytes} (h : Owns ps v used)
    (hus : 4 + chunkSize us ≤ ps.toNat) (hroom : used.card + overflowPages us data.length < 2 ^ 32) :
    Action.Meets A T (writeOverflowChain O us data) v fun first v' =>
      ∃ pages, Chain us (body v') first pages data ∧ pages.Nodup ∧ Disjoint pages.toFinset used ∧
        pages.length = overflowPages us data.length ∧ Owns ps v' (pages.toFinset ∪ used) ∧ Kept used v v' := by
  have hc : 0 < chunkSize us := by unfold chunkSize; omega
  have hlen : (chunksOf (chunkSize us) data.length data).length = overflowPages us data.length :=
    chunksOf_length hc _ (Nat.le_refl _)
  refine .bind (allocatePages_meets L hO _ h (by rw [← chunkSize, hlen]; exact hroom)) fun pages v₁ h₁ => ?_
  obtain ⟨hl, hnd, hnew, ho₁, hk₁⟩ := h₁
  have hd : Disjoint pages.toFinset used :=
    Finset.disjoint_left.2 fun p hp => (hnew p (List.mem_toFinset.1 hp)).1
  refine .bind (writeOverflowPages_meets L data.length ho₁ hus (Nat.le_refl _) hl hnd fun p hp => ?_)
    fun _ v₂ h₂ => .pure ?_
  · refine ⟨Finset.mem_union_left _ (List.mem_toFinset.2 hp), (hnew p hp).2, ?_⟩
    rintro rfl
    exact (hnew 1 hp).1 h.one
  · obtain ⟨hch, ho₂, hk₂⟩ := h₂
    refine ⟨pages, hch, hnd, hd, hl.trans hlen, ho₂, hk₁.trans (hk₂.mono fun q hq => ?_)⟩
    exact Finset.mem_sdiff.2 ⟨Finset.mem_union_right _ hq, fun hm => Finset.disjoint_left.1 hd hm hq⟩

end

/-- Usable sizes of a page: at most 255 bytes at its end are reserved. -/
structure Usable (ps : UInt32) (us : Nat) : Prop where
  ge : 257 ≤ us
  le : us ≤ ps.toNat

theorem Usable.chunkSize {ps : UInt32} {us : Nat} (h : Usable ps us) : 4 + chunkSize us ≤ ps.toNat := by
  have h1 := h.ge
  have h2 := h.le
  unfold Btree.chunkSize
  omega

/-! ## Encoding cells -/

/-- mirrors index/insert.rs:83-99 -/
def Index.encodeIndexCell {σ : Type} (O : PageOps σ) (usableSize : Nat) (payload : Bytes) :
    Action σ BtreeError Bytes := do
  let localSize := min (localPayloadSize usableSize payload.length true) payload.length
  let overflowBytes := payload.drop localSize
  let cell := encodeVarint payload.length ++ payload.take localSize
  if overflowBytes.isEmpty then return cell
  else do
    let overflowFirst ← writeOverflowChain O usableSize overflowBytes
    return cell ++ be32 overflowFirst

/-- The cells with a payload: a row of a table leaf, an entry of an index. -/
inductive CellKind where
  | table (rowid : Int64)
  | index

namespace CellKind

def isIndex : CellKind → Bool
  | table _ => false
  | index => true

/-- What stands before the payload. -/
def header (len : Nat) : CellKind → Bytes
  | table rowid => encodeVarint len ++ encodeVarint (asU64 rowid)
  | index => encodeVarint len

def encode {σ : Type} (O : PageOps σ) (us : Nat) (payload : Bytes) : CellKind → Action σ BtreeError Bytes
  | table rowid => Table.encodeLeafCell O us rowid payload
  | index => Index.encodeIndexCell O us payload

def localSize (us len : Nat) (kind : CellKind) : Nat := localPayloadSize us len kind.isIndex

/-- The cell of a payload whose overflow chain starts at `first`. -/
def bytes (us : Nat) (payload : Bytes) (first : UInt32) (kind : CellKind) : Bytes :=
  kind.header payload.length ++ (payload.take (kind.localSize us payload.length) ++
    if kind.localSize us payload.length < payload.length then be32 first else [])

/-- Both encoders write the header, the local bytes and the first overflow
page. -/
theorem encode_eq {σ : Type} (O : PageOps σ) (us : Nat) (payload : Bytes) (kind : CellKind) :
    kind.encode O us payload =
      if kind.localSize us payload.length < payload.length then do
        let first ← writeOverflowChain O us (payload.drop (kind.localSize us payload.length))
        return kind.bytes us payload first
      else return kind.bytes us payload 0 := by
  have hle : kind.localSize us payload.length ≤ payload.length := localPayloadSize_le_len _ _ _
  have hempty : (payload.drop (kind.localSize us payload.length)).isEmpty =
      !decide (kind.localSize us payload.length < payload.length) := by
    rw [Bool.eq_iff_iff]
    simp [List.isEmpty_iff]
  by_cases hlt : kind.localSize us payload.length < payload.length
  · cases kind with
    | table rowid =>
      simp only [localSize, isIndex] at hle hlt hempty
      simp [encode, Table.encodeLeafCell, bytes, header, localSize, isIndex, Nat.min_eq_left hle, hempty, hlt]
    | index =>
      simp only [localSize, isIndex] at hle hlt hempty
      simp [encode, Index.encodeIndexCell, bytes, header, localSize, isIndex, Nat.min_eq_left hle, hempty, hlt]
  · cases kind with
    | table rowid =>
      simp only [localSize, isIndex] at hle hlt hempty
      simp [encode, Table.encodeLeafCell, bytes, header, localSize, isIndex, Nat.min_eq_left hle, hempty, hlt]
    | index =>
      simp only [localSize, isIndex] at hle hlt hempty
      simp [encode, Index.encodeIndexCell, bytes, header, localSize, isIndex, Nat.min_eq_left hle, hempty, hlt]

section
variable {us : Nat} {payload : Bytes} {kind : CellKind} {first : UInt32}

theorem localSize_le (us : Nat) (payload : Bytes) (kind : CellKind) :
    kind.localSize us payload.length ≤ payload.length := localPayloadSize_le_len _ _ _

theorem localSize_le_max (us : Nat) (payload : Bytes) (kind : CellKind) :
    kind.localSize us payload.length ≤ maxLocal us kind.isIndex := by
  by_cases h : payload.length ≤ maxLocal us kind.isIndex
  · exact Nat.le_trans (localSize_le us payload kind) h
  · exact localPayloadSize_le _ _ _ (by omega)

theorem bytes_length : (kind.bytes us payload first).length =
    cellEnd us (kind.header payload.length).length payload.length kind.isIndex := by
  have hle := localSize_le us payload kind
  have hl : kind.localSize us payload.length = localPayloadSize us payload.length kind.isIndex := rfl
  rw [cellEnd, ← hl]
  simp only [bytes, List.length_append, List.length_take, Nat.min_eq_left hle]
  split
  · rw [be32_length]
    omega
  · rw [List.length_nil]
    omega

theorem holds_payload : Holds (kind.bytes us payload first) (kind.header payload.length).length
    (payload.take (kind.localSize us payload.length)) ∧
    (kind.localSize us payload.length < payload.length →
      Holds (kind.bytes us payload first) ((kind.header payload.length).length + kind.localSize us payload.length)
        (be32 first)) := by
  have h := holds_append_right (kind.header payload.length) (payload.take (kind.localSize us payload.length) ++
    if kind.localSize us payload.length < payload.length then be32 first else []) []
  rw [List.append_nil, holds_append, List.length_take, Nat.min_eq_left (localSize_le us payload kind)] at h
  refine ⟨h.1, fun hlt => ?_⟩
  have h₂ := h.2
  rw [if_pos hlt] at h₂
  rwa [bytes, if_pos hlt]

theorem bytes_firstOverflowPage :
    firstOverflowPage (kind.bytes us payload first) (kind.header payload.length).length payload.length us 0 kind.isIndex =
      .ok (if kind.localSize us payload.length < payload.length then some first else none) := by
  have hl : localPayloadSize us payload.length kind.isIndex = kind.localSize us payload.length := rfl
  rw [firstOverflowPage, hl]
  by_cases hlt : kind.localSize us payload.length < payload.length
  · rw [if_pos hlt, if_pos hlt, readU32_of_holds (holds_payload.2 hlt)]
    rfl
  · rw [if_neg hlt, if_neg hlt]

theorem bytes_table_head (rowid : Int64) (hlen : payload.length < 2 ^ 64) :
    decodeCellHead ((table rowid).bytes us payload first) 0 0 =
      .ok (rowid, payload.length, ((table rowid).header payload.length).length) := by
  have h₁ (rest : Bytes) : decodeCellVarint 0 (encodeVarint payload.length ++ rest) =
      .ok (payload.length, varintLen payload.length) := by rw [decodeCellVarint, decodeVarint_encode hlen]; rfl
  have h₂ (rest : Bytes) : decodeCellVarint 0 (encodeVarint (asU64 rowid) ++ rest) =
      .ok (asU64 rowid, varintLen (asU64 rowid)) := by rw [decodeCellVarint, decodeVarint_encode (asU64_lt rowid)]; rfl
  rw [decodeCellHead, tailFrom_of_le (Nat.zero_le _), List.drop_zero]
  simp only [bytes, header, List.append_assoc, bind, Except.bind, h₁]
  rw [tailFrom_of_le (by rw [List.length_append, encodeVarint_length]; omega),
    List.drop_left' (encodeVarint_length payload.length)]
  simp only [h₂, asI64_asU64, Nat.zero_add, List.length_append, encodeVarint_length]

theorem bytes_index_head (hlen : payload.length < 2 ^ 64) :
    decodePayloadLen (index.bytes us payload first) 0 0 = .ok (payload.length, (index.header payload.length).length) := by
  have h₁ (rest : Bytes) : decodeCellVarint 0 (encodeVarint payload.length ++ rest) =
      .ok (payload.length, varintLen payload.length) := by rw [decodeCellVarint, decodeVarint_encode hlen]; rfl
  rw [decodePayloadLen, tailFrom_of_le (Nat.zero_le _), List.drop_zero]
  simp only [bytes, header, bind, Except.bind, h₁, Nat.zero_add, encodeVarint_length]

/-- A cell and its pointer are shorter than what is left of a leaf page behind
its header. -/
theorem bytes_fit {ps : UInt32} (hus : Usable ps us) : (kind.bytes us payload first).length + 13 ≤ us := by
  have hge := hus.ge
  have hmax := localSize_le_max us payload kind
  have hl : kind.localSize us payload.length = localPayloadSize us payload.length kind.isIndex := rfl
  have hv₁ := varintLen_bounds payload.length
  rw [bytes_length, cellEnd, ← hl]
  cases kind with
  | table rowid =>
    have hv₂ := varintLen_bounds (asU64 rowid)
    simp only [header, List.length_append, encodeVarint_length]
    simp only [isIndex, maxLocal, Bool.false_eq_true, if_false] at hmax
    split <;> omega
  | index =>
    simp only [header, encodeVarint_length]
    simp only [isIndex, maxLocal, if_true] at hmax
    split <;> omega

end

section
variable {σ : Type} {O : PageOps σ} {A : σ → View → Prop} {T : Prop} {ps : UInt32} {v : View}
  {used : Finset UInt32} {us : Nat}

theorem encode_meets (L : O.Lawful A) (hO : O.pageSize = ps) (hus : Usable ps us) (kind : CellKind) {payload : Bytes}
    (h : Owns ps v used)
    (hroom : used.card + overflowPages us (payload.length - kind.localSize us payload.length) < 2 ^ 32) :
    Action.Meets A T (kind.encode O us payload) v fun cell v' =>
      ∃ first pages, cell = kind.bytes us payload first ∧
        Chain us (body v') first pages (payload.drop (kind.localSize us payload.length)) ∧ pages.Nodup ∧
        Disjoint pages.toFinset used ∧
        pages.length = overflowPages us (payload.length - kind.localSize us payload.length) ∧
        Owns ps v' (pages.toFinset ∪ used) ∧ Kept used v v' := by
  rw [encode_eq]
  split
  · rename_i hlt
    refine .bind (writeOverflowChain_meets L hO h hus.chunkSize (by rwa [List.length_drop])) fun first v' h' => .pure ?_
    obtain ⟨pages, hch, hnd, hd, hpl, ho, hk⟩ := h'
    rw [List.length_drop] at hpl
    exact ⟨first, pages, rfl, hch, hnd, hd, hpl, ho, hk⟩
  · rename_i hlt
    have hle : payload.length ≤ kind.localSize us payload.length := Nat.le_of_not_lt hlt
    have hc : 0 < Btree.chunkSize us := by unfold Btree.chunkSize; omega
    refine .pure ⟨0, [], rfl, ?_, .nil, Finset.disjoint_empty_left _, ?_, by simpa using h, .refl _ _⟩
    · rw [List.drop_eq_nil_of_le hle]
      exact .nil
    · rw [Nat.sub_eq_zero_of_le hle, overflowPages, Nat.zero_add, Nat.div_eq_of_lt (by omega), List.length_nil]

end

end CellKind

end DbStorage.Btree
