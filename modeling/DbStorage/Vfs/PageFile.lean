import DbStorage.Core.Bytes
import DbStorage.Core.Overlay

/-!
# Whole pages of a file (`vfs/page_source.rs`)

A page is `page_size` bytes at offset `(page_num - 1) * page_size`; pages are
numbered from 1. Reading a page that the file does not hold whole is an
error, writing one behind the end of the file extends the file.

Results: `readPage_writePage_same`, `readPage_writePage_other` and their
run form `readPage_writePages`.
-/
namespace DbStorage.Vfs
open Bytes

/-- mirrors page_source.rs:15-42; the VFS variant is left out
because no modelled operation of a file fails. -/
inductive PageError where
  | invalidPageNumber
  | shortRead (pageNum : UInt32) (expected got : Nat)
  | wrongLength (pageNum : UInt32) (expected got : Nat)
  deriving DecidableEq

/-- Where page `pageNum` starts.
mirrors page_source.rs:110-112,223-225 -/
def pageOffset (pageSize pageNum : UInt32) : Nat := (pageNum.toNat - 1) * pageSize.toNat

/-- mirrors page_source.rs:96-132 -/
def readPage (file : Bytes) (pageSize pageNum : UInt32) : Except PageError Bytes :=
  if pageNum = 0 then .error .invalidPageNumber
  else
    let buf := slice file (pageOffset pageSize pageNum) pageSize.toNat
    if buf.length ≠ pageSize.toNat then .error (.shortRead pageNum pageSize.toNat buf.length)
    else .ok buf

/-- mirrors page_source.rs:212-228 -/
def writePage (file : Bytes) (pageSize pageNum : UInt32) (bytes : Bytes) : Except PageError Bytes :=
  if pageNum = 0 then .error .invalidPageNumber
  else if bytes.length ≠ pageSize.toNat then
    .error (.wrongLength pageNum pageSize.toNat bytes.length)
  else .ok (writeAt file bytes (pageOffset pageSize pageNum))

/-- Pages written one after the other at their places. -/
def writePages (file : Bytes) (pageSize : UInt32) (pages : List (UInt32 × Bytes)) : Bytes :=
  pages.foldl (fun file w => writeAt file w.2 (pageOffset pageSize w.1)) file

variable {file bytes c : Bytes} {pageSize p : UInt32}

theorem writePage_ok (hp : p ≠ 0) (hb : bytes.length = pageSize.toNat) :
    writePage file pageSize p bytes = .ok (writeAt file bytes (pageOffset pageSize p)) := by
  simp only [writePage, if_neg hp, hb, ne_eq, not_true, if_false]

theorem readPage_ok_iff (hs : 0 < pageSize.toNat) :
    readPage file pageSize p = .ok c ↔
      p ≠ 0 ∧ pageOffset pageSize p + pageSize.toNat ≤ file.length ∧
        slice file (pageOffset pageSize p) pageSize.toNat = c := by
  unfold readPage
  by_cases hp : p = 0
  · simp [hp]
  · have hl := slice_length file (pageOffset pageSize p) pageSize.toNat
    by_cases hf : pageOffset pageSize p + pageSize.toNat ≤ file.length
    · have e : (slice file (pageOffset pageSize p) pageSize.toNat).length = pageSize.toNat := by omega
      simp [hp, hf, e]
    · have e : (slice file (pageOffset pageSize p) pageSize.toNat).length ≠ pageSize.toNat := by
        omega
      simp [hp, hf, e]

theorem readPage_length (h : readPage file pageSize p = .ok c) : c.length = pageSize.toNat := by
  unfold readPage at h
  split at h
  · cases h
  · simp only [ne_eq, ite_not] at h
    split at h
    · cases h; assumption
    · cases h

theorem pageOffset_disjoint (pageSize : UInt32) {q : UInt32} (hp : p ≠ 0) (hq : q ≠ 0) (h : p ≠ q) :
    pageOffset pageSize p + pageSize.toNat ≤ pageOffset pageSize q ∨
      pageOffset pageSize q + pageSize.toNat ≤ pageOffset pageSize p := by
  have hp' : p.toNat ≠ 0 := fun e => hp (UInt32.toNat_inj.1 e)
  have hq' : q.toNat ≠ 0 := fun e => hq (UInt32.toNat_inj.1 e)
  have hpq : p.toNat ≠ q.toNat := fun e => h (UInt32.toNat_inj.1 e)
  unfold pageOffset
  rcases Nat.lt_or_gt_of_ne hpq with hlt | hlt
  · left
    have := Nat.mul_le_mul_right pageSize.toNat (show p.toNat - 1 + 1 ≤ q.toNat - 1 by omega)
    rwa [Nat.succ_mul] at this
  · right
    have := Nat.mul_le_mul_right pageSize.toNat (show q.toNat - 1 + 1 ≤ p.toNat - 1 by omega)
    rwa [Nat.succ_mul] at this

theorem readPage_writePage_same (hp : p ≠ 0) (hs : 0 < pageSize.toNat) (hb : bytes.length = pageSize.toNat) :
    readPage (writeAt file bytes (pageOffset pageSize p)) pageSize p = .ok bytes := by
  rw [readPage_ok_iff hs]
  refine ⟨hp, ?_, ?_⟩
  · rw [writeAt_length]; omega
  · rw [slice_writeAt_inside _ _ _ _ _ (Nat.le_refl _) (by omega), Nat.sub_self, ← hb,
      slice_self_length]

theorem readPage_writePage_other {q : UInt32} (hp : p ≠ 0) (hs : 0 < pageSize.toNat)
    (hb : bytes.length = pageSize.toNat) (hpq : p ≠ q) (h : readPage file pageSize q = .ok c) :
    readPage (writeAt file bytes (pageOffset pageSize p)) pageSize q = .ok c := by
  rw [readPage_ok_iff hs] at h ⊢
  obtain ⟨hq, hl, rfl⟩ := h
  refine ⟨hq, ?_, ?_⟩
  · rw [writeAt_length]; omega
  · rcases pageOffset_disjoint pageSize hp hq hpq with h | h
    · exact slice_writeAt_after _ _ _ _ _ (by omega)
    · exact slice_writeAt_before _ _ _ _ _ h hl

/-- After a list of page writes a page reads its last write, and what it
read before where it has none. -/
theorem readPage_writePages {pages : List (UInt32 × Bytes)} (file : Bytes) (q : UInt32) (hs : 0 < pageSize.toNat)
    (hw : ∀ w ∈ pages, w.1 ≠ 0 ∧ w.2.length = pageSize.toNat) : match lastWrite pages q with
    | some c => readPage (writePages file pageSize pages) pageSize q = .ok c
    | none => ∀ c, readPage file pageSize q = .ok c →
        readPage (writePages file pageSize pages) pageSize q = .ok c := by
  induction pages using List.reverseRecOn with
  | nil => intro c hc; exact hc
  | append_singleton pages w ih =>
    have ih := ih fun v hv => hw v (List.mem_append_left _ hv)
    obtain ⟨hw0, hwl⟩ := hw w (List.mem_append_right _ (List.mem_singleton.2 rfl))
    have e : writePages file pageSize (pages ++ [w]) =
        writeAt (writePages file pageSize pages) w.2 (pageOffset pageSize w.1) := by
      simp [writePages]
    rw [e, lastWrite_append]
    by_cases hq : w.1 = q
    · subst hq
      have hl : lastWrite [w] w.1 = some w.2 := by simp [lastWrite]
      rw [hl]
      exact readPage_writePage_same hw0 hs hwl
    · have hl : lastWrite [w] q = none := by simp [lastWrite, hq]
      rw [hl, Option.none_or]
      cases hx : lastWrite pages q with
      | some c => rw [hx] at ih; exact readPage_writePage_other hw0 hs hwl hq ih
      | none =>
        rw [hx] at ih
        exact fun c hc => readPage_writePage_other hw0 hs hwl hq (ih c hc)

end DbStorage.Vfs
