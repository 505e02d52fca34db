import DbStorage.Btree.Layout

/-!
# Free space on a page

`Space` says what the splices rely on: cells and freeblocks lie behind the
pointer array and do not overlap, the freeblocks are chained in ascending
order, and no cell starts before the content start.

Results: the page that the writers lay out (`writePageCommon_does`), giving
back a range (`freeRange_does`), and the two splices (`spliceInsert_placed`,
`spliceDelete_placed`), each with the `Space` it leaves.
-/
namespace DbStorage.Btree
open Bytes Pager Record List

/-- Two ranges, each an offset and a length, do not overlap. -/
def Apart (x y : Nat × Nat) : Prop := x.1 + x.2 ≤ y.1 ∨ y.1 + y.2 ≤ x.1

variable {x : Nat × Nat} {v i : Nat} {b' : Bytes} {pre post : List (Nat × Bytes)}

theorem Apart.symm {y : Nat × Nat} (h : Apart x y) : Apart y x := Or.symm h

def extent (c : Nat × Bytes) : Nat × Nat := (c.1, c.2.length)

/-- Each block holds the offset of the next one and its own size. -/
def Chained (b : Bytes) : List (Nat × Nat) → Prop
  | [] => True
  | (o, n) :: blocks => Holds b o (be16 (firstOffset blocks) ++ be16 n) ∧ Chained b blocks

/-- Blocks of at least four bytes in ascending order between `lo` and `hi`. -/
structure Blocks (lo hi : Nat) (blocks : List (Nat × Nat)) : Prop where
  inside : ∀ x ∈ blocks, lo ≤ x.1 ∧ x.1 + x.2 ≤ hi ∧ 4 ≤ x.2
  sorted : blocks.Pairwise fun x y => x.1 + x.2 ≤ y.1

/-- No two blocks touch. -/
def Tidy (blocks : List (Nat × Nat)) : Prop := blocks.Pairwise fun x y => x.1 + x.2 < y.1

/-- Where the cells and the freeblocks of a page lie; `cs` is the content
start. -/
structure Space (hs : Nat) (cells : List (Nat × Bytes)) (blocks : List (Nat × Nat)) (cs : Nat) (b : Bytes) :
    Prop where
  length_le : b.length ≤ 65536
  first : Holds b (hs + 1) (be16 (firstOffset blocks))
  start : Holds b (hs + 5) (be16 (storedOffset cs))
  chain : Chained b blocks
  room : hs + 8 + 2 * cells.length ≤ cs
  start_le : cs ≤ b.length
  cells_inside : ∀ c ∈ cells, cs ≤ c.1 ∧ c.1 + c.2.length ≤ b.length ∧ 0 < c.2.length
  free : Blocks cs b.length blocks
  cells_apart : cells.Pairwise fun c d => Apart (extent c) (extent d)
  cross : ∀ c ∈ cells, ∀ x ∈ blocks, Apart (extent c) x

/-! ## Writing a whole page -/

section
variable {T : Prop} {p : UInt32}

theorem Edit.Does.get {b : Bytes} {Q : Bytes → Bytes → Prop} (h : Q b b) :
    Edit.Does T (MonadState.get : Edit Bytes) b Q := Edit.Does.ofFn (f := fun b => (.ok b, b)) rfl h

theorem put_spec {b : Bytes} {o : Nat} {d : Bytes} (h : o + d.length ≤ b.length) :
    Edit.Does T (put o d p) b fun _ b' => SameOutside o (o + d.length) b b' ∧ Holds b' o d :=
  put_does h ⟨sameOutside_writeAt d h, holds_writeAt _ _ _⟩

theorem putU8_spec {b : Bytes} {o : Nat} {v : UInt8} (h : o < b.length) :
    Edit.Does T (putU8 o v p) b fun _ b' => SameOutside o (o + 1) b b' ∧ Holds b' o [v] := put_spec h

theorem writeU16_spec {b : Bytes} {o : Nat} (h : o + 2 ≤ b.length) :
    Edit.Does T (writeU16 o v p) b fun _ b' => SameOutside o (o + 2) b b' ∧ Holds b' o (be16 v) := put_spec h

theorem clearFrom_does {b : Bytes} {hs : Nat} (h : hs + 3 ≤ b.length) :
    Edit.Does T (clearFrom hs p) b fun _ b' => SameOutside hs b.length b b' ∧ Holds b' (hs + 1) (be16 0) := by
  have hl : (b.take hs).length = hs := by rw [length_take]; omega
  refine .ofFn (if_pos (by omega)) ⟨⟨?_, fun o len ho => ?_⟩, ?_⟩
  · rw [length_append, hl, length_replicate]
    omega
  · rcases ho with ho | ho
    · rw [slice_append_left _ _ _ _ (by omega), slice_take _ ho]
    · have hge : (b.take hs ++ List.replicate (b.length - hs) 0).length ≤ o := by
        rw [length_append, hl, length_replicate]
        omega
      simp [slice, drop_eq_nil_of_le hge, drop_eq_nil_of_le ho]
  · rw [Holds, slice_append_right _ _ _ _ (by omega), hl]
    simp only [slice, drop_replicate, take_replicate, be16_length]
    rw [show min 2 (b.length - hs - (hs + 1 - hs)) = 2 by omega]
    rfl

/-- Cells laid out one behind the other in the bytes `lo` to `hi`. -/
structure Placed (lo hi : Nat) (placed : List (Nat × Bytes)) (b : Bytes) : Prop where
  cell : ∀ c ∈ placed, Holds b c.1 c.2
  inside : ∀ c ∈ placed, lo ≤ c.1 ∧ c.1 + c.2.length ≤ hi
  sorted : placed.Pairwise fun c d => c.1 + c.2.length ≤ d.1

theorem layCells_does {b : Bytes} {stop : Nat} (cells : List Bytes) (hstop : stop ≤ b.length)
    (hfit : (cells.map List.length).sum ≤ stop) :
    Edit.Does T (layCells p stop cells) b fun r b' => r.1 + (cells.map List.length).sum = stop ∧
      SameOutside r.1 stop b b' ∧
      ∃ placed, placed.map Prod.snd = cells ∧ placed.map Prod.fst = r.2 ∧ Placed r.1 stop placed b' := by
  induction cells with
  | nil =>
    exact .pure ⟨rfl, .refl _ _ _, [], rfl, rfl, by simp, by simp, .nil⟩
  | cons c cells ih =>
    rw [map_cons, sum_cons] at hfit ⊢
    refine .bind (ih (by omega)) fun r b₁ h => ?_
    obtain ⟨start, offs⟩ := r
    obtain ⟨hsum, hsame, placed, hsnd, hfst, hp⟩ := h
    dsimp only at hsum hsame hfst hp ⊢
    have hput : start - c.length + c.length ≤ b₁.length := by rw [hsame.length]; omega
    refine .bind (put_does hput ?_) fun _ b₂ h₂ => .pure h₂
    have hw := sameOutside_writeAt c hput
    rw [Nat.sub_add_cancel (by omega)] at hw
    refine ⟨by omega, (hsame.mono (by omega) (Nat.le_refl _)).trans (hw.mono (Nat.le_refl _) (by omega)),
      (start - c.length, c) :: placed, by rw [map_cons, hsnd], by rw [map_cons, hfst], ?_, ?_, ?_⟩
    · intro d hd
      rcases mem_cons.1 hd with rfl | hd
      · exact holds_writeAt _ _ _
      · exact (hp.cell d hd).same hw (.inr (hp.inside d hd).1)
    · intro d hd
      rcases mem_cons.1 hd with rfl | hd
      · exact ⟨Nat.le_refl _, by dsimp only; omega⟩
      · have := hp.inside d hd
        exact ⟨by omega, this.2⟩
    · refine pairwise_cons.2 ⟨fun d hd => ?_, hp.sorted⟩
      have := hp.inside d hd
      dsimp only
      omega

theorem storedOffset_of_lt {o : Nat} (h : o < 65536) : storedOffset o = o := if_neg (by omega)

theorem writePointers_does {b : Bytes} {base : Nat} (offs : List Nat) (hlt : ∀ o ∈ offs, o < 65536)
    (hfit : base + (i + offs.length) * 2 ≤ b.length) :
    Edit.Does T (writePointers p base i offs) b fun _ b' => Holds b' (base + i * 2) (offs.flatMap be16) ∧
      SameOutside (base + i * 2) (base + (i + offs.length) * 2) b b' := by
  induction offs generalizing b i with
  | nil => exact .pure ⟨by simp [Holds, slice], .refl _ _ _⟩
  | cons o offs ih =>
    rw [length_cons] at hfit ⊢
    have hput : base + i * 2 + (be16 (storedOffset o)).length ≤ b.length := by rw [be16_length]; omega
    refine .bind (put_does hput (Q := fun _ b' => b' = _) rfl) fun _ b₁ h₁ => ?_
    subst h₁
    rw [storedOffset_of_lt (hlt o mem_cons_self)] at hput ⊢
    have hw := sameOutside_writeAt (be16 o) hput
    refine (ih (fun x hx => hlt x (mem_cons_of_mem _ hx)) (by rw [hw.length]; omega)).mono fun _ b₂ h => ?_
    rw [be16_length] at hw
    refine ⟨?_, (hw.mono (Nat.le_refl _) (by omega)).trans (h.2.mono (by omega) (by omega))⟩
    rw [flatMap_cons, holds_append, be16_length, show base + i * 2 + 2 = base + (i + 1) * 2 by omega]
    exact ⟨(holds_writeAt _ _ _).same h.2 (.inl (by rw [be16_length]; omega)), h.1⟩

theorem neededBytes_eq (base : Nat) (cells : List Bytes) :
    neededBytes base cells = base + (cells.map List.length).sum + 2 * cells.length := by
  unfold neededBytes
  induction cells generalizing base with
  | nil => rfl
  | cons c cells ih =>
    rw [foldl_cons, ih, map_cons, sum_cons, length_cons]
    omega

/-- A page is rewritten if the cells fit, and keeps what stands before the
b-tree header. -/
theorem writePageCommon_does {b : Bytes} {hs hl : Nat} {ty : UInt8} {cells : List Bytes} (h8 : 8 ≤ hl)
    (hne : ∀ c ∈ cells, c ≠ []) (hlen : b.length ≤ 65536) (hT : T → neededBytes (hs + hl) cells ≤ b.length) :
    Edit.Does T (writePageCommon hs p ty hl cells) b fun _ b' =>
      neededBytes (hs + hl) cells ≤ b.length ∧ SameOutside hs b.length b b' ∧
      ∃ placed cs, placed.map Prod.snd = cells ∧ hs + hl + 2 * cells.length ≤ cs ∧
        Cells hs hl ty placed b' ∧ Space hs placed [] cs b' := by
  refine .bind (Edit.Does.get (Q := fun buf b' => buf = b ∧ b' = b) ⟨rfl, rfl⟩) fun buf b₀ hb => ?_
  rw [hb.1, hb.2]
  by_cases hfit : b.length < neededBytes (hs + hl) cells
  · rw [if_pos hfit]
    exact .throw fun ht => absurd (hT ht) (by omega)
  · rw [if_neg hfit]
    rw [neededBytes_eq] at hfit ⊢
    refine .bind (clearFrom_does (by omega)) fun _ b₁ h₁ => .bind (putU8_spec (by rw [h₁.1.length]; omega))
      fun _ b₂ h₂ => ?_
    have hl₂ : b₂.length = b.length := h₂.1.length.trans h₁.1.length
    refine .bind (layCells_does cells (Nat.le_of_eq hl₂.symm) (by omega)) fun r b₃ h₃ => ?_
    obtain ⟨start, offs⟩ := r
    obtain ⟨hsum, hsame₃, placed, hsnd, hfst, hp⟩ := h₃
    dsimp only at hsum hsame₃ hfst hp ⊢
    have hcount : placed.length = cells.length := by rw [← hsnd, length_map]
    have hoffs : offs.length = cells.length := by rw [← hfst, length_map, hcount]
    have hpos : ∀ c ∈ placed, 0 < c.2.length := fun c hc =>
      length_pos_iff.2 (hne c.2 (hsnd ▸ mem_map_of_mem hc))
    have hlt : ∀ c ∈ placed, c.1 < 65536 := by
      intro c hc
      have := hp.inside c hc
      have := hpos c hc
      omega
    have hoffs_lt : ∀ o ∈ offs, o < 65536 := by
      intro o ho
      rw [← hfst] at ho
      obtain ⟨c, hc, rfl⟩ := mem_map.1 ho
      exact hlt c hc
    refine .bind (writePointers_does offs hoffs_lt (by rw [hsame₃.length]; omega)) fun _ b₄ h₄ => ?_
    rw [Nat.zero_mul, Nat.zero_add, Nat.add_zero, hoffs] at h₄
    refine .bind (writeU16_spec (by rw [h₄.2.length, hsame₃.length]; omega)) fun _ b₅ h₅ => ?_
    refine .bind (writeU16_spec (by rw [h₅.1.length, h₄.2.length, hsame₃.length]; omega)) fun _ b₆ h₆ => ?_
    refine (putU8_spec (by rw [h₆.1.length, h₅.1.length, h₄.2.length, hsame₃.length]; omega)).mono fun _ b₇ h₇ => ?_
    have hsame : SameOutside hs b.length b b₇ :=
      h₁.1.trans <| (h₂.1.mono (Nat.le_refl _) (by omega)).trans <| (hsame₃.mono (by omega) (by omega)).trans <|
        (h₄.2.mono (by omega) (by omega)).trans <| (h₅.1.mono (by omega) (by omega)).trans <|
        (h₆.1.mono (by omega) (by omega)).trans (h₇.1.mono (by omega) (by omega))
    -- The header, the pointer array and the content lie behind each other.
    have hcell : ∀ c ∈ placed, Holds b₇ c.1 c.2 := by
      intro c hc
      have hc' := hp.inside c hc
      exact ((((hp.cell c hc).same h₄.2 (.inr (by omega))).same h₅.1 (.inr (by omega))).same h₆.1
        (.inr (by omega))).same h₇.1 (.inr (by omega))
    have htype : Holds b₇ hs [ty] := by
      have e : ∀ x : UInt8, ([x] : Bytes).length = 1 := fun _ => rfl
      exact ((((h₂.2.same hsame₃ (.inl (by rw [e]; omega))).same h₄.2 (.inl (by rw [e]; omega))).same h₅.1
        (.inl (by rw [e]; omega))).same h₆.1 (.inl (by rw [e]; omega))).same h₇.1 (.inl (by rw [e]; omega))
    have hfirst : Holds b₇ (hs + 1) (be16 0) :=
      (((((h₁.2.same h₂.1 (.inr (by omega))).same hsame₃ (.inl (by rw [be16_length]; omega))).same h₄.2
        (.inl (by rw [be16_length]; omega))).same h₅.1 (.inl (by rw [be16_length]))).same h₆.1
        (.inl (by rw [be16_length]; omega))).same h₇.1 (.inl (by rw [be16_length]; omega))
    have hptrs : Holds b₇ (hs + hl) ((placed.map Prod.fst).flatMap be16) := by
      rw [hfst]
      exact ((h₄.1.same h₅.1 (.inr (by omega))).same h₆.1 (.inr (by omega))).same h₇.1 (.inr (by omega))
    refine ⟨by omega, hsame, placed, start, hsnd, by omega, ⟨htype, ?_, hptrs, hcell, hlt, by omega⟩, ?_⟩
    · rw [hcount]
      exact (h₅.2.same h₆.1 (.inl (by rw [be16_length]))).same h₇.1 (.inl (by rw [be16_length]; omega))
    · refine ⟨by rw [hsame.length]; exact hlen, hfirst, h₆.2.same h₇.1 (.inl (by rw [be16_length])), trivial,
        by omega, by rw [hsame.length]; omega, fun c hc => ?_, ⟨by simp, .nil⟩, ?_, by simp⟩
      · have hc' := hp.inside c hc
        exact ⟨hc'.1, by rw [hsame.length]; omega, hpos c hc⟩
      · exact hp.sorted.imp fun h => .inl h

end

/-! ## The pointer array -/

section
variable {T : Prop} {p : UInt32} {base : Nat}

theorem readPointer_does {b : Bytes} {ptrs : List Nat} {Q : Nat → Bytes → Prop} (h : Holds b base (ptrs.flatMap be16))
    (hi : ptrs[i]? = some v) (hv : v < 65536) (hq : Q v b) :
    Edit.Does T (Edit.read fun buf => readCellPointer buf (cellPtrOffset base i) p i) b Q :=
  .read (readU16Or_of_holds _ (h.word hi) hv) hq

theorem writePointer_does {b : Bytes} {ptrs : List Nat} (h : Holds b base (ptrs.flatMap be16)) (hi : i < ptrs.length) :
    Edit.Does T (writeU16 (cellPtrOffset base i) v p) b fun _ b' =>
      Holds b' base ((ptrs.set i v).flatMap be16) ∧ SameOutside base (base + 2 * ptrs.length) b b' := by
  have hle := h.le (d := ptrs.flatMap be16) (ne_nil_of_length_pos (by rw [flatMap_be16_length]; omega))
  rw [flatMap_be16_length] at hle
  have hput : cellPtrOffset base i + (be16 v).length ≤ b.length := by
    rw [cellPtrOffset, be16_length]
    omega
  refine put_does hput ⟨h.setWord hi, (sameOutside_writeAt _ hput).mono ?_ ?_⟩
  · rw [cellPtrOffset]
    omega
  · rw [cellPtrOffset, be16_length]
    omega

/-- The pointers behind `pre` move one place up; their first place is free. -/
theorem shiftUp_does {b : Bytes} (pre mid post : List Nat) (y : Nat) (hlt : ∀ x ∈ mid, x < 65536)
    (h : Holds b base ((pre ++ (mid ++ y :: post)).flatMap be16)) :
    Edit.Does T (shiftUp base p pre.length mid.length) b fun _ b' =>
      ∃ x, Holds b' base ((pre ++ x :: (mid ++ post)).flatMap be16) ∧
        SameOutside base (base + 2 * (pre ++ (mid ++ y :: post)).length) b b' := by
  induction mid using List.reverseRecOn generalizing b y post with
  | nil => exact .pure ⟨y, h, .refl _ _ _⟩
  | append_singleton mid m ih =>
    rw [length_append, length_singleton]
    have hlen : pre.length + mid.length + 1 < (pre ++ (mid ++ [m] ++ y :: post)).length := by
      simp only [length_append, length_cons, length_nil]
      omega
    refine .bind (readPointer_does (Q := fun v b' => v = m ∧ b' = b) h ?_ (hlt m (by simp)) ⟨rfl, rfl⟩)
      fun v b₀ hv => ?_
    · rw [List.getElem?_append_right (by omega), append_assoc,
        List.getElem?_append_right (by omega), Nat.add_sub_cancel_left, Nat.sub_self]
      rfl
    rw [hv.1, hv.2]
    refine .bind (writePointer_does h hlen) fun _ b₁ h₁ => ?_
    have hset : (pre ++ (mid ++ [m] ++ y :: post)).set (pre.length + mid.length + 1) m =
        pre ++ (mid ++ m :: m :: post) := by
      rw [set_append_right (h := by omega), append_assoc,
        set_append_right (h := by omega)]
      rw [show pre.length + mid.length + 1 - pre.length - mid.length = 1 by omega]
      rfl
    rw [hset] at h₁
    refine (ih (m :: post) m (fun x hx => hlt x (mem_append_left _ hx)) h₁.1).mono fun _ b₂ h₂ => ?_
    obtain ⟨x, hx, hsame⟩ := h₂
    refine ⟨x, by simpa using hx, h₁.2.trans (hsame.mono (Nat.le_refl _) ?_)⟩
    simp only [length_append, length_cons, length_nil]
    omega

/-- The pointers behind `pre` and the one to remove move one place down. -/
theorem shiftDown_does {b : Bytes} (pre mid : List Nat) (x : Nat) (hlt : ∀ x ∈ mid, x < 65536)
    (h : Holds b base ((pre ++ x :: mid).flatMap be16)) :
    Edit.Does T (shiftDown base p mid.length pre.length) b fun _ b' =>
      ∃ y, Holds b' base ((pre ++ (mid ++ [y])).flatMap be16) ∧
        SameOutside base (base + 2 * (pre ++ x :: mid).length) b b' := by
  induction mid generalizing b pre x with
  | nil => exact .pure ⟨x, h, .refl _ _ _⟩
  | cons m mid ih =>
    refine .bind (readPointer_does (Q := fun v b' => v = m ∧ b' = b) h ?_ (hlt m mem_cons_self) ⟨rfl, rfl⟩)
      fun v b₀ hv => ?_
    · rw [List.getElem?_append_right (by omega), show pre.length + 1 - pre.length = 1 by omega]
      rfl
    rw [hv.1, hv.2]
    refine .bind (writePointer_does h (by simp)) fun _ b₁ h₁ => ?_
    have hset : (pre ++ x :: m :: mid).set pre.length m = pre ++ [m] ++ m :: mid := by
      rw [set_append_right (h := Nat.le_refl _), Nat.sub_self]
      simp
    rw [hset] at h₁
    have hrest := ih (pre ++ [m]) m (fun x hx => hlt x (mem_cons_of_mem _ hx)) h₁.1
    rw [length_append, length_singleton] at hrest
    refine hrest.mono fun _ b₂ h₂ => ?_
    obtain ⟨y, hy, hsame⟩ := h₂
    refine ⟨y, by simpa using hy, h₁.2.trans (hsame.mono (Nat.le_refl _) ?_)⟩
    simp only [length_append, length_cons, length_nil]
    omega

end

/-! ## Freeblocks -/

theorem Chained.same {b : Bytes} {lo hi : Nat} {blocks : List (Nat × Nat)} (h : Chained b blocks)
    (hs : SameOutside lo hi b b') (hd : ∀ x ∈ blocks, x.1 + 4 ≤ lo ∨ hi ≤ x.1) : Chained b' blocks := by
  induction blocks with
  | nil => trivial
  | cons x blocks ih =>
    exact ⟨h.1.same hs (hd x mem_cons_self), ih h.2 fun y hy => hd y (mem_cons_of_mem _ hy)⟩

theorem firstOffset_lt {blocks : List (Nat × Nat)} (h : ∀ x ∈ blocks, x.1 < 65536) : firstOffset blocks < 65536 := by
  cases blocks with
  | nil => decide
  | cons x blocks => exact h x mem_cons_self

theorem walkFreeblocksFrom_eq {b : Bytes} {p : UInt32} {blocks : List (Nat × Nat)} (h : Chained b blocks)
    (hlt : ∀ x ∈ blocks, 0 < x.1 ∧ x.1 < 65536 ∧ x.2 < 65536) (fuel : Nat) :
    walkFreeblocksFrom b p fuel (firstOffset blocks) =
      if blocks.length ≤ fuel then .ok blocks else .error (.traversalTooLong maxFreeblocks) := by
  induction blocks generalizing fuel with
  | nil =>
    unfold walkFreeblocksFrom
    simp [firstOffset]
  | cons x blocks ih =>
    obtain ⟨o, n⟩ := x
    obtain ⟨hh, hrest⟩ := h
    rw [holds_append, be16_length] at hh
    have hx := hlt (o, n) mem_cons_self
    have hbl : ∀ x ∈ blocks, 0 < x.1 ∧ x.1 < 65536 ∧ x.2 < 65536 := fun x hm => hlt x (mem_cons_of_mem _ hm)
    unfold walkFreeblocksFrom
    rw [show firstOffset ((o, n) :: blocks) = o from rfl, if_neg (by omega)]
    cases fuel with
    | zero => simp
    | succ fuel =>
      have hnext : readU16 b o p = .ok (firstOffset blocks) :=
        readU16Or_of_holds _ hh.1 (firstOffset_lt fun x hm => (hbl x hm).2.1)
      have hsize : readU16 b (o + 2) p = .ok n := readU16Or_of_holds _ hh.2 hx.2.2
      simp only [bind, Except.bind, hnext, hsize, ih hrest hbl fuel, length_cons, Nat.add_le_add_iff_right]
      split
      · rename_i e he
        split at he
        · cases he
        · rename_i hle
          rw [if_neg hle]
          exact he ▸ rfl
      · rename_i r he
        split at he
        · rename_i hle
          rw [if_pos hle]
          cases he
          rfl
        · cases he

theorem Space.block_lt {hs cs : Nat} {cells : List (Nat × Bytes)} {blocks : List (Nat × Nat)} {b : Bytes}
    (h : Space hs cells blocks cs b) (hx : x ∈ blocks) : 0 < x.1 ∧ x.1 < 65536 ∧ x.2 < 65536 := by
  have h1 := h.free.inside x hx
  have h2 := h.room
  have h3 := h.length_le
  omega

theorem Space.walkFreeblocks {hs cs : Nat} {cells : List (Nat × Bytes)} {blocks : List (Nat × Nat)} {b : Bytes}
    (h : Space hs cells blocks cs b) (p : UInt32) :
    walkFreeblocks b hs p =
      if blocks.length ≤ maxFreeblocks then .ok blocks else .error (.traversalTooLong maxFreeblocks) := by
  have hfirst : readU16 b (hs + 1) p = .ok (firstOffset blocks) :=
    readU16Or_of_holds _ h.first (firstOffset_lt fun x hx => (h.block_lt hx).2.1)
  rw [Btree.walkFreeblocks, hfirst]
  exact walkFreeblocksFrom_eq h.chain (fun x hx => h.block_lt hx) _

section
variable {T : Prop} {p : UInt32}

theorem writeFreeblocks_does {b : Bytes} {lo : Nat} {blocks : List (Nat × Nat)} (h : Blocks lo b.length blocks) :
    Edit.Does T (writeFreeblocks p blocks) b fun _ b' => SameOutside lo b.length b b' ∧ Chained b' blocks ∧
      ∀ o d, (∀ x ∈ blocks, Apart (o, d.length) x) → Holds b o d → Holds b' o d := by
  induction blocks generalizing b with
  | nil => exact .pure ⟨.refl _ _ _, trivial, fun _ _ _ h => h⟩
  | cons x blocks ih =>
    obtain ⟨o, n⟩ := x
    have hx := h.inside (o, n) mem_cons_self
    have hsort := pairwise_cons.1 h.sorted
    dsimp only at hx hsort
    refine .bind (writeU16_spec (by omega)) fun _ b₁ h₁ => .bind (writeU16_spec (by rw [h₁.1.length]; omega))
      fun _ b₂ h₂ => ?_
    have hl₂ := h₂.1.length.trans h₁.1.length
    refine (ih ⟨fun y hy => ?_, hsort.2⟩).mono fun _ b₃ h₃ => ?_
    · rw [hl₂]
      exact h.inside y (mem_cons_of_mem _ hy)
    · obtain ⟨hs₃, hch, hkeep⟩ := h₃
      rw [hl₂] at hs₃
      have hs₂ : SameOutside lo b.length b b₂ := (h₁.1.mono hx.1 (by omega)).trans (h₂.1.mono (by omega) (by omega))
      refine ⟨hs₂.trans hs₃, ⟨?_, hch⟩, fun o' d hap hd => hkeep o' d (fun y hy => hap y (mem_cons_of_mem _ hy)) ?_⟩
      · rw [holds_append, be16_length]
        constructor
        · refine hkeep _ _ (fun y hy => .inl ?_) (h₁.2.same h₂.1 (.inl (Nat.le_refl _)))
          have := hsort.1 y hy
          rw [be16_length]
          omega
        · refine hkeep _ _ (fun y hy => .inl ?_) h₂.2
          have := hsort.1 y hy
          rw [be16_length]
          omega
      · have hxa := hap (o, n) mem_cons_self
        simp only [Apart] at hxa
        exact (hd.same h₁.1 (by omega)).same h₂.1 (by omega)

theorem writeFreeblockChain_does {b : Bytes} {hs lo : Nat} {blocks : List (Nat × Nat)}
    (h : Blocks lo b.length blocks) (hlo : hs + 3 ≤ lo) (hlen : hs + 3 ≤ b.length) :
    Edit.Does T (writeFreeblockChain hs p blocks) b fun _ b' => SameOutside hs b.length b b' ∧ Chained b' blocks ∧
      Holds b' (hs + 1) (be16 (firstOffset blocks)) ∧
      ∀ o d, (∀ x ∈ blocks, Apart (o, d.length) x) → Apart (o, d.length) (hs + 1, 2) → Holds b o d →
        Holds b' o d := by
  refine .bind (writeFreeblocks_does h) fun _ b₁ h₁ => ?_
  obtain ⟨hs₁, hch, hkeep⟩ := h₁
  refine (writeU16_spec (by rw [hs₁.length]; omega)).mono fun _ b₂ h₂ => ?_
  refine ⟨(hs₁.mono (by omega) (Nat.le_refl _)).trans (h₂.1.mono (by omega) (by omega)),
    hch.same h₂.1 fun x hx => .inr ?_, h₂.2, fun o d hap hap' hd => (hkeep o d hap hd).same h₂.1 hap'⟩
  exact Nat.le_trans hlo (h.inside x hx).1

end

/-! ## Giving back a range -/

/-- What a range is apart from is apart from these blocks too. -/
def Covers (blocks : List (Nat × Nat)) (x : Nat × Nat) (blocks' : List (Nat × Nat)) : Prop :=
  ∀ y : Nat × Nat, 0 < y.2 → Apart y x → (∀ z ∈ blocks, Apart y z) → ∀ z ∈ blocks', Apart y z

section
variable {lo hi o n : Nat} {blocks : List (Nat × Nat)}

theorem joinNext_blocks (h : Blocks lo hi blocks) (hlo : lo ≤ o) (hhi : o + n ≤ hi) (hn : 4 ≤ n)
    (hbefore : ∀ x ∈ blocks, o + n ≤ x.1) :
    Blocks lo hi (joinNext o n blocks) ∧ (∀ x ∈ joinNext o n blocks, o ≤ x.1) ∧
      Covers blocks (o, n) (joinNext o n blocks) := by
  cases blocks with
  | nil => exact ⟨⟨by simp [joinNext, hlo, hhi, hn], by simp [joinNext]⟩, by simp [joinNext], by simp [Covers, joinNext]⟩
  | cons x blocks =>
    obtain ⟨o', n'⟩ := x
    have hx := h.inside (o', n') mem_cons_self
    have hsort := pairwise_cons.1 h.sorted
    dsimp only at hx hsort
    rw [show joinNext o n ((o', n') :: blocks) =
      if o + n = o' then (o, n + n') :: blocks else (o, n) :: (o', n') :: blocks from rfl]
    by_cases htouch : o + n = o'
    · rw [if_pos htouch]
      refine ⟨⟨?_, pairwise_cons.2 ⟨fun y hy => ?_, hsort.2⟩⟩, ?_, fun y hy hap hz => ?_⟩
      · intro y hy
        rcases mem_cons.1 hy with rfl | hy
        · dsimp only
          omega
        · exact h.inside y (mem_cons_of_mem _ hy)
      · have := hsort.1 y hy
        dsimp only
        omega
      · intro y hy
        rcases mem_cons.1 hy with rfl | hy
        · exact Nat.le_refl _
        · have := hbefore y (mem_cons_of_mem _ hy)
          omega
      · intro z hmem
        rcases mem_cons.1 hmem with rfl | hmem
        · have := hz (o', n') mem_cons_self
          simp only [Apart] at hap this ⊢
          omega
        · exact hz z (mem_cons_of_mem _ hmem)
    · rw [if_neg htouch]
      refine ⟨⟨?_, pairwise_cons.2 ⟨fun y hy => hbefore y hy, h.sorted⟩⟩, ?_, fun y hy hap hz => ?_⟩
      · intro y hy
        rcases mem_cons.1 hy with rfl | hy
        · exact ⟨hlo, hhi, hn⟩
        · exact h.inside y hy
      · intro y hy
        rcases mem_cons.1 hy with rfl | hy
        · exact Nat.le_refl _
        · have := hbefore y hy
          omega
      · intro z hmem
        rcases mem_cons.1 hmem with rfl | hmem
        · exact hap
        · exact hz z hmem

theorem mem_dropWhile_ge (hsort : blocks.Pairwise fun x y => x.1 + x.2 ≤ y.1) (hx : x ∈ blocks.dropWhile (·.1 < o)) :
    o ≤ x.1 := by
  induction blocks with
  | nil => cases hx
  | cons y blocks ih =>
    rw [pairwise_cons] at hsort
    by_cases hy : y.1 < o
    · rw [dropWhile_cons_of_pos (by simpa using hy)] at hx
      exact ih hsort.2 hx
    · rw [dropWhile_cons_of_neg (by simpa using hy)] at hx
      rcases mem_cons.1 hx with rfl | hx
      · omega
      · have := hsort.1 x hx
        omega

theorem Blocks.append {left right : List (Nat × Nat)} (hl : Blocks lo hi left) (hr : Blocks lo hi right)
    (h : ∀ x ∈ left, ∀ y ∈ right, x.1 + x.2 ≤ y.1) : Blocks lo hi (left ++ right) where
  inside x hx := (mem_append.1 hx).elim (hl.inside x) (hr.inside x)
  sorted := pairwise_append.2 ⟨hl.sorted, hr.sorted, h⟩

theorem Blocks.sublist {left : List (Nat × Nat)} (h : Blocks lo hi blocks) (hs : left.Sublist blocks) :
    Blocks lo hi left := ⟨fun x hx => h.inside x (hs.subset hx), h.sorted.sublist hs⟩

/-- What becomes of a range: a block between the ones before and behind it,
joined with the one before where they touch. -/
theorem addFreeblock_cases (h : Blocks lo hi blocks) (hap : ∀ x ∈ blocks, Apart (o, n) x) :
    ∃ left right, (∀ x ∈ right, o + n ≤ x.1) ∧
      ((blocks = left ++ right ∧ (∀ x ∈ left, x.1 + x.2 < o) ∧
          addFreeblock blocks o n = left ++ joinNext o n right) ∨
        ∃ off k, blocks = left ++ (off, k) :: right ∧ off + k = o ∧
          addFreeblock blocks o n = left ++ joinNext off (n + k) right) := by
  have hbefore : ∀ x ∈ blocks.takeWhile (·.1 < o), x.1 + x.2 ≤ o := by
    intro x hx
    have hlt : x.1 < o := by simpa using all_eq_true.1 all_takeWhile x hx
    have := hap x ((takeWhile_sublist _).subset hx)
    simp only [Apart] at this
    omega
  have hafter : ∀ x ∈ blocks.dropWhile (·.1 < o), o + n ≤ x.1 := by
    intro x hx
    have hge := mem_dropWhile_ge h.sorted hx
    have hmem := (dropWhile_sublist _).subset hx
    have h1 := hap x hmem
    have h2 := h.inside x hmem
    simp only [Apart] at h1
    omega
  have hsplit := takeWhile_append_dropWhile (p := fun x : Nat × Nat => decide (x.1 < o)) (l := blocks)
  have hB := h.sublist (takeWhile_sublist fun x : Nat × Nat => decide (x.1 < o))
  unfold addFreeblock
  dsimp only
  generalize blocks.takeWhile (·.1 < o) = before at *
  generalize blocks.dropWhile (·.1 < o) = after at *
  subst hsplit
  split
  · rename_i off k hlast
    obtain ⟨init, rfl⟩ := List.getLast?_eq_some_iff.1 hlast
    split
    · rename_i htouch
      exact ⟨init, after, hafter, .inr ⟨off, k, by rw [append_assoc]; rfl, htouch, by rw [dropLast_concat]⟩⟩
    · rename_i htouch
      refine ⟨init ++ [(off, k)], after, hafter, .inl ⟨rfl, fun x hx => ?_, rfl⟩⟩
      have hle := hbefore x hx
      rcases mem_append.1 hx with hx | hx
      · have h1 := (pairwise_append.1 hB.sorted).2.2 x hx (off, k) mem_cons_self
        have h2 := hbefore (off, k) (by simp)
        have h3 := (hB.inside (off, k) (by simp)).2.2
        dsimp only at h1 h2 h3
        omega
      · rw [mem_singleton.1 hx] at hle ⊢
        exact Nat.lt_of_le_of_ne hle htouch
  · rename_i hlast
    rw [List.getLast?_eq_none_iff] at hlast
    subst hlast
    exact ⟨[], after, hafter, .inl ⟨rfl, fun x hx => absurd hx not_mem_nil, rfl⟩⟩

/-- The range becomes a block, joined with the blocks it touches. -/
theorem addFreeblock_blocks (h : Blocks lo hi blocks) (hlo : lo ≤ o) (hhi : o + n ≤ hi) (hn : 4 ≤ n)
    (hap : ∀ x ∈ blocks, Apart (o, n) x) :
    Blocks lo hi (addFreeblock blocks o n) ∧ Covers blocks (o, n) (addFreeblock blocks o n) := by
  obtain ⟨left, right, hright, ⟨rfl, hleft, hadd⟩ | ⟨off, k, rfl, htouch, hadd⟩⟩ := addFreeblock_cases h hap
  · obtain ⟨hj, hge, hcov⟩ := joinNext_blocks (h.sublist (sublist_append_right _ _)) hlo hhi hn hright
    rw [hadd]
    refine ⟨(h.sublist (sublist_append_left _ _)).append hj fun x hx y hy =>
      Nat.le_trans (Nat.le_of_lt (hleft x hx)) (hge y hy), fun y hy hapy hz z hmem => ?_⟩
    rcases mem_append.1 hmem with hmem | hmem
    · exact hz z (mem_append_left _ hmem)
    · exact hcov y hy hapy (fun w hw => hz w (mem_append_right _ hw)) z hmem
  · have hoff := h.inside (off, k) (by simp)
    have hle : ∀ x ∈ left, x.1 + x.2 ≤ off := fun x hx =>
      (pairwise_append.1 h.sorted).2.2 x hx (off, k) mem_cons_self
    have hsub : right.Sublist (left ++ (off, k) :: right) :=
      (sublist_cons_self _ _).trans (sublist_append_right _ _)
    dsimp only at hoff
    obtain ⟨hj, hge, hcov⟩ := joinNext_blocks (o := off) (n := n + k) (h.sublist hsub) (by omega) (by omega) (by omega)
      fun x hx => by have := hright x hx; omega
    rw [hadd]
    refine ⟨(h.sublist (sublist_append_left _ _)).append hj fun x hx y hy => Nat.le_trans (hle x hx) (hge y hy),
      fun y hy hapy hz z hmem => ?_⟩
    rcases mem_append.1 hmem with hmem | hmem
    · exact hz z (mem_append_left _ hmem)
    · refine hcov y hy ?_ (fun w hw => hz w (by simp [hw])) z hmem
      have := hz (off, k) (by simp)
      simp only [Apart] at hapy this ⊢
      omega

theorem joinNext_tidy (h : Tidy blocks) (hn : 0 < n) (hafter : ∀ x ∈ blocks, o + n ≤ x.1) :
    Tidy (joinNext o n blocks) ∧ ∀ x ∈ joinNext o n blocks, o ≤ x.1 := by
  cases blocks with
  | nil => exact ⟨pairwise_singleton _ _, by simp [joinNext]⟩
  | cons x blocks =>
    obtain ⟨o', n'⟩ := x
    obtain ⟨hfirst, hrest⟩ := pairwise_cons.1 h
    have hx := hafter (o', n') mem_cons_self
    dsimp only at hx
    have hge : ∀ y ∈ blocks, o ≤ y.1 := fun y hy => by have := hafter y (mem_cons_of_mem _ hy); omega
    rw [joinNext]
    split
    · refine ⟨pairwise_cons.2 ⟨fun y hy => ?_, hrest⟩, forall_mem_cons.2 ⟨Nat.le_refl _, hge⟩⟩
      have := hfirst y hy
      dsimp only at this ⊢
      omega
    · refine ⟨pairwise_cons.2 ⟨forall_mem_cons.2 ⟨?_, fun y hy => ?_⟩, h⟩,
        forall_mem_cons.2 ⟨Nat.le_refl _, forall_mem_cons.2 ⟨by dsimp only; omega, hge⟩⟩⟩
      · dsimp only
        omega
      · have := hfirst y hy
        dsimp only at this ⊢
        omega

/-- A range that touches a block is joined with it, so no two blocks touch
afterwards. -/
theorem addFreeblock_tidy (ht : Tidy blocks) (h : Blocks lo hi blocks) (hn : 4 ≤ n)
    (hap : ∀ x ∈ blocks, Apart (o, n) x) : Tidy (addFreeblock blocks o n) := by
  obtain ⟨left, right, hright, ⟨rfl, hleft, hadd⟩ | ⟨off, k, rfl, htouch, hadd⟩⟩ := addFreeblock_cases h hap
  · obtain ⟨hl, hr, -⟩ := pairwise_append.1 ht
    obtain ⟨hj, hge⟩ := joinNext_tidy hr (by omega) hright
    rw [hadd]
    exact pairwise_append.2 ⟨hl, hj, fun x hx y hy => Nat.lt_of_lt_of_le (hleft x hx) (hge y hy)⟩
  · obtain ⟨hl, hr, hcross⟩ := pairwise_append.1 ht
    obtain ⟨hj, hge⟩ := joinNext_tidy (o := off) (n := n + k) (pairwise_cons.1 hr).2 (by omega)
      fun x hx => by have := hright x hx; omega
    rw [hadd]
    exact pairwise_append.2
      ⟨hl, hj, fun x hx y hy => Nat.lt_of_lt_of_le (hcross x hx (off, k) mem_cons_self) (hge y hy)⟩

/-- Blocks from the content start on become part of the gap before it. -/
theorem absorbBlocks_spec (fuel : Nat) {cur : Nat} (h : Blocks lo hi blocks) (hge : ∀ x ∈ blocks, cur ≤ x.1)
    (hcur : cur ≤ hi) :
    (absorbBlocks fuel blocks cur).1.Sublist blocks ∧ cur ≤ (absorbBlocks fuel blocks cur).2 ∧
      (absorbBlocks fuel blocks cur).2 ≤ hi ∧
      (∀ x ∈ (absorbBlocks fuel blocks cur).1, (absorbBlocks fuel blocks cur).2 ≤ x.1) ∧
      ∀ y : Nat × Nat, 0 < y.2 → cur ≤ y.1 → (∀ x ∈ blocks, Apart y x) → (absorbBlocks fuel blocks cur).2 ≤ y.1 := by
  induction fuel generalizing blocks cur with
  | zero => exact ⟨.refl _, Nat.le_refl _, hcur, hge, fun y _ hy _ => hy⟩
  | succ fuel ih =>
    unfold absorbBlocks
    split
    · exact ⟨.refl _, Nat.le_refl _, hcur, hge, fun y _ hy _ => hy⟩
    · rename_i x hx
      have hxc : x.1 = cur := by simpa using List.find?_some hx
      have hxm := mem_of_find?_eq_some hx
      have hxi := h.inside x hxm
      obtain ⟨x', l₁, l₂, hne, hx', heq, her⟩ := exists_of_eraseP hxm (p := fun y => decide (y.1 = cur)) (by simpa using hxc)
      have hxx : x' = x := by
        have hf : blocks.find? (fun y => decide (y.1 = cur)) = some x' := by
          rw [heq, List.find?_append, List.find?_eq_none.2 hne, Option.none_or,
            List.find?_cons_of_pos (p := fun y : Nat × Nat => decide (y.1 = cur)) hx']
        rw [hx] at hf
        exact (Option.some.inj hf).symm
      rw [hxx] at heq
      have hsort := h.sorted
      rw [heq, pairwise_append, pairwise_cons] at hsort
      have hrest : ∀ y ∈ blocks.eraseP (fun y => decide (y.1 = cur)), cur + x.2 ≤ y.1 := by
        intro y hy
        rw [her] at hy
        rcases mem_append.1 hy with hy | hy
        · have h1 := hsort.2.2 y hy x mem_cons_self
          have h2 := hge y (by rw [heq]; exact mem_append_left _ hy)
          have h3 := (h.inside y (by rw [heq]; exact mem_append_left _ hy)).2.2
          omega
        · have := hsort.2.1.1 y hy
          omega
      obtain ⟨i1, i2, i3, i4, i5⟩ := ih (h.sublist eraseP_sublist) hrest (by omega)
      refine ⟨i1.trans eraseP_sublist, by omega, i3, i4, fun y hy hcy hap => i5 y hy ?_ fun z hz => ?_⟩
      · have := hap x hxm
        simp only [Apart] at this
        omega
      · exact hap z (eraseP_sublist.subset hz)

end

section
variable {T : Prop} {p : UInt32} {b : Bytes} {hs cs : Nat} {ty : UInt8} {cells : List (Nat × Bytes)}
  {blocks : List (Nat × Nat)}

theorem Space.readContentStart (h : Space hs cells blocks cs b) : readContentStart b hs p = .ok cs := by
  have h1 := h.room
  have h2 := h.start_le
  have h3 := h.length_le
  have hlt : storedOffset cs < 65536 := by
    unfold storedOffset
    split <;> omega
  have hread : readU16 b (hs + 5) p = .ok (storedOffset cs) := readU16Or_of_holds _ h.start hlt
  rw [Btree.readContentStart, hread]
  unfold storedOffset
  by_cases hcs : 65536 ≤ cs
  · rw [if_pos hcs]
    exact congrArg Except.ok (by rw [if_pos rfl]; omega)
  · rw [if_neg hcs]
    exact congrArg Except.ok (if_neg (by omega))

/-- An edit that leaves the type, the count, the pointers and the cells
alone. -/
theorem Cells.keep {hl : Nat} (h : Cells hs hl ty cells b)
    (hk : ∀ o d, Holds b o d → (o = hs ∧ d.length = 1) ∨ (o = hs + 3 ∧ d.length = 2) ∨
      (o = hs + hl ∧ d.length = 2 * cells.length) ∨ (∃ c ∈ cells, o = c.1 ∧ d = c.2) → Holds b' o d) :
    Cells hs hl ty cells b' where
  type := hk _ _ h.type (.inl ⟨rfl, rfl⟩)
  count := hk _ _ h.count (.inr (.inl ⟨rfl, rfl⟩))
  pointers := hk _ _ h.pointers (.inr (.inr (.inl ⟨rfl, by rw [flatMap_be16_length, length_map]⟩)))
  cell c hc := hk _ _ (h.cell c hc) (.inr (.inr (.inr ⟨c, hc, rfl, rfl⟩)))
  offset_lt := h.offset_lt
  length_lt := h.length_lt

/-- A new chain of freeblocks for a page with its cells and its content start
in place. -/
theorem setFreeblocks_does (hc : Cells hs 8 ty cells b) (hlen : b.length ≤ 65536)
    (hstart : Holds b (hs + 5) (be16 (storedOffset cs))) (hroom : hs + 8 + 2 * cells.length ≤ cs)
    (hcs : cs ≤ b.length) (hin : ∀ c ∈ cells, cs ≤ c.1 ∧ c.1 + c.2.length ≤ b.length ∧ 0 < c.2.length)
    (hfree : Blocks cs b.length blocks) (hap : cells.Pairwise fun c d => Apart (extent c) (extent d))
    (hcross : ∀ c ∈ cells, ∀ x ∈ blocks, Apart (extent c) x) :
    Edit.Does T (writeFreeblockChain hs p blocks) b fun _ b' =>
      SameOutside hs b.length b b' ∧ Cells hs 8 ty cells b' ∧ Space hs cells blocks cs b' := by
  refine (writeFreeblockChain_does hfree (by omega) (by omega)).mono fun _ b' h => ?_
  obtain ⟨hsame, hch, hfirst, hkeep⟩ := h
  have hfront : ∀ o d, o + d.length ≤ cs → Apart (o, d.length) (hs + 1, 2) → Holds b o d → Holds b' o d :=
    fun o d hd hap h => hkeep o d (fun x hx => .inl (Nat.le_trans hd (hfree.inside x hx).1)) hap h
  refine ⟨hsame, hc.keep fun o d hd hcase => ?_, ?_⟩
  · rcases hcase with ⟨rfl, hl⟩ | ⟨rfl, hl⟩ | ⟨rfl, hl⟩ | ⟨c, hcm, rfl, rfl⟩
    · exact hfront _ _ (by omega) (.inl (by dsimp only; omega)) hd
    · exact hfront _ _ (by omega) (.inr (by dsimp only; omega)) hd
    · exact hfront _ _ (by omega) (.inr (by dsimp only; omega)) hd
    · have h1 := (hin c hcm).1
      exact hkeep _ _ (hcross c hcm) (.inr (by dsimp only; omega)) hd
  · exact ⟨by rw [hsame.length]; exact hlen, hfirst,
      hfront _ _ (by rw [be16_length]; omega) (.inr (by dsimp only; omega)) hstart, hch, hroom,
      by rw [hsame.length]; exact hcs, by rw [hsame.length]; exact hin, by rw [hsame.length]; exact hfree, hap, hcross⟩

/-- The fragment count is no part of the layout. -/
theorem setFragments_does (v : UInt8) (hc : Cells hs 8 ty cells b) (hsp : Space hs cells blocks cs b) :
    Edit.Does T (putU8 (hs + 7) v p) b fun _ b' =>
      SameOutside hs b.length b b' ∧ Cells hs 8 ty cells b' ∧ Space hs cells blocks cs b' := by
  have hroom := hsp.room
  have hstart := hsp.start_le
  refine (putU8_spec (by omega)).mono fun _ b' h => ?_
  have hl := h.1.length
  refine ⟨h.1.mono (by omega) (by omega), hc.keep fun o d hd hcase => ?_, ?_⟩
  · rcases hcase with ⟨rfl, hl⟩ | ⟨rfl, hl⟩ | ⟨rfl, hl⟩ | ⟨c, hcm, rfl, rfl⟩
    · exact hd.same h.1 (.inl (by omega))
    · exact hd.same h.1 (.inl (by omega))
    · exact hd.same h.1 (.inr (by omega))
    · have := (hsp.cells_inside c hcm).1
      exact hd.same h.1 (.inr (by omega))
  · exact ⟨by rw [hl]; exact hsp.length_le, hsp.first.same h.1 (.inl (by rw [be16_length]; omega)),
      hsp.start.same h.1 (.inl (Nat.le_refl _)),
      hsp.chain.same h.1 fun x hx => .inr (by have := (hsp.free.inside x hx).1; omega), hroom,
      by rw [hl]; exact hstart, by rw [hl]; exact hsp.cells_inside, by rw [hl]; exact hsp.free, hsp.cells_apart,
      hsp.cross⟩

theorem Space.walk_does (hsp : Space hs cells blocks cs b) (hT : T → blocks.length ≤ maxFreeblocks) :
    Edit.Does T (Edit.read fun buf => Btree.walkFreeblocks buf hs p) b fun r b' => r = blocks ∧ b' = b := by
  by_cases hcap : blocks.length ≤ maxFreeblocks
  · exact Edit.Does.read (by rw [hsp.walkFreeblocks, if_pos hcap]) ⟨rfl, rfl⟩
  · intro s hs'
    subst hs'
    rw [Edit.read, Action.exec_ofFn, hsp.walkFreeblocks, if_neg hcap]
    exact fun ht => hcap (hT ht)

/-- The range `o` to `o + n` becomes free space. -/
theorem freeRange_does {o n : Nat} (hc : Cells hs 8 ty cells b) (hsp : Space hs cells blocks cs b) (hn : 0 < n)
    (ho : cs ≤ o) (hon : o + n ≤ b.length) (hcells : ∀ c ∈ cells, Apart (extent c) (o, n))
    (hblocks : ∀ x ∈ blocks, Apart x (o, n))
    (hT : T → blocks.length ≤ maxFreeblocks ∨ o ≠ cs ∧ n < minFreeblockSize) :
    Edit.Does T (freeRange hs p o (o + n)) b fun _ b' =>
      SameOutside hs b.length b b' ∧ Cells hs 8 ty cells b' ∧
        ∃ blocks' cs', Space hs cells blocks' cs' b' ∧ (Tidy blocks → Tidy blocks') := by
  have hroom := hsp.room
  have hstart := hsp.start_le
  unfold freeRange
  refine .bind (Edit.Does.read (Q := fun v b' => v = cs ∧ b' = b) hsp.readContentStart ⟨rfl, rfl⟩) fun v b₀ hv => ?_
  rw [hv.1, hv.2, Nat.add_sub_cancel_left]
  split
  · rename_i hcs
    refine .bind (hsp.walk_does fun t => (hT t).resolve_right fun h => h.1 hcs) fun r b₀ hr => ?_
    rw [hr.1, hr.2]
    have hge : ∀ x ∈ blocks, o + n ≤ x.1 := by
      intro x hx
      have h1 := hsp.free.inside x hx
      have h2 := hblocks x hx
      simp only [Apart] at h2
      omega
    obtain ⟨hsub, hle, hle', hge', hfar⟩ := absorbBlocks_spec blocks.length hsp.free hge hon
    generalize absorbBlocks blocks.length blocks (o + n) = r at *
    obtain ⟨blocks', cs'⟩ := r
    dsimp only at hsub hle hle' hge' hfar ⊢
    have hfree' : Blocks cs' b.length blocks' :=
      ⟨fun x hx => ⟨hge' x hx, ((hsp.free.sublist hsub).inside x hx).2⟩, (hsp.free.sublist hsub).sorted⟩
    have hcs' : ∀ c ∈ cells, cs' ≤ c.1 := by
      intro c hcm
      have h1 := hsp.cells_inside c hcm
      have h2 := hcells c hcm
      simp only [Apart, extent] at h2
      exact hfar (extent c) h1.2.2 (by simp only [extent]; omega) fun x hx => hsp.cross c hcm x hx
    refine .bind (writeU16_spec (by omega)) fun _ b₁ h₁ => ?_
    have hl₁ := h₁.1.length
    have hc₁ : Cells hs 8 ty cells b₁ := hc.keep fun o' d hd hcase => by
      rcases hcase with ⟨rfl, hl⟩ | ⟨rfl, hl⟩ | ⟨rfl, hl⟩ | ⟨c, hcm, rfl, rfl⟩
      · exact hd.same h₁.1 (.inl (by omega))
      · exact hd.same h₁.1 (.inl (by omega))
      · exact hd.same h₁.1 (.inr (by omega))
      · have := hcs' c hcm
        exact hd.same h₁.1 (.inr (by omega))
    refine (setFreeblocks_does hc₁ (by rw [hl₁]; exact hsp.length_le) h₁.2 (by omega) (by omega) (fun c hcm => ?_)
      (by rw [hl₁]; exact hfree') hsp.cells_apart fun c hcm x hx => hsp.cross c hcm x (hsub.subset hx)).mono
      fun _ b₂ h₂ => ?_
    · rw [hl₁]
      exact ⟨hcs' c hcm, (hsp.cells_inside c hcm).2⟩
    · rw [hl₁] at h₂
      exact ⟨(h₁.1.mono (by omega) (by omega)).trans h₂.1, h₂.2.1, _, _, h₂.2.2, fun ht => ht.sublist hsub⟩
  · split
    · -- Fewer than four bytes become fragments.
      obtain ⟨v, hv⟩ : ∃ v : UInt8, b[hs + 7]? = some v := ⟨_, List.getElem?_eq_getElem (by omega)⟩
      have hread : readFragmentedBytes b hs p = .ok v := by rw [readFragmentedBytes, readPageType, hv]
      refine .bind (Edit.Does.read (Q := fun _ b' => b' = b) hread rfl) fun frag b₀ hb => ?_
      rw [hb]
      exact (setFragments_does _ hc hsp).mono fun _ b₁ h₁ => ⟨h₁.1, h₁.2.1, _, _, h₁.2.2, id⟩
    · rename_i hmin
      refine .bind (hsp.walk_does fun t => (hT t).resolve_right fun h => hmin h.2) fun r b₀ hr => ?_
      rw [hr.1, hr.2]
      obtain ⟨hfree', hcov⟩ := addFreeblock_blocks hsp.free ho hon (Nat.not_lt.1 hmin) fun x hx => (hblocks x hx).symm
      refine (setFreeblocks_does hc hsp.length_le hsp.start hroom hstart hsp.cells_inside hfree' hsp.cells_apart
        fun c hcm => ?_).mono fun _ b₁ h₁ => ⟨h₁.1, h₁.2.1, _, _, h₁.2.2, fun ht => addFreeblock_tidy ht hsp.free
          (Nat.not_lt.1 hmin) fun x hx => (hblocks x hx).symm⟩
      exact hcov (extent c) (hsp.cells_inside c hcm).2.2 (hcells c hcm) (hsp.cross c hcm)

end

/-! ## Splices -/

section
variable {T : Prop} {p : UInt32} {b : Bytes} {hs cs : Nat} {ty : UInt8} {blocks : List (Nat × Nat)}

theorem mem_append_cons_iff {α : Type} {pre post : List α} {x c : α} :
    c ∈ pre ++ x :: post ↔ c = x ∨ c ∈ pre ++ post := by
  simp only [mem_append, mem_cons]
  tauto

theorem Space.insert {cell : Bytes} (hc : Cells hs 8 ty (pre ++ post) b) (hsp : Space hs (pre ++ post) blocks cs b)
    (hne : cell ≠ []) (hfit : hs + 8 + 2 * ((pre ++ post).length + 1) ≤ cs - cell.length)
    (hsame : SameOutside hs cs b b') (htype : Holds b' hs [ty]) (hfirst : Holds b' (hs + 1) (be16 (firstOffset blocks)))
    (hcount : Holds b' (hs + 3) (be16 ((pre ++ post).length + 1)))
    (hstart : Holds b' (hs + 5) (be16 (storedOffset (cs - cell.length))))
    (hptrs : Holds b' (hs + 8) ((pre.map Prod.fst ++ (cs - cell.length) :: post.map Prod.fst).flatMap be16))
    (hcell : Holds b' (cs - cell.length) cell) :
    Cells hs 8 ty (pre ++ (cs - cell.length, cell) :: post) b' ∧
      Space hs (pre ++ (cs - cell.length, cell) :: post) blocks (cs - cell.length) b' := by
  have hle := hsp.start_le
  have hlen := hsp.length_le
  have hpos := length_pos_iff.2 hne
  have hl := hsame.length
  have hnum : (pre ++ (cs - cell.length, cell) :: post).length = (pre ++ post).length + 1 := by
    simp only [length_append, length_cons]
    omega
  have hap : ∀ c ∈ pre ++ post, Apart (cs - cell.length, cell.length) (extent c) := fun c hcm =>
    .inl (by have := (hsp.cells_inside c hcm).1; simp only [extent]; omega)
  constructor
  · refine ⟨htype, by rw [hnum]; exact hcount, by rw [map_append, map_cons]; exact hptrs, fun c hcm => ?_,
      fun c hcm => ?_, by omega⟩
    · rcases mem_append_cons_iff.1 hcm with rfl | hcm
      · exact hcell
      · exact (hc.cell c hcm).same hsame (.inr (hsp.cells_inside c hcm).1)
    · rcases mem_append_cons_iff.1 hcm with rfl | hcm
      · dsimp only
        omega
      · exact hc.offset_lt c hcm
  · refine ⟨by rw [hl]; exact hlen, hfirst, hstart, hsp.chain.same hsame fun x hx => .inr (hsp.free.inside x hx).1,
      by omega, by omega, fun c hcm => ?_, ?_, ?_, fun c hcm x hx => ?_⟩
    · rw [hl]
      rcases mem_append_cons_iff.1 hcm with rfl | hcm
      · dsimp only
        omega
      · have := hsp.cells_inside c hcm
        omega
    · rw [hl]
      exact ⟨fun x hx => ⟨by have := (hsp.free.inside x hx).1; omega, (hsp.free.inside x hx).2⟩, hsp.free.sorted⟩
    · have hpair := pairwise_append.1 hsp.cells_apart
      refine pairwise_append.2 ⟨hpair.1, pairwise_cons.2 ⟨fun d hd => ?_, hpair.2.1⟩, fun c hcm d hd => ?_⟩
      · exact hap d (mem_append_right _ hd)
      · rcases mem_cons.1 hd with rfl | hd
        · exact (hap c (mem_append_left _ hcm)).symm
        · exact hpair.2.2 c hcm d hd
    · rcases mem_append_cons_iff.1 hcm with rfl | hcm
      · exact .inl (by have := (hsp.free.inside x hx).1; simp only [extent]; omega)
      · exact hsp.cross c hcm x hx

/-- A cell goes into the gap between the pointers and the content, if it fits
there. -/
theorem spliceInsert_placed {cell : Bytes} (hc : Cells hs 8 ty (pre ++ post) b)
    (hsp : Space hs (pre ++ post) blocks cs b) (hne : cell ≠ []) :
    Edit.Does T (spliceInsertCell hs p pre.length cell) b fun r b' =>
      if r then SameOutside hs b.length b b' ∧ Cells hs 8 ty (pre ++ (cs - cell.length, cell) :: post) b' ∧
        Space hs (pre ++ (cs - cell.length, cell) :: post) blocks (cs - cell.length) b'
      else b' = b := by
  have hstart := hsp.start_le
  have hpos := length_pos_iff.2 hne
  unfold spliceInsertCell
  refine .bind (Edit.Does.read (Q := fun v b' => v = (pre ++ post).length ∧ b' = b) hc.readNumCells ⟨rfl, rfl⟩)
    fun v b₀ hv => ?_
  rw [hv.1, hv.2]
  refine .bind (Edit.Does.read (Q := fun v b' => v = cs ∧ b' = b) hsp.readContentStart ⟨rfl, rfl⟩) fun v b₀ hv => ?_
  rw [hv.1, hv.2]
  dsimp only [cellPtrOffset]
  split
  · exact .pure (by simp)
  · rename_i hfit
    rw [not_or, Nat.not_lt, Nat.not_lt] at hfit
    simp only [length_append] at hfit ⊢
    rw [Nat.add_sub_cancel_left]
    refine .bind (put_spec (by omega)) fun _ b₁ h₁ => ?_
    rw [Nat.sub_add_cancel (by omega)] at h₁
    have hl₁ := h₁.1.length
    -- The word behind the last pointer belongs to the gap.
    obtain ⟨y, hy⟩ := exists_word (b := b₁) (o := hs + 8 + 2 * (pre ++ post).length)
      (by rw [length_append]; omega)
    have hptrs : Holds b₁ (hs + 8) ((pre.map Prod.fst ++ (post.map Prod.fst ++ [y])).flatMap be16) := by
      rw [← append_assoc, ← map_append, flatMap_append, holds_append, flatMap_be16_length,
        length_map]
      refine ⟨hc.pointers.same h₁.1 (.inl ?_), by simpa using hy⟩
      rw [flatMap_be16_length, length_map, length_append]
      omega
    have hlt : ∀ x ∈ post.map Prod.fst, x < 65536 := by
      intro x hx
      obtain ⟨c, hcm, rfl⟩ := mem_map.1 hx
      exact hc.offset_lt c (mem_append_right _ hcm)
    have hup := shiftUp_does (T := T) (p := p) (pre.map Prod.fst) (post.map Prod.fst) [] y hlt hptrs
    rw [length_map, length_map] at hup
    refine .bind hup fun _ b₂ h₂ => ?_
    obtain ⟨x, hx, hs₂⟩ := h₂
    rw [append_nil] at hx
    have hw := writePointer_does (T := T) (p := p) (i := pre.length) (v := cs - cell.length) hx (by simp)
    rw [set_append_right (h := by simp)] at hw
    simp only [length_map, Nat.sub_self, set_cons_zero, length_append, length_cons,
      length_nil] at hw hs₂
    refine .bind hw fun _ b₃ h₃ => ?_
    have hl₃ := (h₃.2.length.trans hs₂.length).trans hl₁
    refine .bind (writeU16_spec (by omega)) fun _ b₄ h₄ => ?_
    have hl₄ := h₄.1.length.trans hl₃
    refine .bind (writeU16_spec (by omega)) fun _ b₅ h₅ => .pure ?_
    rw [if_pos rfl]
    have hsame : SameOutside hs cs b b₅ :=
      (h₁.1.mono (by omega) (Nat.le_refl _)).trans <| (hs₂.mono (by omega) (by omega)).trans <|
        (h₃.2.mono (by omega) (by omega)).trans <| (h₄.1.mono (by omega) (by omega)).trans
          (h₅.1.mono (by omega) (by omega))
    have hfront : ∀ d o, o + d.length ≤ hs + 3 → Holds b o d → Holds b₅ o d := fun d o hd h =>
      ((((h.same h₁.1 (.inl (by omega))).same hs₂ (.inl (by omega))).same h₃.2 (.inl (by omega))).same h₄.1
        (.inl (by omega))).same h₅.1 (.inl (by omega))
    have hcell : Holds b₅ (cs - cell.length) cell :=
      (((h₁.2.same hs₂ (.inr (by omega))).same h₃.2 (.inr (by omega))).same h₄.1 (.inr (by omega))).same h₅.1
        (.inr (by omega))
    refine ⟨hsame.mono (Nat.le_refl _) hstart, hsp.insert hc hne ?_ hsame
      (hfront [ty] hs (by rw [length_singleton]; omega) hc.type) (hfront _ _ (Nat.le_refl _) hsp.first) ?_
      (h₄.2.same h₅.1 (.inr (by omega))) ((h₃.1.same h₄.1 (.inr (by omega))).same h₅.1 (.inr (by omega))) hcell⟩
    · rw [length_append]
      omega
    · rw [length_append]
      exact h₅.2

theorem zeroRange_does {lo n : Nat} (h : lo + n ≤ b.length) :
    Edit.Does T (zeroRange lo (lo + n)) b fun _ b' => SameOutside lo (lo + n) b b' := by
  have hlen : (List.replicate n (0 : UInt8)).length = n := length_replicate
  have hsame := sameOutside_writeAt (b := b) (o := lo) (List.replicate n 0) (by rw [hlen]; exact h)
  rw [hlen] at hsame
  refine Edit.Does.ofFn rfl ?_
  rw [if_pos ⟨Nat.le_add_right _ _, h⟩, Nat.add_sub_cancel_left]
  exact hsame

/-- What `splice_delete_cell` does before the bytes of the cell are given back:
the result is where they are. -/
def takeOutCell (headerStart : Nat) (pageNum : UInt32) (usableSize index : Nat) (hasRowid : Bool) :
    Edit (Nat × Nat) := do
  let numCells ← Edit.read fun buf => readNumCells buf headerStart pageNum
  if numCells ≤ index then throw (.internal "splice_delete_cell: index out of bounds")
  else do
    let ptrBase := headerStart + 8
    let cellStart ← Edit.read fun buf => readCellPointer buf (cellPtrOffset ptrBase index) pageNum index
    let (payloadLen, tailStart) ← Edit.read fun buf =>
      if hasRowid then Prod.snd <$> decodeCellHead buf cellStart pageNum
      else decodePayloadLen buf cellStart pageNum
    let stop := cellEnd usableSize tailStart payloadLen (!hasRowid)
    shiftDown ptrBase pageNum (numCells - 1 - index) index
    writeU16 (headerStart + 3) (numCells - 1) pageNum
    zeroRange cellStart stop
    return (cellStart, stop)

theorem spliceDeleteCell_eq (us index : Nat) (hasRowid : Bool) :
    spliceDeleteCell hs p us index hasRowid =
      takeOutCell hs p us index hasRowid >>= fun range => freeRange hs p range.1 range.2 := by
  unfold spliceDeleteCell takeOutCell
  rw [bind_assoc]
  congr 1
  funext numCells
  split
  · rfl
  · simp only [bind_assoc, pure_bind]

/-- The cell at an index is removed; `hdec` says that its bytes are read back
from the page. -/
theorem takeOutCell_does {c : Nat × Bytes} {us len tail : Nat} {hasRowid : Bool}
    (hc : Cells hs 8 ty (pre ++ c :: post) b) (hsp : Space hs (pre ++ c :: post) blocks cs b)
    (hdec : (if hasRowid then Prod.snd <$> decodeCellHead b c.1 p else decodePayloadLen b c.1 p) = .ok (len, tail))
    (hend : cellEnd us tail len (!hasRowid) = c.1 + c.2.length) :
    Edit.Does T (takeOutCell hs p us pre.length hasRowid) b fun range b' =>
      range = (c.1, c.1 + c.2.length) ∧ SameOutside hs b.length b b' ∧ Cells hs 8 ty (pre ++ post) b' ∧
        Space hs (pre ++ post) blocks cs b' ∧ ∀ d ∈ pre ++ post, Apart (extent d) (extent c) := by
  have hroom := hsp.room
  have hcin := hsp.cells_inside c (by simp)
  unfold takeOutCell
  refine .bind (Edit.Does.read (Q := fun v b' => v = (pre ++ c :: post).length ∧ b' = b) hc.readNumCells ⟨rfl, rfl⟩)
    fun v b₀ hv => ?_
  rw [hv.1, hv.2]
  simp only [length_append, length_cons] at hroom ⊢
  rw [if_neg (by omega)]
  refine .bind (Edit.Does.read (Q := fun v b' => v = c.1 ∧ b' = b) hc.readCellPointer ⟨rfl, rfl⟩) fun v b₀ hv => ?_
  rw [hv.1, hv.2]
  refine .bind (Edit.Does.read (Q := fun v b' => v = (len, tail) ∧ b' = b) hdec ⟨rfl, rfl⟩) fun v b₀ hv => ?_
  rw [hv.1, hv.2]
  dsimp only
  rw [hend, show pre.length + (post.length + 1) - 1 - pre.length = post.length by omega]
  have hptrs := hc.pointers
  rw [map_append, map_cons] at hptrs
  have hdown := shiftDown_does (T := T) (p := p) (pre.map Prod.fst) (post.map Prod.fst) c.1
    (fun x hx => by
      obtain ⟨d, hd, rfl⟩ := mem_map.1 hx
      exact hc.offset_lt d (by simp [hd])) hptrs
  simp only [length_map, length_append, length_cons] at hdown
  refine .bind hdown fun _ b₁ h₁ => ?_
  obtain ⟨y, hy, hs₁⟩ := h₁
  have hl₁ := hs₁.length
  refine .bind (writeU16_spec (by omega)) fun _ b₂ h₂ => ?_
  have hl₂ := h₂.1.length.trans hl₁
  refine .bind (zeroRange_does (by omega)) fun _ b₃ h₃ => .pure ?_
  have hl₃ := h₃.length.trans hl₂
  -- What is neither in the pointers, nor the count, nor the removed cell stays.
  have hkeep : ∀ o d, (o + d.length ≤ hs + 3 ∨ hs + 5 ≤ o ∧ o + d.length ≤ hs + 8 ∨
      cs ≤ o ∧ Apart (o, d.length) (extent c)) → Holds b o d → Holds b₃ o d := by
    intro o d hod h
    simp only [Apart, extent] at hod
    exact ((h.same hs₁ (by omega)).same h₂.1 (by omega)).same h₃ (by omega)
  have hsub : (pre ++ post).Sublist (pre ++ c :: post) := (List.Sublist.refl _).append (sublist_cons_self _ _)
  have hpair := pairwise_append.1 hsp.cells_apart
  have hap : ∀ d ∈ pre ++ post, Apart (extent d) (extent c) := by
    intro d hd
    rcases mem_append.1 hd with hd | hd
    · exact hpair.2.2 d hd c mem_cons_self
    · exact ((pairwise_cons.1 hpair.2.1).1 d hd).symm
  have hfree := hsp.free
  have hc₃ : Cells hs 8 ty (pre ++ post) b₃ := by
    refine ⟨hkeep _ _ (.inl (by rw [length_singleton]; omega)) hc.type, ?_, ?_, fun d hd => ?_,
      fun d hd => hc.offset_lt d (hsub.subset hd), ?_⟩
    · rw [length_append]
      exact h₂.2.same h₃ (.inl (by rw [be16_length]; omega))
    · rw [← append_assoc, ← map_append, flatMap_append, holds_append] at hy
      refine (hy.1.same h₂.1 (.inr (by omega))).same h₃ (.inl ?_)
      rw [flatMap_be16_length, length_map, length_append]
      omega
    · exact hkeep _ _ (.inr (.inr ⟨(hsp.cells_inside d (hsub.subset hd)).1, hap d hd⟩)) (hc.cell d (hsub.subset hd))
    · have := hc.length_lt
      simp only [length_append, length_cons] at this ⊢
      omega
  have hsp₃ : Space hs (pre ++ post) blocks cs b₃ := by
    refine ⟨by rw [hl₃]; exact hsp.length_le, hkeep _ _ (.inl (Nat.le_refl _)) hsp.first,
      hkeep _ _ (.inr (.inl ⟨Nat.le_refl _, by rw [be16_length]; omega⟩)) hsp.start, ?_,
      by rw [length_append]; omega, by rw [hl₃]; exact hsp.start_le, fun d hd => ?_, by rw [hl₃]; exact hfree,
      hsp.cells_apart.sublist hsub, fun d hd => hsp.cross d (hsub.subset hd)⟩
    · have hx : ∀ x ∈ blocks, x.1 + 4 ≤ c.1 ∨ c.1 + c.2.length ≤ x.1 := by
        intro x hx
        have h1 := hsp.cross c (by simp) x hx
        have h2 := hfree.inside x hx
        simp only [Apart, extent] at h1
        omega
      have hfar : ∀ x ∈ blocks, cs ≤ x.1 := fun x hx => (hfree.inside x hx).1
      exact ((hsp.chain.same hs₁ fun x hx => .inr (by have := hfar x hx; omega)).same h₂.1 fun x hx =>
        .inr (by have := hfar x hx; omega)).same h₃ hx
    · rw [hl₃]
      exact hsp.cells_inside d (hsub.subset hd)
  exact ⟨rfl, (hs₁.mono (by omega) (by omega)).trans ((h₂.1.mono (by omega) (by omega)).trans
    (h₃.mono (by omega) (by omega))), hc₃, hsp₃, hap⟩

theorem spliceDelete_placed {c : Nat × Bytes} {us len tail : Nat} {hasRowid : Bool}
    (hc : Cells hs 8 ty (pre ++ c :: post) b) (hsp : Space hs (pre ++ c :: post) blocks cs b)
    (hdec : (if hasRowid then Prod.snd <$> decodeCellHead b c.1 p else decodePayloadLen b c.1 p) = .ok (len, tail))
    (hend : cellEnd us tail len (!hasRowid) = c.1 + c.2.length)
    (hT : T → blocks.length ≤ maxFreeblocks ∨ c.1 ≠ cs ∧ c.2.length < minFreeblockSize) :
    Edit.Does T (spliceDeleteCell hs p us pre.length hasRowid) b fun _ b' =>
      SameOutside hs b.length b b' ∧ Cells hs 8 ty (pre ++ post) b' ∧
        ∃ blocks' cs', Space hs (pre ++ post) blocks' cs' b' ∧ (Tidy blocks → Tidy blocks') := by
  have hcin := hsp.cells_inside c (by simp)
  rw [spliceDeleteCell_eq]
  refine .bind (takeOutCell_does hc hsp hdec hend) fun range b₁ h₁ => ?_
  obtain ⟨rfl, hsame, hc₁, hsp₁, hap⟩ := h₁
  have hl := hsame.length
  refine (freeRange_does hc₁ hsp₁ hcin.2.2 hcin.1 (by omega) hap (fun x hx => (hsp.cross c (by simp) x hx).symm)
    hT).mono fun _ b₂ h₂ => ⟨?_, h₂.2⟩
  rw [hl] at h₂
  exact hsame.trans h₂.1

end

end DbStorage.Btree
