import Mathlib

/-!
# Search trees whose nodes are pages

A tree is spread over the pages of a store `view`: a leaf page holds rows,
an interior page holds entries, each a child page and a separator, and a
last child. `Kind` says which page contents are which. `Tree K view es r
items own` says that the children of the entries `es`, followed by the child
`r`, are trees, that `items` are their rows and separators in order, and
that `own` are their pages, each of them in one place; `Tree K view [] p` is
the tree at page `p`.

Entries can be cut and put together anywhere (`Tree.split`, `Seg.split`,
`Seg.tree`).
-/
namespace DbStorage.PagedTree

/-- Which page contents are leaves with which rows, and which are interior
pages with which entries and last child. -/
structure Kind (P V α κ : Type) where
  leaf : P → V → List α → Prop
  interior : P → V → List (P × κ) → P → Prop

variable {P V α κ : Type} [DecidableEq P] {K : Kind P V α κ} {view : P → Option V}

inductive Tree (K : Kind P V α κ) (view : P → Option V) :
    List (P × κ) → P → List (α ⊕ κ) → Finset P → Prop where
  | leaf {p : P} {v : V} {rows : List α} : view p = some v → K.leaf p v rows →
      Tree K view [] p (rows.map .inl) {p}
  | node {p : P} {v : V} {es : List (P × κ)} {r : P} {items : List (α ⊕ κ)} {own : Finset P} :
      view p = some v → K.interior p v es r → Tree K view es r items own → p ∉ own →
      Tree K view [] p items (insert p own)
  | cons {c : P} {k : κ} {es : List (P × κ)} {r : P} {i₁ i₂ : List (α ⊕ κ)} {o₁ o₂ : Finset P} :
      Tree K view [] c i₁ o₁ → Tree K view es r i₂ o₂ → Disjoint o₁ o₂ →
      Tree K view ((c, k) :: es) r (i₁ ++ .inr k :: i₂) (o₁ ∪ o₂)

/-- The children of entries without a last child behind them. -/
inductive Seg (K : Kind P V α κ) (view : P → Option V) :
    List (P × κ) → List (α ⊕ κ) → Finset P → Prop where
  | nil : Seg K view [] [] ∅
  | cons {c : P} {k : κ} {es : List (P × κ)} {i₁ i₂ : List (α ⊕ κ)} {o₁ o₂ : Finset P} :
      Tree K view [] c i₁ o₁ → Seg K view es i₂ o₂ → Disjoint o₁ o₂ →
      Seg K view ((c, k) :: es) (i₁ ++ .inr k :: i₂) (o₁ ∪ o₂)

/-! ## Entries -/

variable {es₁ es₂ : List (P × κ)} {r : P} {items : List (α ⊕ κ)} {own : Finset P}

theorem Seg.tree {i₁ i₂ : List (α ⊕ κ)} {o₁ o₂ : Finset P} (h₁ : Seg K view es₁ i₁ o₁) (h₂ : Tree K view es₂ r i₂ o₂)
    (hd : Disjoint o₁ o₂) : Tree K view (es₁ ++ es₂) r (i₁ ++ i₂) (o₁ ∪ o₂) := by
  induction h₁ with
  | nil => simpa using h₂
  | @cons c k es i i' o o' ht _ hdis ih =>
    rw [Finset.disjoint_union_left] at hd
    have := Tree.cons (k := k) ht (ih hd.2) (Finset.disjoint_union_right.2 ⟨hdis, hd.1⟩)
    rwa [Finset.union_assoc, List.append_assoc, List.cons_append]

theorem Tree.split (h : Tree K view (es₁ ++ es₂) r items own) :
    ∃ i₁ i₂ o₁ o₂, Seg K view es₁ i₁ o₁ ∧ Tree K view es₂ r i₂ o₂ ∧ Disjoint o₁ o₂ ∧
      items = i₁ ++ i₂ ∧ own = o₁ ∪ o₂ := by
  induction es₁ generalizing items own with
  | nil => exact ⟨[], items, ∅, own, .nil, h, Finset.disjoint_empty_left _, rfl, by simp⟩
  | cons e es₁ ih =>
    obtain ⟨c, k⟩ := e
    cases h with
    | cons ht hrest hd =>
      obtain ⟨i₁, i₂, o₁, o₂, hs, ht₂, hd₂, rfl, rfl⟩ := ih hrest
      rw [Finset.disjoint_union_right] at hd
      exact ⟨_, i₂, _, o₂, .cons ht hs hd.1, ht₂, Finset.disjoint_union_left.2 ⟨hd.2, hd₂⟩, by simp,
        (Finset.union_assoc _ _ _).symm⟩

theorem Seg.split (h : Seg K view (es₁ ++ es₂) items own) :
    ∃ i₁ i₂ o₁ o₂, Seg K view es₁ i₁ o₁ ∧ Seg K view es₂ i₂ o₂ ∧ Disjoint o₁ o₂ ∧
      items = i₁ ++ i₂ ∧ own = o₁ ∪ o₂ := by
  induction es₁ generalizing items own with
  | nil => exact ⟨[], items, ∅, own, .nil, h, Finset.disjoint_empty_left _, rfl, by simp⟩
  | cons e es₁ ih =>
    obtain ⟨c, k⟩ := e
    cases h with
    | cons ht hrest hd =>
      obtain ⟨i₁, i₂, o₁, o₂, hs, ht₂, hd₂, rfl, rfl⟩ := ih hrest
      rw [Finset.disjoint_union_right] at hd
      exact ⟨_, i₂, _, o₂, .cons ht hs hd.1, ht₂, Finset.disjoint_union_left.2 ⟨hd.2, hd₂⟩, by simp,
        (Finset.union_assoc _ _ _).symm⟩

theorem Tree.split_at {c : P} {k : κ} (h : Tree K view (es₁ ++ (c, k) :: es₂) r items own) :
    ∃ i₁ i i₂ o₁ o o₂, Seg K view es₁ i₁ o₁ ∧ Tree K view [] c i o ∧ Tree K view es₂ r i₂ o₂ ∧
      Disjoint o₁ o ∧ Disjoint o₁ o₂ ∧ Disjoint o o₂ ∧
      items = i₁ ++ (i ++ .inr k :: i₂) ∧ own = o₁ ∪ (o ∪ o₂) := by
  obtain ⟨i₁, j, o₁, q, hs, ht, hd, rfl, rfl⟩ := h.split
  cases ht with
  | cons ht hrest hd₂ =>
    rw [Finset.disjoint_union_right] at hd
    exact ⟨_, _, _, _, _, _, hs, ht, hrest, hd.1, hd.2, hd₂, rfl, rfl⟩

theorem Seg.split_last {es : List (P × κ)} {c : P} {k : κ} (h : Seg K view (es ++ [(c, k)]) items own) :
    ∃ i₁ i o₁ o, Seg K view es i₁ o₁ ∧ Tree K view [] c i o ∧ Disjoint o₁ o ∧
      items = i₁ ++ (i ++ [.inr k]) ∧ own = o₁ ∪ o := by
  obtain ⟨i₁, j, o₁, q, hs, ht, hd, rfl, rfl⟩ := h.split
  cases ht with
  | cons ht hrest hd₂ =>
    cases hrest with
    | nil =>
      rw [Finset.union_empty] at hd ⊢
      exact ⟨_, _, _, _, hs, ht, hd, rfl, rfl⟩

/-! ## Pages -/

theorem Tree.nonempty {es : List (P × κ)} (h : Tree K view es r items own) : own.Nonempty := by
  induction h with
  | leaf => exact Finset.singleton_nonempty _
  | node => exact Finset.insert_nonempty _ _
  | cons _ _ _ ih _ => exact ih.mono Finset.subset_union_left

theorem Tree.root_mem {p : P} (h : Tree K view [] p items own) : p ∈ own := by
  cases h with
  | leaf => exact Finset.mem_singleton_self _
  | node => exact Finset.mem_insert_self _ _

end DbStorage.PagedTree
