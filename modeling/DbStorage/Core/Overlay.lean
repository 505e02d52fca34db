import Mathlib

/-!
# Last-writer-wins maps

A log of writes laid over a map: each key reads its last write, and the
map's own value where the log has none.
-/
namespace DbStorage
open Std

section
variable {α β : Type} [Ord α] [TransOrd α] [LawfulEqOrd α] [DecidableEq α]

/-- The last write to `k` in the log. -/
def lastWrite : List (α × β) → α → Option β
  | [], _ => none
  | w :: ws, k => (lastWrite ws k).or (if w.1 = k then some w.2 else none)

/-- The log laid over `m`. -/
def overlay (m : ExtTreeMap α β) (ws : List (α × β)) : ExtTreeMap α β :=
  ws.foldl (fun m w => m.insert w.1 w.2) m

omit [Ord α] [TransOrd α] [LawfulEqOrd α] in
theorem lastWrite_append (a b : List (α × β)) (k : α) :
    lastWrite (a ++ b) k = (lastWrite b k).or (lastWrite a k) := by
  induction a with
  | nil => simp [lastWrite]
  | cons w ws ih => simp only [List.cons_append, lastWrite, ih, Option.or_assoc]

omit [Ord α] [TransOrd α] [LawfulEqOrd α] in
theorem lastWrite_eq_none {ws : List (α × β)} {k : α} :
    lastWrite ws k = none ↔ ∀ w ∈ ws, w.1 ≠ k := by
  induction ws with
  | nil => simp [lastWrite]
  | cons w ws ih => simp only [lastWrite, Option.or_eq_none_iff, ih, List.forall_mem_cons]; grind

omit [Ord α] [TransOrd α] [LawfulEqOrd α] in
theorem mem_of_lastWrite {ws : List (α × β)} {k : α} {v : β} (h : lastWrite ws k = some v) :
    (k, v) ∈ ws := by
  induction ws with
  | nil => cases h
  | cons w ws ih =>
    simp only [lastWrite, Option.or_eq_some_iff] at h
    rcases h with h | ⟨-, h⟩
    · exact List.mem_cons_of_mem _ (ih h)
    · split at h
      · rename_i hk; cases h; subst hk; exact List.mem_cons_self
      · cases h

omit [Ord α] [TransOrd α] [LawfulEqOrd α] in
theorem lastWrite_filter (p : α → Bool) {ws : List (α × β)} {k : α} (hk : p k = true) :
    lastWrite (ws.filter fun w => p w.1) k = lastWrite ws k := by
  induction ws with
  | nil => rfl
  | cons w ws ih =>
    by_cases hw : p w.1 = true
    · simp only [List.filter_cons, hw, if_true, lastWrite, ih]
    · have hne : w.1 ≠ k := by rintro rfl; exact hw hk
      simp [lastWrite, hne, hw, ih]

omit [LawfulEqOrd α] [DecidableEq α] in
theorem overlay_append (m : ExtTreeMap α β) (a b : List (α × β)) :
    overlay m (a ++ b) = overlay (overlay m a) b := List.foldl_append

theorem getElem?_overlay (m : ExtTreeMap α β) (ws : List (α × β)) (k : α) :
    (overlay m ws)[k]? = (lastWrite ws k).or m[k]? := by
  induction ws generalizing m with
  | nil => simp [overlay, lastWrite]
  | cons w ws ih =>
    have e : overlay m (w :: ws) = overlay (m.insert w.1 w.2) ws := rfl
    rw [e, ih, lastWrite, ExtTreeMap.getElem?_insert, Option.or_assoc]
    congr 1
    by_cases hk : w.1 = k
    · simp [hk]
    · simp [hk]

/-- A map's own bindings, written in any order, write back the map. -/
theorem lastWrite_toList (m : ExtTreeMap α β) (k : α) : lastWrite m.toList k = m[k]? := by
  have hmem : ∀ v, (k, v) ∈ m.toList ↔ m[k]? = some v := fun v =>
    ExtTreeMap.mem_toList_iff_getElem?_eq_some
  cases h : lastWrite m.toList k with
  | some v => exact ((hmem v).1 (mem_of_lastWrite h)).symm
  | none =>
    cases hv : m[k]? with
    | none => rfl
    | some v => exact absurd rfl (lastWrite_eq_none.1 h _ ((hmem v).2 hv))

/-- Putting back what an insertion replaced undoes it. -/
theorem insert_restore (m : ExtTreeMap α β) (k : α) (v : β) :
    (match m[k]? with
      | some old => (m.insert k v).insert k old
      | none => (m.insert k v).erase k) = m := by
  apply ExtTreeMap.ext_getElem?
  intro j
  cases h : m[k]? with
  | some old =>
    simp only [ExtTreeMap.getElem?_insert]
    by_cases hj : k = j
    · subst hj; simp [h]
    · simp [hj]
  | none =>
    simp only [ExtTreeMap.getElem?_erase, ExtTreeMap.getElem?_insert]
    by_cases hj : k = j
    · subst hj; simp [h]
    · simp [hj]

end
end DbStorage
