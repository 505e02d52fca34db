import Mathlib

/-!
# Labelled transition systems

The systems of this development (a connection and its files, several
connections over one WAL, a commit that may be cut short) are all given by
an initial predicate and a step relation. A safety property is proved once
by an inductive invariant (`Inductive.reachable`); a property of the steps
that meet a side condition is a property of the restricted system
(`LTS.restrict`).
-/
namespace DbStorage

structure LTS (S L : Type) where
  init : S → Prop
  step : S → L → S → Prop

namespace LTS
variable {S L : Type} {M : LTS S L}

/-- `Run s ls s'`: the labels `ls` lead from `s` to `s'`. -/
inductive Run (M : LTS S L) : S → List L → S → Prop where
  | nil (s : S) : Run M s [] s
  | cons {s s' s'' : S} {l : L} {ls : List L} : M.step s l s' → Run M s' ls s'' → Run M s (l :: ls) s''

variable {s s' : S} {ls : List L} {P : S → L → Prop}

theorem Run.append {s'' : S} {as bs : List L} (ha : M.Run s as s') (hb : M.Run s' bs s'') : M.Run s (as ++ bs) s'' := by
  induction ha with
  | nil => exact hb
  | cons hst _ ih => exact .cons hst (ih hb)

def Reachable (M : LTS S L) (s : S) : Prop := ∃ s₀ ls, M.init s₀ ∧ M.Run s₀ ls s

theorem Reachable.step {l : L} (h : M.Reachable s) (hs : M.step s l s') : M.Reachable s' := by
  obtain ⟨s₀, ls, hi, hr⟩ := h
  exact ⟨s₀, ls ++ [l], hi, hr.append (.cons hs (.nil _))⟩

/-- `I` holds initially and every step keeps it. -/
structure Inductive (M : LTS S L) (I : S → Prop) : Prop where
  init : ∀ s, M.init s → I s
  step : ∀ s l s', I s → M.step s l s' → I s'

theorem Inductive.run {I : S → Prop} (h : M.Inductive I) (hr : M.Run s ls s') (hs : I s) : I s' := by
  induction hr with
  | nil => exact hs
  | cons hst _ ih => exact ih (h.step _ _ _ hs hst)

theorem Inductive.reachable {I : S → Prop} (h : M.Inductive I) (s : S) (hr : M.Reachable s) : I s := by
  obtain ⟨s₀, ls, hi, hr⟩ := hr
  exact h.run hr (h.init s₀ hi)

/-- The runs of `M` in which every step meets `P`. -/
def restrict (M : LTS S L) (P : S → L → Prop) : LTS S L where
  init := M.init
  step s l s' := M.step s l s' ∧ P s l

theorem Run.of_restrict (h : (M.restrict P).Run s ls s') : M.Run s ls s' := by
  induction h with
  | nil => exact .nil _
  | cons hst _ ih => exact .cons hst.1 ih

theorem Reachable.of_restrict (h : (M.restrict P).Reachable s) : M.Reachable s := by
  obtain ⟨s₀, ls, hi, hr⟩ := h
  exact ⟨s₀, ls, hi, hr.of_restrict⟩

theorem Reachable.restrict_mono {Q : S → L → Prop} (hPQ : ∀ s l, P s l → Q s l) (h : (M.restrict P).Reachable s) :
    (M.restrict Q).Reachable s := by
  obtain ⟨s₀, ls, hi, hr⟩ := h
  refine ⟨s₀, ls, hi, ?_⟩
  clear hi
  induction hr with
  | nil => exact .nil _
  | cons hst _ ih => exact .cons ⟨hst.1, hPQ _ _ hst.2⟩ ih

/-- Takes the steps that `next` computes, while `guard` allows them. -/
def follow (next : S → L → Option S) (guard : S → L → Bool) : List L → S → Option S
  | [], s => some s
  | l :: ls, s => if guard s l then (next s l).bind (follow next guard ls) else none

theorem followed_getD {α : Type} {o : Option α} {d : α} (h : o.isSome = true) : o = some (o.getD d) := by
  cases o with
  | none => cases h
  | some a => rfl

theorem Reachable.follow {next : S → L → Option S} {guard : S → L → Bool}
    (hnext : ∀ s l s', next s l = some s' → M.step s l s') (h : (M.restrict fun s l => guard s l = true).Reachable s)
    (hf : follow next guard ls s = some s') : (M.restrict fun s l => guard s l = true).Reachable s' := by
  induction ls generalizing s with
  | nil => cases hf; exact h
  | cons l ls ih =>
    rw [LTS.follow] at hf
    split at hf
    · rename_i hg
      obtain ⟨t, ht, hf⟩ := Option.bind_eq_some_iff.1 hf
      exact ih (h.step ⟨hnext _ _ _ ht, hg⟩) hf
    · cases hf

end LTS
end DbStorage
