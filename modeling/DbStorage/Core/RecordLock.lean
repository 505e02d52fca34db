import Mathlib

/-!
# POSIX record locks

The lock table of one file: for every process and every byte the mode in
which the process holds it. `fcntl(F_SETLK)` with a read or write lock is
granted when no other process holds a conflicting mode anywhere in the
range, and then replaces what the process held there; `F_UNLCK` is always
grantable. Closing a descriptor of the file drops all locks of the process.

Results: `Coherent.set` and `Coherent.dropAll` (whatever is granted or
closed, a byte that one process has locked for writing is not locked by any
other).
-/
namespace DbStorage.RecordLock

inductive Mode where
  | read
  | write
  deriving DecidableEq

/-- One `fcntl(F_SETLK)` call: `mode = none` is `F_UNLCK`. -/
structure Request where
  mode : Option Mode
  start : Nat
  len : Nat
  deriving DecidableEq

abbrev Table (P : Type) := P → Nat → Option Mode

/-- What another process may hold on a byte when a lock on it is asked for. -/
def Compatible : Option Mode → Option Mode → Prop
  | none, _ => True
  | some .read, held => held ≠ some .write
  | some .write, held => held = none

instance : (m held : Option Mode) → Decidable (Compatible m held)
  | none, _ => isTrue trivial
  | some .read, held => inferInstanceAs (Decidable (held ≠ some .write))
  | some .write, held => inferInstanceAs (Decidable (held = none))

variable {P : Type}

def Grantable (t : Table P) (p : P) (r : Request) : Prop :=
  ∀ q, q ≠ p → ∀ i < r.len, Compatible r.mode (t q (r.start + i))

instance [Fintype P] [DecidableEq P] (t : Table P) (p : P) (r : Request) : Decidable (Grantable t p r) :=
  inferInstanceAs (Decidable (∀ q, q ≠ p → ∀ i < r.len, Compatible r.mode (t q (r.start + i))))

/-- The bytes a process holds after a granted request. -/
def applyTo (r : Request) (row : Nat → Option Mode) : Nat → Option Mode :=
  fun b => if r.start ≤ b ∧ b < r.start + r.len then r.mode else row b

def set [DecidableEq P] (t : Table P) (p : P) (r : Request) : Table P :=
  Function.update t p (applyTo r (t p))

/-- `close`: the process loses every lock it has on the file. -/
def dropAll [DecidableEq P] (t : Table P) (p : P) : Table P := Function.update t p fun _ => none

/-- A byte locked for writing is locked by one process only. -/
def Coherent (t : Table P) : Prop := ∀ p q b, p ≠ q → t p b = some .write → t q b = none

theorem coherent_empty : Coherent (fun _ _ => none : Table P) := by
  intro p q b _ h
  cases h

theorem grantable_unlock (t : Table P) (p : P) (start len : Nat) : Grantable t p ⟨none, start, len⟩ :=
  fun _ _ _ _ => trivial

/-- **Exclusion.** Granted requests keep the table coherent. -/
theorem Coherent.set [DecidableEq P] {t : Table P} {p : P} {r : Request} (h : Coherent t)
    (hg : Grantable t p r) : Coherent (set t p r) := by
  -- another process's byte inside the range, against the granted mode
  have hin : ∀ q b, q ≠ p → r.start ≤ b ∧ b < r.start + r.len → Compatible r.mode (t q b) := by
    intro q b hq hb
    have := hg q hq (b - r.start) (by omega)
    rwa [Nat.add_sub_of_le hb.1] at this
  intro q₁ q₂ b hne hw
  unfold RecordLock.set at hw ⊢
  by_cases h1 : q₁ = p
  · subst h1
    rw [Function.update_self, applyTo] at hw
    rw [Function.update_of_ne hne.symm]
    split at hw
    · rename_i hb
      have := hin q₂ b hne.symm hb
      rwa [hw] at this
    · exact h _ _ _ hne hw
  · rw [Function.update_of_ne h1] at hw
    by_cases h2 : q₂ = p
    · subst h2
      rw [Function.update_self, applyTo]
      split
      · rename_i hb
        have hc := hin q₁ b h1 hb
        rw [hw] at hc
        revert hc
        cases r.mode with
        | none => exact fun _ => rfl
        | some m => cases m <;> simp [Compatible]
      · exact h _ _ _ hne hw
    · rw [Function.update_of_ne h2]
      exact h _ _ _ hne hw

theorem Coherent.dropAll [DecidableEq P] {t : Table P} (h : Coherent t) (p : P) : Coherent (dropAll t p) := by
  intro q₁ q₂ b hne hw
  unfold RecordLock.dropAll at hw ⊢
  by_cases h2 : q₂ = p
  · rw [h2, Function.update_self]
  · rw [Function.update_of_ne h2]
    by_cases h1 : q₁ = p
    · rw [h1, Function.update_self] at hw
      cases hw
    · rw [Function.update_of_ne h1] at hw
      exact h _ _ _ hne hw

end DbStorage.RecordLock
