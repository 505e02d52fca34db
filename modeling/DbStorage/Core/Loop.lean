import DbStorage.Core.PageWalk

/-!
# Loops, what they end with and what they access

The functions of a model that stand for a loop have fuel. A `Loop` is the loop
itself: a round ends it or goes on, and accesses something meanwhile.
`Ends s r as`: from the state `s` the loop comes to an end with the result
`r`, and its rounds access `as`.

* `Loop.ends`: a function with the loop's equations is what the loop ends
  with, if a measure falls with every round.
* `Ends.unique`: a loop has one result.
* `Ends.weight_le`: a potential that pays for the accesses bounds them.

The walks of a `Reader` and the binary search of `PageWalk` are given as such
loops.
-/
namespace DbStorage

structure Loop (σ ρ α : Type) where
  round : σ → ρ ⊕ σ
  /-- What the round of a state may access. A loop inside of the round is a
  premise here, so that a round which does not end has no accesses. -/
  log : σ → List α → Prop

namespace Loop
variable {σ ρ α : Type} {L : Loop σ ρ α}

inductive Ends (L : Loop σ ρ α) : σ → ρ → List α → Prop where
  | stop {s : σ} {r : ρ} {as : List α} : L.round s = .inl r → L.log s as → Ends L s r as
  | again {s s' : σ} {r : ρ} {as bs : List α} :
      L.round s = .inr s' → L.log s as → Ends L s' r bs → Ends L s r (as ++ bs)

/-- The equation that a round asks of the function for the whole loop. -/
def Unrolls (I : σ → Prop) (g : σ → ρ) (μ : σ → Nat) (s : σ) : ρ ⊕ σ → Prop
  | .inl r => g s = r
  | .inr s' => I s' ∧ g s = g s' ∧ μ s' < μ s

variable {s : σ} {r : ρ}

theorem ends {I : σ → Prop} {g : σ → ρ} {μ : σ → Nat} (hlog : ∀ s, I s → ∃ as, L.log s as)
    (hround : ∀ s, I s → Unrolls I g μ s (L.round s)) (hs : I s) : ∃ as, L.Ends s (g s) as := by
  induction hμ : μ s using Nat.strong_induction_on generalizing s with
  | h n ih =>
    obtain ⟨as, has⟩ := hlog s hs
    have hunroll := hround s hs
    cases hr : L.round s with
    | inl r =>
      rw [hr] at hunroll
      rw [show g s = r from hunroll]
      exact ⟨as, .stop hr has⟩
    | inr s' =>
      rw [hr] at hunroll
      obtain ⟨hs', hg, hlt⟩ := hunroll
      obtain ⟨bs, hbs⟩ := ih (μ s') (hμ ▸ hlt) hs' rfl
      rw [hg]
      exact ⟨as ++ bs, .again hr has hbs⟩

theorem Ends.unique {r' : ρ} {as as' : List α} (h : L.Ends s r as) (h' : L.Ends s r' as') : r = r' := by
  induction h generalizing as' with
  | stop hr _ =>
    cases h' with
    | stop hr' _ => exact Sum.inl.inj (hr.symm.trans hr')
    | again hr' _ _ => cases hr.symm.trans hr'
  | again hr _ _ ih =>
    cases h' with
    | stop hr' _ => cases hr.symm.trans hr'
    | again hr' _ h' =>
      obtain rfl := Sum.inr.inj (hr.symm.trans hr')
      exact ih h'

/-- The potential `Φ` pays for what a round accesses; what is left of it at the
end is `ψ`. -/
theorem Ends.weight_le {w : α → Nat} {Φ : σ → Nat} {ψ : ρ → Nat}
    (hround : ∀ s as, L.log s as → (as.map w).sum + (L.round s).elim ψ Φ ≤ Φ s) {as : List α} (h : L.Ends s r as) :
    (as.map w).sum + ψ r ≤ Φ s := by
  induction h with
  | @stop s r as hr has => simpa [hr] using hround s as has
  | @again s s' r as bs hr has _ ih =>
    have := hround s as has
    rw [hr, Sum.elim_inr] at this
    rw [List.map_append, List.sum_append]
    omega

theorem Ends.forall_mem {Q : α → Prop} (hlog : ∀ s as, L.log s as → ∀ a ∈ as, Q a) {as : List α} (h : L.Ends s r as) :
    ∀ a ∈ as, Q a := by
  induction h with
  | stop _ has => exact hlog _ _ has
  | again _ has _ ih => exact List.forall_mem_append.2 ⟨hlog _ _ has, ih⟩

end Loop

namespace PageWalk

/-! ## Readers -/

/-- What a walk does next: open a page, or take the turn of its top frame. -/
inductive Job (P F : Type) where
  | «open» (p : P) (t : Traversal F)
  | turn (t : Traversal F)

section
variable {P E F ε α : Type} (R : Reader P E F ε)

def Reader.round : Job P F → (Except ε (Option E) × Traversal F) ⊕ Job P F
  | .open p t =>
    match R.push p t with
    | (.error e, t') => .inl (.error e, t')
    | (.ok (), t') => .inr (.turn t')
  | .turn t =>
    match t.stack with
    | [] => .inl (.ok none, t)
    | f :: rest =>
      match R.turn f with
      | .pop => .inr (.turn { t with stack := rest })
      | .descend f' (.error e) => .inl (.error e, { t with stack := f' :: rest })
      | .descend f' (.ok child) => .inr (.open child { t with stack := f' :: rest })
      | .yield f' (.error e) => .inl (.error e, { t with stack := f' :: rest })
      | .yield f' (.ok entry) => .inl (.ok (some entry), { t with stack := f' :: rest })

/-- A page is accessed unless the bound forbids it; `reads` says what the turn
of a frame accesses. -/
def Reader.log (opened : P → α) (reads : F → List α → Prop) : Job P F → List α → Prop
  | .open p t, as => as = if R.max < t.pagesVisited + 1 then [] else [opened p]
  | .turn ⟨[], _⟩, as => as = []
  | .turn ⟨f :: _, _⟩, as => reads f as

def Reader.loop (opened : P → α) (reads : F → List α → Prop) :
    Loop (Job P F) (Except ε (Option E) × Traversal F) α where
  round := R.round
  log := R.log opened reads

/-- The result that the model of a walk computes for a job. -/
def Reader.finish : Job P F → Except ε (Option E) × Traversal F
  | .open p t =>
    match R.push p t with
    | (.error e, t') => (.error e, t')
    | (.ok (), t') => R.next t'
  | .turn t => R.next t

def Job.walk : Job P F → Traversal F
  | .open _ t => t
  | .turn t => t

/-- Every page that may still be opened pays for a turn and the page. -/
def Job.measure (max : Nat) : Job P F → Nat
  | .open _ t => 3 * (max - t.pagesVisited) + t.stack.length
  | .turn t => 3 * (max - t.pagesVisited) + t.stack.length + 1

variable {R} {opened : P → α} {reads : F → List α → Prop}

theorem Reader.push_cases (p : P) (t : Traversal F) :
    (∃ e, R.push p t = (.error e, { t with pagesVisited := t.pagesVisited + 1 })) ∨
      ∃ f, t.pagesVisited < R.max ∧ R.load p = .ok f ∧ R.push p t = (.ok (), ⟨f :: t.stack, t.pagesVisited + 1⟩) := by
  by_cases hmax : R.max < t.pagesVisited + 1
  · exact .inl ⟨R.tooLong, by simp only [Reader.push, hmax, if_true]⟩
  · cases hload : R.load p with
    | error e => exact .inl ⟨e, by simp only [Reader.push, hmax, if_false, hload]⟩
    | ok f => exact .inr ⟨f, by omega, rfl, by simp only [Reader.push, hmax, if_false, hload]⟩

variable {t : Traversal F} {rest : List F}

theorem Reader.advance_eq_next {fuel : Nat} (h : 2 * (R.max - t.pagesVisited) + t.stack.length < fuel) :
    R.advance fuel t = R.next t := by
  have hstable (k : Nat) := R.advance_stable (2 * (R.max - t.pagesVisited) + t.stack.length + 1) k (Nat.lt_succ_self _)
  obtain ⟨k, rfl⟩ := Nat.exists_eq_add_of_lt h
  obtain ⟨l, hl⟩ : ∃ l, 2 * R.max + t.stack.length + 1 = 2 * (R.max - t.pagesVisited) + t.stack.length + 1 + l :=
    ⟨2 * R.max - 2 * (R.max - t.pagesVisited), by omega⟩
  rw [Reader.next, hl, hstable, Nat.add_right_comm, hstable]

/-- What `next` does is what the rounds of the walk say. -/
theorem Reader.finish_unrolls (j : Job P F) : Loop.Unrolls (fun _ => True) R.finish (Job.measure R.max) j (R.round j) := by
  cases j with
  | «open» p t =>
    rcases R.push_cases p t with ⟨e, hpush⟩ | ⟨f, hv, -, hpush⟩
    · simp [Reader.round, Reader.finish, Loop.Unrolls, hpush]
    · simp only [Reader.round, Reader.finish, Loop.Unrolls, hpush, Job.measure, List.length_cons, true_and]
      omega
  | turn t =>
    obtain ⟨st, v⟩ := t
    cases st with
    | nil => rfl
    | cons f rest =>
      obtain ⟨n, hn⟩ : ∃ n, n = 2 * R.max + rest.length + 1 := ⟨_, rfl⟩
      have hnext : R.next ⟨f :: rest, v⟩ = R.advance (n + 1) ⟨f :: rest, v⟩ := by rw [hn]; rfl
      simp only [Reader.advance] at hnext
      simp only [Reader.round]
      cases hturn : R.turn f with
      | pop =>
        simp only [hturn] at hnext
        refine ⟨trivial, hnext.trans (Reader.advance_eq_next (by rw [hn]; simp only; omega)), ?_⟩
        simp only [Job.measure, List.length_cons]
        omega
      | yield f' entry =>
        simp only [hturn] at hnext
        cases entry <;> exact hnext
      | descend f' child =>
        simp only [hturn] at hnext
        cases child with
        | error e => exact hnext
        | ok child =>
          refine ⟨trivial, hnext.trans ?_, by simp only [Job.measure, List.length_cons]; omega⟩
          rcases R.push_cases child ⟨f' :: rest, v⟩ with ⟨e, hpush⟩ | ⟨g, hv, -, hpush⟩
          · simp only [Reader.finish, hpush]
          · have hfuel : 2 * (R.max - (v + 1)) + (g :: f' :: rest).length < n := by
              simp only [List.length_cons] at hv ⊢
              omega
            simp only [Reader.finish, hpush]
            exact Reader.advance_eq_next hfuel

/-- A page within the bound that has a frame is opened. -/
theorem Reader.ends_open {p : P} {f : F} {r : Except ε (Option E) × Traversal F} {as : List α}
    (hv : t.pagesVisited < R.max) (hload : R.load p = .ok f)
    (h : (R.loop opened reads).Ends (.turn ⟨f :: t.stack, t.pagesVisited + 1⟩) r as) :
    (R.loop opened reads).Ends (.open p t) r (opened p :: as) := by
  have hmax : ¬R.max < t.pagesVisited + 1 := by omega
  have hround : (R.loop opened reads).round (.open p t) = .inr (.turn ⟨f :: t.stack, t.pagesVisited + 1⟩) := by
    simp only [Reader.loop, Reader.round, Reader.push, hmax, if_false, hload]
  have hlog : (R.loop opened reads).log (.open p t) [opened p] := (if_neg hmax).symm
  exact .again hround hlog h

theorem Reader.ends_yield {f f' : F} {v : Nat} {e : E} {as : List α} (hturn : R.turn f = .yield f' (.ok e))
    (hreads : reads f as) :
    (R.loop opened reads).Ends (.turn ⟨f :: rest, v⟩) (.ok (some e), ⟨f' :: rest, v⟩) as :=
  .stop (by simp only [Reader.loop, Reader.round, hturn]) hreads

theorem Reader.ends_pop {f : F} {v : Nat} {r : Except ε (Option E) × Traversal F} {as bs : List α}
    (hturn : R.turn f = .pop) (hreads : reads f as) (h : (R.loop opened reads).Ends (.turn ⟨rest, v⟩) r bs) :
    (R.loop opened reads).Ends (.turn ⟨f :: rest, v⟩) r (as ++ bs) :=
  .again (by simp only [Reader.loop, Reader.round, hturn]) hreads h

theorem Reader.loop_ends (hreads : ∀ f, ∃ as, reads f as) (j : Job P F) :
    ∃ as, (R.loop opened reads).Ends j (R.finish j) as := by
  refine Loop.ends (fun j _ => ?_) (fun j _ => R.finish_unrolls j) (I := fun _ => True) trivial
  match j with
  | .open p t => exact ⟨_, rfl⟩
  | .turn ⟨[], _⟩ => exact ⟨_, rfl⟩
  | .turn ⟨f :: _, _⟩ => exact hreads f

/-- With a weight of at most one for a page and none for the turns, a walk
weighs no more than the pages it may still open. -/
theorem Reader.weight_le {w : α → Nat} (hw : ∀ p, w (opened p) ≤ 1)
    (hreads : ∀ f as, reads f as → (as.map w).sum = 0) {p : Job P F} {r : Except ε (Option E) × Traversal F}
    {as : List α} (h : (R.loop opened reads).Ends p r as) :
    (as.map w).sum + (R.max - r.2.pagesVisited) ≤ R.max - p.walk.pagesVisited := by
  refine h.weight_le (Φ := fun j => R.max - j.walk.pagesVisited) (ψ := fun r => R.max - r.2.pagesVisited) ?_
  intro j as has
  match j with
  | .open p t =>
    have hp := hw p
    simp only [Reader.loop, Reader.log] at has
    subst has
    rcases R.push_cases p t with ⟨e, hpush⟩ | ⟨f, hv, -, hpush⟩
    · simp only [Reader.loop, Reader.round, hpush, Sum.elim_inl, Job.walk]
      split <;> simp <;> omega
    · simp only [Reader.loop, Reader.round, hpush, Sum.elim_inr, Job.walk]
      split <;> simp <;> omega
  | .turn ⟨[], _⟩ =>
    obtain rfl : as = [] := has
    simp [Reader.loop, Reader.round, Job.walk]
  | .turn ⟨f :: rest, v⟩ =>
    have hzero := hreads f as has
    rw [hzero]
    simp only [Reader.loop, Reader.round]
    cases R.turn f with
    | pop => simp [Job.walk]
    | yield f' entry => cases entry <;> simp [Job.walk]
    | descend f' child => cases child <;> simp [Job.walk]

theorem Reader.log_mem {Q : α → Prop} (hopened : ∀ p, Q (opened p)) (hreads : ∀ f as, reads f as → ∀ a ∈ as, Q a)
    {j : Job P F} {as : List α} (h : R.log opened reads j as) : ∀ a ∈ as, Q a := by
  match j with
  | .open p t =>
    obtain rfl : as = if R.max < t.pagesVisited + 1 then [] else [opened p] := h
    split
    · simp
    · simpa using hopened p
  | .turn ⟨[], _⟩ =>
    obtain rfl : as = [] := h
    simp
  | .turn ⟨f :: _, _⟩ => exact hreads f as h

end

/-! ## Binary search -/

section
variable {ε β γ α : Type} (probe : Nat → Except ε (Probe β γ)) (reads : Nat → List α → Prop)

/-- `reads` says what a probe accesses. -/
def bisectLoop : Loop (Nat × Nat × γ) (Except ε (β ⊕ Nat × γ)) α where
  round := fun (lo, hi, acc) =>
    if lo < hi then
      let mid := lo + (hi - lo) / 2
      match probe mid with
      | .error e => .inl (.error e)
      | .ok (.found b) => .inl (.ok (.inl b))
      | .ok (.left acc') => .inr (lo, mid, acc')
      | .ok .right => .inr (mid + 1, hi, acc)
    else .inl (.ok (.inr (lo, acc)))
  log := fun (lo, hi, _) as => if lo < hi then reads (lo + (hi - lo) / 2) as else as = []

variable {probe reads}

theorem bisect_stable (fuel k lo hi : Nat) (acc : γ) (h : hi - lo ≤ fuel) :
    bisect probe (fuel + k) lo hi acc = bisect probe fuel lo hi acc := by
  induction fuel generalizing lo hi acc with
  | zero =>
    have hle : ¬lo < hi := by omega
    cases k with
    | zero => rfl
    | succ k => simp only [bisect, hle, if_false]
  | succ fuel ih =>
    rw [Nat.add_right_comm]
    by_cases hlt : lo < hi
    · simp only [bisect, hlt, if_true]
      cases probe (lo + (hi - lo) / 2) with
      | error e => rfl
      | ok r =>
        cases r with
        | found b => rfl
        | left acc' => exact ih _ _ _ (by omega)
        | right => exact ih _ _ _ (by omega)
    · simp only [bisect, hlt, if_false]

theorem bisectLoop_ends (hreads : ∀ mid, ∃ as, reads mid as) (lo hi : Nat) (acc : γ) :
    ∃ as, (bisectLoop probe reads).Ends (lo, hi, acc) (bisect probe (hi - lo) lo hi acc) as := by
  refine Loop.ends (I := fun _ => True) (g := fun s => bisect probe (s.2.1 - s.1) s.1 s.2.1 s.2.2)
    (μ := fun s => s.2.1 - s.1) ?_ ?_ (s := (lo, hi, acc)) trivial
  · intro s _
    by_cases hlt : s.1 < s.2.1
    · simpa only [bisectLoop, hlt, if_true] using hreads _
    · simp only [bisectLoop, hlt, if_false, exists_eq]
  · rintro ⟨lo, hi, acc⟩ -
    by_cases hlt : lo < hi
    · obtain ⟨n, hn⟩ : ∃ n, hi - lo = n + 1 := ⟨hi - lo - 1, by omega⟩
      have hmid : lo + (hi - lo) / 2 < hi := by omega
      have hstable (lo' hi' : Nat) (acc' : γ) (h : hi' - lo' ≤ n) :
          bisect probe n lo' hi' acc' = bisect probe (hi' - lo') lo' hi' acc' := by
        obtain ⟨k, rfl⟩ := Nat.exists_eq_add_of_le h
        exact bisect_stable _ _ _ _ _ (Nat.le_refl _)
      have hstep : bisect probe (hi - lo) lo hi acc = bisect probe (n + 1) lo hi acc := by rw [hn]
      simp only [bisectLoop, hlt, if_true]
      rw [bisect, if_pos hlt] at hstep
      cases hp : probe (lo + (hi - lo) / 2) with
      | error e => simpa only [Loop.Unrolls, hp] using hstep
      | ok r =>
        cases r with
        | found b => simpa only [Loop.Unrolls, hp] using hstep
        | left acc' =>
          refine ⟨trivial, ?_, by simp only; omega⟩
          simp only [hp] at hstep
          exact hstep.trans (hstable _ _ _ (by omega))
        | right =>
          refine ⟨trivial, ?_, by simp only; omega⟩
          simp only [hp] at hstep
          exact hstep.trans (hstable _ _ _ (by omega))
    · have hz : hi - lo = 0 := by omega
      simp only [bisectLoop, hlt, if_false, Loop.Unrolls, hz, bisect]

theorem bisectLoop_whole_ends (hreads : ∀ mid, ∃ as, reads mid as) (n : Nat) (acc : γ) :
    ∃ as, (bisectLoop probe reads).Ends (0, n, acc) (bisect probe n 0 n acc) as := bisectLoop_ends hreads 0 n acc

theorem bisectLoop_forall_mem {Q : α → Prop} (hreads : ∀ mid as, reads mid as → ∀ a ∈ as, Q a) {s : Nat × Nat × γ}
    {r : Except ε (β ⊕ Nat × γ)} {as : List α} (h : (bisectLoop probe reads).Ends s r as) : ∀ a ∈ as, Q a := by
  refine h.forall_mem fun s as has => ?_
  by_cases hlt : s.1 < s.2.1
  · simp only [bisectLoop, hlt, if_true] at has
    exact hreads _ _ has
  · simp only [bisectLoop, hlt, if_false] at has
    simp [has]

end

end PageWalk

end DbStorage
