import DbStorage.Core.PagedTree

/-!
# Walking a tree page by page

A page asks for a list of visits: go down to a child, or yield an entry.
`Walk page vs out n`: carrying the visits `vs` out yields `out` and opens `n`
pages. `Walk.reverse`: the pages read backwards yield the entries backwards.

A `Reader` carries a walk out with a stack of frames and a bound on the pages
it opens, one entry at a time. `Pending` says what a stack still has to
yield; under `Lawful` the next entry is the first pending one
(`Pending.next`), so a whole scan yields the pending entries
(`Pending.yields`).

`bisect` is the binary search inside of a page, with its invariant rule
`bisect_inv`.
-/
namespace DbStorage.PageWalk

theorem bind_eq_ok_iff {ε α β : Type} {x : Except ε α} {f : α → Except ε β} {b : β} :
    (x >>= f) = .ok b ↔ ∃ a, x = .ok a ∧ f a = .ok b := by
  cases x with
  | error e => simp [bind, Except.bind]
  | ok a => simp [bind, Except.bind]

theorem mapError_eq_ok_iff {ε ε' α : Type} {x : Except ε α} {f : ε → ε'} {a : α} :
    x.mapError f = .ok a ↔ x = .ok a := by
  cases x <;> simp [Except.mapError]

inductive Visit (P E : Type) where
  | down (p : P)
  | emit (e : E)

variable {n v fuel : Nat}

section
variable {P E : Type} {page : P → List (Visit P E) → Prop}

inductive Walk (page : P → List (Visit P E) → Prop) : List (Visit P E) → List E → Nat → Prop where
  | nil : Walk page [] [] 0
  | emit {e : E} {vs : List (Visit P E)} {out : List E} {n : Nat} :
      Walk page vs out n → Walk page (.emit e :: vs) (e :: out) n
  | down {p : P} {ws vs : List (Visit P E)} {o₁ o₂ : List E} {m n : Nat} :
      page p ws → Walk page ws o₁ m → Walk page vs o₂ n → Walk page (.down p :: vs) (o₁ ++ o₂) (m + n + 1)

theorem Walk.append {vs ws : List (Visit P E)} {o₁ o₂ : List E} {m : Nat} (h₁ : Walk page vs o₁ m)
    (h₂ : Walk page ws o₂ n) : Walk page (vs ++ ws) (o₁ ++ o₂) (m + n) := by
  induction h₁ with
  | nil => simpa using h₂
  | emit _ ih => exact .emit ih
  | @down p us vs o o' k l hp hw _ _ ih =>
    have := Walk.down hp hw ih
    rwa [← List.append_assoc, ← Nat.add_assoc, Nat.add_right_comm (k + l) n 1] at this

theorem Walk.emits (es : List E) : Walk page (es.map .emit) es 0 := by
  induction es with
  | nil => exact .nil
  | cons e es ih => exact .emit ih

theorem Walk.single {p : P} {ws : List (Visit P E)} {out : List E} (hp : page p ws) (h : Walk page ws out n) :
    Walk page [.down p] out (n + 1) := by
  simpa using Walk.down hp h .nil

/-- With every page read from its end, the entries come in reverse. -/
theorem Walk.reverse {vs : List (Visit P E)} {out : List E} (h : Walk page vs out n) :
    Walk (fun p ws => page p ws.reverse) vs.reverse out.reverse n := by
  induction h with
  | nil => exact .nil
  | @emit e vs out n _ ih =>
    simpa using ih.append (Walk.emits [e])
  | @down p ws vs o₁ o₂ m n hp _ _ ih₁ ih₂ =>
    have hp' : page p ws.reverse.reverse := by rwa [List.reverse_reverse]
    have hlast : Walk (fun p ws => page p ws.reverse) [.down p] o₁.reverse (m + 1) := Walk.single hp' ih₁
    have := ih₂.append hlast
    rw [List.reverse_cons, List.reverse_append]
    rwa [← Nat.add_assoc, Nat.add_comm n m] at this

end

/-! ## Trees as walks -/

section
variable {P V α κ E : Type} [DecidableEq P] {K : PagedTree.Kind P V α κ} {view : P → Option V}

/-- The visits of an interior page: an entry's child, and then what its
separator yields. -/
def interiorVisits (key : κ → List E) (es : List (P × κ)) (r : P) : List (Visit P E) :=
  es.flatMap (fun e => .down e.1 :: (key e.2).map .emit) ++ [.down r]

/-- What the rows and separators of a tree yield. -/
def entriesOf (row : α → E) (key : κ → List E) (items : List (α ⊕ κ)) : List E :=
  items.flatMap (Sum.elim (fun a => [row a]) key)

/-- A page of the store and the visits it asks for. -/
inductive PageVisits (K : PagedTree.Kind P V α κ) (view : P → Option V) (row : α → E) (key : κ → List E) :
    P → List (Visit P E) → Prop where
  | leaf {p : P} {v : V} {rows : List α} : view p = some v → K.leaf p v rows →
      PageVisits K view row key p (rows.map fun a => .emit (row a))
  | interior {p : P} {v : V} {es : List (P × κ)} {r : P} : view p = some v → K.interior p v es r →
      PageVisits K view row key p (interiorVisits key es r)

theorem walk_children {row : α → E} {key : κ → List E} {es : List (P × κ)} {r : P} {items : List (α ⊕ κ)}
    {own : Finset P} (h : PagedTree.Tree K view es r items own) :
    Walk (PageVisits K view row key) (interiorVisits key es r) (entriesOf row key items) own.card := by
  induction h with
  | @leaf p v rows hv hl =>
    have hrows : entriesOf row key (rows.map .inl) = rows.map row := by
      rw [entriesOf, List.flatMap_map]
      exact (List.map_eq_flatMap ..).symm
    have hemits : Walk (PageVisits K view row key) ((rows.map row).map .emit) (rows.map row) 0 := Walk.emits _
    rw [List.map_map] at hemits
    rw [hrows]
    exact Walk.single (PageVisits.leaf hv hl) hemits
  | @node p v es r items own hv hi _ hn ih =>
    simpa [interiorVisits, Finset.card_insert_of_notMem hn] using Walk.single (PageVisits.interior hv hi) ih
  | @cons c k es r i₁ i₂ o₁ o₂ _ _ hd ih₁ ih₂ =>
    have := ih₁.append ((Walk.emits (key k)).append ih₂)
    simpa [interiorVisits, entriesOf, Finset.card_union_of_disjoint hd] using this

end

/-! ## Readers -/

structure Traversal (F : Type) where
  stack : List F
  pagesVisited : Nat
  deriving DecidableEq

/-- What the top frame of a stack does. -/
inductive Turn (P E F ε : Type) where
  | pop
  | descend (frame : F) (child : Except ε P)
  | yield (frame : F) (entry : Except ε E)

structure Reader (P E F ε : Type) where
  turn : F → Turn P E F ε
  load : P → Except ε F
  max : Nat
  tooLong : ε

section
variable {P E F ε : Type} (R : Reader P E F ε)

def Reader.push (p : P) (t : Traversal F) : Except ε Unit × Traversal F :=
  let visited := t.pagesVisited + 1
  if R.max < visited then (.error R.tooLong, { t with pagesVisited := visited })
  else
    match R.load p with
    | .error e => (.error e, { t with pagesVisited := visited })
    | .ok f => (.ok (), ⟨f :: t.stack, visited⟩)

def Reader.advance : Nat → Traversal F → Except ε (Option E) × Traversal F
  | 0, t => (.error R.tooLong, t)
  | fuel + 1, t =>
    match t.stack with
    | [] => (.ok none, t)
    | f :: rest =>
      match R.turn f with
      | .pop => Reader.advance fuel { t with stack := rest }
      | .descend f' (.error e) => (.error e, { t with stack := f' :: rest })
      | .descend f' (.ok child) =>
        match R.push child { t with stack := f' :: rest } with
        | (.error e, t') => (.error e, t')
        | (.ok (), t') => Reader.advance fuel t'
      | .yield f' (.error e) => (.error e, { t with stack := f' :: rest })
      | .yield f' (.ok entry) => (.ok (some entry), { t with stack := f' :: rest })

/-- The next entry. A turn opens a page or takes a frame off the stack, so
the fuel is enough for any number of pages up to the bound. -/
def Reader.next (t : Traversal F) : Except ε (Option E) × Traversal F :=
  R.advance (2 * R.max + t.stack.length + 1) t

/-- The first entry of the tree at a page. -/
def Reader.start (root : P) : Except ε (Option E) × Traversal F :=
  match R.push root ⟨[], 0⟩ with
  | (.error e, t) => (.error e, t)
  | (.ok (), t) => R.next t

end

section
variable {P E F ε : Type} {R : Reader P E F ε} {page : P → List (Visit P E) → Prop}
  {left : F → List (Visit P E) → Prop}

/-- The turn of a frame that has these visits left. -/
def Turns (turn : F → Turn P E F ε) (left : F → List (Visit P E) → Prop) (f : F) : List (Visit P E) → Prop
  | [] => turn f = .pop
  | .emit e :: vs => ∃ f', turn f = .yield f' (.ok e) ∧ left f' vs
  | .down p :: vs => ∃ f', turn f = .descend f' (.ok p) ∧ left f' vs

/-- `left f vs`: the frame `f` still has the visits `vs` to make. -/
structure Reader.Lawful (R : Reader P E F ε) (page : P → List (Visit P E) → Prop)
    (left : F → List (Visit P E) → Prop) : Prop where
  turn {f : F} {vs : List (Visit P E)} : left f vs → Turns R.turn left f vs
  load {p : P} {vs : List (Visit P E)} : page p vs → ∃ f, R.load p = .ok f ∧ left f vs

/-- What a stack still has to yield, and the pages it has to open for that. -/
inductive Pending (page : P → List (Visit P E) → Prop) (left : F → List (Visit P E) → Prop) :
    List F → List E → Nat → Prop where
  | nil : Pending page left [] [] 0
  | cons {f : F} {vs : List (Visit P E)} {st : List F} {o₁ o₂ : List E} {m n : Nat} :
      left f vs → Walk page vs o₁ m → Pending page left st o₂ n → Pending page left (f :: st) (o₁ ++ o₂) (m + n)

theorem Reader.Lawful.push (L : R.Lawful page left) {p : P} {ws : List (Visit P E)} (hp : page p ws) (st : List F)
    (hv : v < R.max) : ∃ f, left f ws ∧ R.push p ⟨st, v⟩ = (.ok (), ⟨f :: st, v + 1⟩) := by
  obtain ⟨f, hload, hleft⟩ := L.load hp
  refine ⟨f, hleft, ?_⟩
  rw [Reader.push, if_neg (Nat.not_lt.2 hv), hload]

/-- The entry that a walk yields next, with what is pending after it. -/
def NextIs (R : Reader P E F ε) (page : P → List (Visit P E) → Prop) (left : F → List (Visit P E) → Prop)
    (r : Except ε (Option E) × Traversal F) : List E → Prop
  | [] => ∃ t, r = (.ok none, t)
  | e :: out => ∃ t n, r = (.ok (some e), t) ∧ Pending page left t.stack out n ∧ t.pagesVisited + n ≤ R.max

theorem Pending.advance (L : R.Lawful page left) (fuel : Nat) {st : List F} {out : List E}
    (h : Pending page left st out n) (hv : v + n ≤ R.max) (hfuel : 2 * n + st.length < fuel) :
    NextIs R page left (R.advance fuel ⟨st, v⟩) out := by
  induction fuel generalizing st out n v with
  | zero => omega
  | succ fuel ih =>
    cases h with
    | nil => exact ⟨_, rfl⟩
    | @cons f vs st o₁ o₂ m n hleft hw hrest =>
      rw [List.length_cons] at hfuel
      rw [Reader.advance]
      cases hw with
      | nil =>
        have hturn : R.turn f = .pop := L.turn hleft
        simp only [hturn]
        exact ih (by simpa using hrest) (by omega) (by omega)
      | emit hw =>
        obtain ⟨f', hturn, hleft'⟩ := L.turn hleft
        simp only [hturn]
        exact ⟨_, _, rfl, .cons hleft' hw hrest, hv⟩
      | @down p ws vs o o' k l hp hw hw' =>
        obtain ⟨f', hturn, hleft'⟩ := L.turn hleft
        obtain ⟨g, hg, hpush⟩ := L.push hp (f' :: st) (show v < R.max by omega)
        simp only [hturn, hpush]
        have hpend : Pending page left (g :: f' :: st) (o ++ (o' ++ o₂)) (k + (l + n)) :=
          .cons hg hw (.cons hleft' hw' hrest)
        rw [List.append_assoc]
        exact ih hpend (by omega) (by simp only [List.length_cons]; omega)

theorem Pending.next (L : R.Lawful page left) {t : Traversal F} {out : List E} {n : Nat}
    (h : Pending page left t.stack out n) (hv : t.pagesVisited + n ≤ R.max) :
    NextIs R page left (R.next t) out := h.advance L _ hv (by omega)

/-- The first entry is the next one of a stack with the root's frame. -/
theorem Reader.Lawful.start (L : R.Lawful page left) {root : P} {out : List E} {n : Nat}
    (h : Walk page [.down root] out n) (hn : n ≤ R.max) :
    ∃ t m, R.start root = R.next t ∧ Pending page left t.stack out m ∧ t.pagesVisited + m ≤ R.max := by
  cases h with
  | @down _ ws _ o₁ _ m _ hp hw hnil =>
    cases hnil
    obtain ⟨f, hf, hpush⟩ := L.push hp [] (show 0 < R.max by omega)
    refine ⟨⟨[f], 0 + 1⟩, m, ?_, ?_, by simpa [Nat.add_comm] using hn⟩
    · rw [Reader.start, hpush]
    · simpa using Pending.cons hf hw .nil

/-- A walk that needs more pages than it may open: it fails, or yields an entry
and still needs too many. -/
def Overruns (R : Reader P E F ε) (page : P → List (Visit P E) → Prop) (left : F → List (Visit P E) → Prop)
    (r : Except ε (Option E) × Traversal F) : Prop :=
  (∃ e t, r = (.error e, t)) ∨
    ∃ e t out n, r = (.ok (some e), t) ∧ Pending page left t.stack out n ∧ t.pagesVisited ≤ R.max ∧
      R.max < t.pagesVisited + n

theorem Pending.advance_overruns (L : R.Lawful page left) (fuel : Nat) {st : List F} {out : List E}
    (h : Pending page left st out n) (hv : v ≤ R.max) (hn : R.max < v + n) :
    Overruns R page left (R.advance fuel ⟨st, v⟩) := by
  induction fuel generalizing st out n v with
  | zero => exact .inl ⟨_, _, rfl⟩
  | succ fuel ih =>
    cases h with
    | nil => omega
    | @cons f vs st o₁ o₂ m n hleft hw hrest =>
      rw [Reader.advance]
      cases hw with
      | nil =>
        have hturn : R.turn f = .pop := L.turn hleft
        simp only [hturn]
        exact ih hrest hv (by omega)
      | emit hw =>
        obtain ⟨f', hturn, hleft'⟩ := L.turn hleft
        simp only [hturn]
        exact .inr ⟨_, _, _, _, rfl, .cons hleft' hw hrest, hv, hn⟩
      | @down p ws vs o o' k l hp hw hw' =>
        obtain ⟨f', hturn, hleft'⟩ := L.turn hleft
        simp only [hturn]
        rcases Nat.lt_or_ge v R.max with hlt | hge
        · obtain ⟨g, hg, hpush⟩ := L.push hp (f' :: st) hlt
          simp only [hpush]
          exact ih (.cons hg hw (.cons hleft' hw' hrest)) (by omega) (by omega)
        · have hmax : R.max < v + 1 := by omega
          exact .inl ⟨R.tooLong, ⟨f' :: st, v + 1⟩, by simp only [Reader.push, hmax, if_true]⟩

theorem Reader.Lawful.start_overruns (L : R.Lawful page left) {root : P} {out : List E}
    (h : Walk page [.down root] out n) (hn : R.max < n) : Overruns R page left (R.start root) := by
  cases h with
  | @down _ ws _ o₁ _ m _ hp hw hnil =>
    cases hnil
    rcases Nat.eq_zero_or_pos R.max with hz | hpos
    · exact .inl ⟨R.tooLong, ⟨[], 0 + 1⟩, by simp [Reader.start, Reader.push, hz]⟩
    · obtain ⟨f, hf, hpush⟩ := L.push hp [] hpos
      rw [Reader.start, hpush]
      exact (Pending.cons hf hw .nil).advance_overruns L _ hpos (by omega)

end

/-! ## Scans -/

section
variable {σ ρ ε O : Type}

/-- What a caller sees that asks for one row after the other until there is
none. -/
inductive Yields (next : σ → Except ε (Option ρ) × σ) (see : ρ → σ → O) :
    Except ε (Option ρ) × σ → List O → Prop where
  | done {s : σ} : Yields next see (.ok none, s) []
  | row {r : ρ} {s : σ} {os : List O} : Yields next see (next s) os → Yields next see (.ok (some r), s) (see r s :: os)

variable {P E F : Type} {R : Reader P E F ε} {page : P → List (Visit P E) → Prop}
  {left : F → List (Visit P E) → Prop}

/-- A cursor over a walk: `moved` puts what the walk did into the cursor. -/
theorem Pending.yields (L : R.Lawful page left) (next : σ → Except ε (Option ρ) × σ) (see : ρ → σ → O) (seen : E → O)
    (walk : σ → Traversal F) (moved : σ → Except ε (Option E) × Traversal F → Except ε (Option ρ) × σ) (Good : σ → Prop)
    (hnext : ∀ s, Good s → next s = moved s (R.next (walk s)))
    (hnone : ∀ s t, Good s → ∃ s', moved s (.ok none, t) = (.ok none, s'))
    (hrow : ∀ s e t, Good s → ∃ r s', moved s (.ok (some e), t) = (.ok (some r), s') ∧ walk s' = t ∧ Good s' ∧ see r s' = seen e)
    {s : σ} {t : Traversal F} {out : List E} (hs : Good s) (h : Pending page left t.stack out n)
    (hv : t.pagesVisited + n ≤ R.max) : Yields next see (moved s (R.next t)) (out.map seen) := by
  induction out generalizing s t n with
  | nil =>
    obtain ⟨t', ht⟩ := h.next L hv
    obtain ⟨s', hs'⟩ := hnone s t' hs
    rw [ht, hs']
    exact .done
  | cons e out ih =>
    obtain ⟨t', n', ht, hp, hv'⟩ := h.next L hv
    obtain ⟨r, s', hm, hw, hg, hsee⟩ := hrow s e t' hs
    rw [ht, hm, List.map_cons, ← hsee]
    refine .row ?_
    rw [hnext s' hg, hw]
    exact ih hg hp hv'

/-- A scan over too many pages does not come to its end. -/
theorem Overruns.not_yields (L : R.Lawful page left) (next : σ → Except ε (Option ρ) × σ) (see : ρ → σ → O)
    (walk : σ → Traversal F) (moved : σ → Except ε (Option E) × Traversal F → Except ε (Option ρ) × σ) (Good : σ → Prop)
    (hnext : ∀ s, Good s → next s = moved s (R.next (walk s)))
    (herror : ∀ s e t, ∃ e' s', moved s (.error e, t) = (.error e', s'))
    (hrow : ∀ s e t, Good s → ∃ r s', moved s (.ok (some e), t) = (.ok (some r), s') ∧ walk s' = t ∧ Good s')
    {s : σ} {r : Except ε (Option E) × Traversal F} {os : List O} (hs : Good s) (h : Overruns R page left r) :
    ¬ Yields next see (moved s r) os := by
  induction os generalizing s r with
  | nil =>
    intro hy
    rcases h with ⟨e, t, rfl⟩ | ⟨e, t, out, n, rfl, -⟩
    · obtain ⟨e', s', hm⟩ := herror s e t
      rw [hm] at hy
      cases hy
    · obtain ⟨r', s', hm, -⟩ := hrow s e t hs
      rw [hm] at hy
      cases hy
  | cons o os ih =>
    intro hy
    rcases h with ⟨e, t, rfl⟩ | ⟨e, t, out, n, rfl, hp, hv, hn⟩
    · obtain ⟨e', s', hm⟩ := herror s e t
      rw [hm] at hy
      cases hy
    · obtain ⟨r', s', hm, hw, hg⟩ := hrow s e t hs
      rw [hm] at hy
      cases hy with
      | row hy =>
        rw [hnext s' hg, hw] at hy
        exact ih hg (hp.advance_overruns L _ hv hn) hy

theorem Yields.map {next : σ → Except ε (Option ρ) × σ} {see : ρ → σ → O} {r : Except ε (Option ρ) × σ} {os : List O}
    {O' : Type} (f : O → O') (h : Yields next see r os) : Yields next (fun row s => f (see row s)) r (os.map f) := by
  induction h with
  | done => exact .done
  | row _ ih => exact .row ih

end

section
variable {σ ρ ε O : Type} {next : σ → Except ε (Option ρ) × σ} {see : ρ → σ → O} {tooLong : ε}

/-- All rows from a position on, and the error that ended the reading, if one
did. -/
def collect (next : σ → Except ε (Option ρ) × σ) (see : ρ → σ → O) (tooLong : ε) :
    Nat → Except ε (Option ρ) × σ → List O × Option ε
  | 0, _ => ([], some tooLong)
  | fuel + 1, r =>
    match r with
    | (.error e, _) => ([], some e)
    | (.ok none, _) => ([], none)
    | (.ok (some row), s) =>
      let rest := collect next see tooLong fuel (next s)
      (see row s :: rest.1, rest.2)

theorem collect_yields {r : Except ε (Option ρ) × σ} {os : List O} (h : collect next see tooLong fuel r = (os, none)) :
    Yields next see r os := by
  induction fuel generalizing r os with
  | zero => cases h
  | succ fuel ih =>
    obtain ⟨res, s⟩ := r
    match res with
    | .error e => cases h
    | .ok none =>
      cases h
      exact .done
    | .ok (some row) =>
      obtain ⟨rfl, herr⟩ := Prod.mk.inj h
      exact .row (ih (Prod.ext rfl herr))

theorem collect_of_yields {r : Except ε (Option ρ) × σ} {os : List O} (h : Yields next see r os)
    (hfuel : os.length < fuel) : collect next see tooLong fuel r = (os, none) := by
  induction h generalizing fuel with
  | done =>
    obtain ⟨fuel, rfl⟩ := Nat.exists_eq_succ_of_ne_zero (Nat.ne_of_gt hfuel)
    rfl
  | row _ ih =>
    obtain ⟨fuel, rfl⟩ := Nat.exists_eq_succ_of_ne_zero (Nat.ne_zero_of_lt hfuel)
    rw [collect, ih (Nat.lt_of_succ_lt_succ hfuel)]

/-- With a measure that every row takes from, the fuel does not end a reading. -/
theorem collect_stable {m : σ → Nat} (hnext : ∀ s row s', next s = (.ok (some row), s') → m s' < m s)
    (fuel k : Nat) (r : Except ε (Option ρ) × σ) (hpos : 0 < fuel)
    (hfuel : ∀ row s, r = (.ok (some row), s) → m s + 1 < fuel) :
    collect next see tooLong (fuel + k) r = collect next see tooLong fuel r := by
  induction fuel generalizing r with
  | zero => omega
  | succ fuel ih =>
    rw [Nat.add_right_comm]
    obtain ⟨res, s⟩ := r
    match res with
    | .error e => rfl
    | .ok none => rfl
    | .ok (some row) =>
      have hs := hfuel row s rfl
      have := ih (next s) (by omega) fun row' s' h => by
        have := hnext s row' s' h
        omega
      simp only [collect, this]

end

/-! ## Every walk ends -/

section
variable {P E F ε : Type} {R : Reader P E F ε} {w : F → Nat} {W : Nat}

variable {t t' : Traversal F}

/-- Every turn opens a page or takes a frame off the stack, so the fuel of
`next` is never used up, whatever the pages hold. -/
theorem Reader.advance_stable (fuel k : Nat) (hfuel : 2 * (R.max - t.pagesVisited) + t.stack.length < fuel) :
    R.advance (fuel + k) t = R.advance fuel t := by
  induction fuel generalizing t with
  | zero => omega
  | succ fuel ih =>
    rw [Nat.add_right_comm]
    obtain ⟨st, v⟩ := t
    cases st with
    | nil => rfl
    | cons f rest =>
      simp only [List.length_cons] at hfuel
      simp only [Reader.advance]
      cases R.turn f with
      | pop => exact ih (by simp only; omega)
      | yield f' entry => cases entry <;> rfl
      | descend f' child =>
        cases child with
        | error e => rfl
        | ok child =>
          simp only [Reader.push]
          by_cases hmax : R.max < v + 1
          · simp only [hmax, if_true]
          · simp only [hmax, if_false]
            cases R.load child with
            | error e => rfl
            | ok g => exact ih (by simp only [List.length_cons]; omega)

/-- An entry takes from the weight of its frame, and no page weighs more than
`W`. -/
structure Reader.Weighs (R : Reader P E F ε) (w : F → Nat) (W : Nat) : Prop where
  yield {f f' : F} {e : E} : R.turn f = .yield f' (.ok e) → w f' < w f
  descend {f f' : F} {p : P} : R.turn f = .descend f' (.ok p) → w f' ≤ w f
  load {p : P} {f : F} : R.load p = .ok f → w f ≤ W

/-- What a walk may still yield at most, with at most `max` pages. -/
def Traversal.weight (max : Nat) (w : F → Nat) (W : Nat) (t : Traversal F) : Nat :=
  (t.stack.map w).sum + W * (max - t.pagesVisited)

theorem Reader.Weighs.push (H : R.Weighs w W) {p : P} (h : R.push p t = (.ok (), t')) :
    t'.weight R.max w W ≤ t.weight R.max w W := by
  simp only [Reader.push] at h
  by_cases hmax : R.max < t.pagesVisited + 1
  · rw [if_pos hmax] at h
    cases h
  rw [if_neg hmax] at h
  cases hload : R.load p with
  | error e => simp [hload] at h
  | ok f =>
    simp only [hload] at h
    cases h
    have hf := H.load hload
    have hmul : W * (R.max - t.pagesVisited) = W * (R.max - (t.pagesVisited + 1)) + W := by
      rw [← Nat.mul_succ]
      congr 1
      omega
    simp only [Traversal.weight, List.map_cons, List.sum_cons]
    omega

theorem Reader.Weighs.advance (H : R.Weighs w W) {e : E} (h : R.advance fuel t = (.ok (some e), t')) :
    t'.weight R.max w W < t.weight R.max w W := by
  induction fuel generalizing t with
  | zero => cases h
  | succ fuel ih =>
    obtain ⟨st, v⟩ := t
    rw [Reader.advance] at h
    cases st with
    | nil => cases h
    | cons f rest =>
      simp only at h
      cases hturn : R.turn f with
      | pop =>
        simp only [hturn] at h
        have := ih h
        simp only [Traversal.weight, List.map_cons, List.sum_cons] at this ⊢
        omega
      | yield f' entry =>
        cases entry with
        | error e => simp [hturn] at h
        | ok entry =>
          simp only [hturn] at h
          cases h
          have := H.yield hturn
          simp only [Traversal.weight, List.map_cons, List.sum_cons]
          omega
      | descend f' child =>
        cases child with
        | error e => simp [hturn] at h
        | ok child =>
          simp only [hturn] at h
          split at h
          · cases h
          · rename_i t₁ hpush
            have hle := H.push hpush
            have hf := H.descend hturn
            have := ih h
            simp only [Traversal.weight, List.map_cons, List.sum_cons] at this hle ⊢
            omega

theorem Reader.Weighs.start (H : R.Weighs w W) {root : P} {t : Traversal F} {e : E}
    (h : R.start root = (.ok (some e), t)) : t.weight R.max w W < W * R.max := by
  unfold Reader.start at h
  split at h
  · cases h
  · rename_i t₁ hpush
    have hle := H.push hpush
    have := H.advance h
    simp only [Traversal.weight, List.map_nil, List.sum_nil, Nat.zero_add, Nat.sub_zero] at this hle ⊢
    omega

end

/-! ## Binary search -/

inductive Probe (β γ : Type) where
  | found (b : β)
  | left (acc : γ)
  | right

section
variable {ε β γ : Type} (probe : Nat → Except ε (Probe β γ))

/-- `while lo < hi`, probing the middle; `acc` remembers what the last probe
to the left said. -/
def bisect : Nat → Nat → Nat → γ → Except ε (β ⊕ Nat × γ)
  | 0, lo, _, acc => .ok (.inr (lo, acc))
  | fuel + 1, lo, hi, acc =>
    if lo < hi then
      let mid := lo + (hi - lo) / 2
      match probe mid with
      | .error e => .error e
      | .ok (.found b) => .ok (.inl b)
      | .ok (.left acc') => bisect fuel lo mid acc'
      | .ok .right => bisect fuel (mid + 1) hi acc
    else .ok (.inr (lo, acc))

variable {probe}

/-- What a probe must keep of an invariant of the interval. -/
def Probe.Keeps (Inv : Nat → Nat → γ → Prop) (Found : β → Prop) (lo hi : Nat) (acc : γ) : Probe β γ → Prop
  | .found b => Found b
  | .left acc' => Inv lo (lo + (hi - lo) / 2) acc'
  | .right => Inv (lo + (hi - lo) / 2 + 1) hi acc

/-- What a search ends with. -/
def Ended (Inv : Nat → Nat → γ → Prop) (Found : β → Prop) : β ⊕ Nat × γ → Prop
  | .inl b => Found b
  | .inr (i, acc) => Inv i i acc

theorem bisect_inv {Inv : Nat → Nat → γ → Prop} {Found : β → Prop}
    (hprobe : ∀ lo hi acc, lo < hi → Inv lo hi acc →
      ∃ r, probe (lo + (hi - lo) / 2) = .ok r ∧ r.Keeps Inv Found lo hi acc)
    (fuel lo hi : Nat) (acc : γ) (hle : lo ≤ hi) (hfuel : hi - lo ≤ fuel) (h : Inv lo hi acc) :
    ∃ r, bisect probe fuel lo hi acc = .ok r ∧ Ended Inv Found r := by
  induction fuel generalizing lo hi acc with
  | zero =>
    obtain rfl : lo = hi := by omega
    exact ⟨_, rfl, h⟩
  | succ fuel ih =>
    by_cases hlt : lo < hi
    · obtain ⟨r, hr, hk⟩ := hprobe lo hi acc hlt h
      simp only [bisect, if_pos hlt, hr]
      cases r with
      | found b => exact ⟨_, rfl, hk⟩
      | left acc' => exact ih _ _ _ (by omega) (by omega) hk
      | right => exact ih _ _ _ (by omega) (by omega) hk
    · obtain rfl : lo = hi := by omega
      exact ⟨.inr (lo, acc), by simp [bisect], h⟩

end

end DbStorage.PageWalk
