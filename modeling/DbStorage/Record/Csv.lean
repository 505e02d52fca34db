import Mathlib

/-!
# CSV output (`format.rs`)

A value is quoted if it is empty or has a character that forces it; NULL is
printed as nothing. `parse` is a CSV reader in its own right, one character at
a time: a doubled quote inside quotes is a quote, and a cell without anything
is a missing one.

Result: `rows_read_back` (the reader recovers the rows that were printed).
-/
namespace DbStorage.Record.Csv

/-- mirrors format.rs:158-160 -/
def csvCharForcesQuote (c : Char) : Bool :=
  !(decide ('\x21' ≤ c) && decide (c ≤ '\x7e')) || c == '"' || c == '\'' || c == ','

/-- The loop that doubles quotes. -/
def doubled (s : List Char) : List Char := s.flatMap fun c => if c = '"' then ['"', c] else [c]

/-- mirrors format.rs:177-192 -/
def csvQuote (s : List Char) : List Char :=
  if s.isEmpty || s.any csvCharForcesQuote then '"' :: (doubled s ++ ['"']) else s

/-- NULL or a text.
mirrors format.rs:119-127 -/
def formatCsvValue : Option (List Char) → List Char
  | none => []
  | some s => csvQuote s

abbrev Row := List (Option (List Char))

def renderRow (row : Row) : List Char := List.intercalate [','] (row.map formatCsvValue)

def render (rows : List Row) : List Char := List.intercalate ['\n'] (rows.map renderRow)

/-! ## The reader -/

/-- What has been read of a cell; `closed` is behind a quote that ends the
cell or is the first of two. -/
inductive Cell where
  | blank
  | bare (s : List Char)
  | quoted (s : List Char)
  | closed (s : List Char)

/-- A cell that may end here. -/
def Cell.value : Cell → Option (Option (List Char))
  | .blank => some none
  | .bare s => some (some s)
  | .quoted _ => none
  | .closed s => some (some s)

def Cell.step : Cell → Char → Option Cell
  | .blank, c => some (if c = '"' then .quoted [] else .bare [c])
  | .bare s, c => if c = '"' then none else some (.bare (s ++ [c]))
  | .quoted s, c => some (if c = '"' then .closed s else .quoted (s ++ [c]))
  | .closed s, c => if c = '"' then some (.quoted (s ++ [c])) else none

structure Reader where
  rows : List Row
  row : Row
  cell : Cell

/-- The row if it ends here. -/
def Reader.current (r : Reader) : Option Row := r.cell.value.map fun v => r.row ++ [v]

def Reader.step (r : Reader) (c : Char) : Option Reader :=
  match r.current, c with
  | some row, ',' => some ⟨r.rows, row, .blank⟩
  | some row, '\n' => some ⟨r.rows ++ [row], [], .blank⟩
  | _, _ => (r.cell.step c).map fun cell => { r with cell }

def parse (text : List Char) : Option (List Row) := do
  let r ← text.foldlM Reader.step ⟨[], [], .blank⟩
  let row ← r.current
  pure (r.rows ++ [row])

/-! ## One cell -/

section
variable {rows : List Row} {row : Row} {s : List Char} {c : Char}

theorem forces_of_special (h : c = '"' ∨ c = ',' ∨ c = '\n') : csvCharForcesQuote c = true := by
  obtain rfl | rfl | rfl := h <;> decide

theorem step_quoted (c : Char) :
    Reader.step ⟨rows, row, .quoted s⟩ c = some ⟨rows, row, if c = '"' then .closed s else .quoted (s ++ [c])⟩ := by
  rfl

theorem step_plain {cell : Cell} (h : csvCharForcesQuote c = false) :
    Reader.step ⟨rows, row, cell⟩ c = (cell.step c).map fun cell => ⟨rows, row, cell⟩ := by
  have hcomma : c ≠ ',' := fun hc => by rw [forces_of_special (.inr (.inl hc))] at h; cases h
  have hline : c ≠ '\n' := fun hc => by rw [forces_of_special (.inr (.inr hc))] at h; cases h
  unfold Reader.step
  split
  · exact absurd rfl hcomma
  · exact absurd rfl hline
  · rfl

theorem read_bare {cs : List Char} (h : ∀ c ∈ cs, csvCharForcesQuote c = false) :
    cs.foldlM Reader.step ⟨rows, row, .bare s⟩ = some ⟨rows, row, .bare (s ++ cs)⟩ := by
  induction cs generalizing s with
  | nil => simp
  | cons c cs ih =>
    obtain ⟨hc, hcs⟩ := List.forall_mem_cons.1 h
    have hquote : c ≠ '"' := fun he => by rw [forces_of_special (.inl he)] at hc; cases hc
    rw [List.foldlM_cons, step_plain hc, Cell.step, if_neg hquote]
    simpa using ih (s := s ++ [c]) hcs

theorem read_doubled (cs : List Char) :
    (doubled cs).foldlM Reader.step ⟨rows, row, .quoted s⟩ = some ⟨rows, row, .quoted (s ++ cs)⟩ := by
  induction cs generalizing s with
  | nil => simp [doubled]
  | cons c cs ih =>
    have hrest := ih (s := s ++ [c])
    rw [List.append_assoc, List.singleton_append] at hrest
    rw [doubled, List.flatMap_cons]
    by_cases hc : c = '"'
    · -- the first quote closes, the second opens again
      subst hc
      exact hrest
    · rw [if_neg hc, List.singleton_append, List.foldlM_cons, step_quoted, if_neg hc]
      exact hrest

theorem read_cell (rows : List Row) (row : Row) (v : Option (List Char)) :
    ∃ r, (formatCsvValue v).foldlM Reader.step ⟨rows, row, .blank⟩ = some r ∧ r.rows = rows ∧
      r.current = some (row ++ [v]) := by
  cases v with
  | none => exact ⟨_, rfl, rfl, rfl⟩
  | some s =>
    rw [formatCsvValue, csvQuote]
    split
    · refine ⟨⟨rows, row, .closed s⟩, ?_, rfl, rfl⟩
      have hopen : Reader.step ⟨rows, row, .blank⟩ '"' = some ⟨rows, row, .quoted []⟩ := rfl
      rw [List.foldlM_cons, hopen]
      simp only [Option.bind_eq_bind, Option.bind_some]
      rw [List.foldlM_append, read_doubled]
      rfl
    · rename_i hplain
      rw [Bool.or_eq_true, not_or, List.any_eq_true] at hplain
      have hno : ∀ c ∈ s, csvCharForcesQuote c = false := fun c hc =>
        Bool.eq_false_iff.2 fun hf => hplain.2 ⟨c, hc, hf⟩
      cases s with
      | nil => exact absurd rfl hplain.1
      | cons c cs =>
        obtain ⟨hc, hcs⟩ := List.forall_mem_cons.1 hno
        have hquote : c ≠ '"' := fun he => by rw [forces_of_special (.inl he)] at hc; cases hc
        refine ⟨⟨rows, row, .bare ([c] ++ cs)⟩, ?_, rfl, rfl⟩
        rw [List.foldlM_cons, step_plain hc, Cell.step, if_neg hquote]
        exact read_bare hcs

end

/-! ## Cells and rows -/

/-- Items with a separator between them: `R` holds before an item and `E`
behind it, of the items read so far. -/
theorem read_separated {α : Type} {f : α → List Char} {sep : Char} {P : α → Prop} {R E : List α → Reader → Prop}
    (hitem : ∀ read r a, P a → R read r → ∃ r', (f a).foldlM Reader.step r = some r' ∧ E (read ++ [a]) r')
    (hsep : ∀ read r, E read r → ∃ r', r.step sep = some r' ∧ R read r') {as : List α} (hne : as ≠ [])
    (hP : ∀ a ∈ as, P a) {read : List α} {r : Reader} (h : R read r) :
    ∃ r', (List.intercalate [sep] (as.map f)).foldlM Reader.step r = some r' ∧ E (read ++ as) r' := by
  induction as generalizing read r with
  | nil => exact absurd rfl hne
  | cons a as ih =>
    obtain ⟨ha, has⟩ := List.forall_mem_cons.1 hP
    obtain ⟨r₁, hr₁, hended⟩ := hitem read r a ha h
    cases as with
    | nil => exact ⟨r₁, by rwa [List.map_singleton, List.intercalate_singleton], hended⟩
    | cons b as =>
      obtain ⟨r₂, hr₂, hready⟩ := hsep _ r₁ hended
      obtain ⟨r₃, hr₃, hend⟩ := ih (List.cons_ne_nil b as) has hready
      refine ⟨r₃, ?_, by simpa using hend⟩
      rw [List.map_cons, List.map_cons, List.intercalate_cons_cons, List.append_assoc, List.foldlM_append, hr₁,
        ← List.map_cons]
      simp only [Option.bind_eq_bind, Option.bind_some]
      rw [List.singleton_append, List.foldlM_cons, hr₂]
      exact hr₃

theorem read_row (rows : List Row) {row : Row} (hne : row ≠ []) :
    ∃ r, (renderRow row).foldlM Reader.step ⟨rows, [], .blank⟩ = some r ∧ r.rows = rows ∧ r.current = some row := by
  refine read_separated (P := fun _ => True) (R := fun read r => r = ⟨rows, read, .blank⟩)
    (E := fun read r => r.rows = rows ∧ r.current = some read) ?_ ?_ hne (fun _ _ => trivial) rfl
  · rintro read r v - rfl
    exact read_cell rows read v
  · rintro read r ⟨rfl, hr⟩
    exact ⟨⟨r.rows, read, .blank⟩, by simp only [Reader.step, hr], rfl⟩

theorem read_rows {rows : List Row} (hne : rows ≠ []) (hcells : ∀ row ∈ rows, row ≠ []) :
    ∃ r, (render rows).foldlM Reader.step ⟨[], [], .blank⟩ = some r ∧
      ∃ row, r.current = some row ∧ r.rows ++ [row] = rows := by
  refine read_separated (P := fun row => row ≠ []) (R := fun read r => r = ⟨read, [], .blank⟩)
    (E := fun read r => ∃ row, r.current = some row ∧ r.rows ++ [row] = read) ?_ ?_ hne hcells rfl
  · rintro read r row hrow rfl
    obtain ⟨r', hr', hrows, hcurrent⟩ := read_row read hrow
    exact ⟨r', hr', row, hcurrent, by rw [hrows]⟩
  · rintro read r ⟨row, hrow, rfl⟩
    exact ⟨⟨r.rows ++ [row], [], .blank⟩, by simp only [Reader.step, hrow], rfl⟩

/-- **CSV is read back.** For every non-empty list of rows, each with a cell:
what is printed is read as these rows, missing strings and empty ones apart. -/
theorem rows_read_back (rows : List Row) (hne : rows ≠ []) (hcells : ∀ row ∈ rows, row ≠ []) :
    parse (render rows) = some rows := by
  obtain ⟨r, hr, row, hrow, hrows⟩ := read_rows hne hcells
  rw [parse, hr]
  simp only [Option.bind_eq_bind, Option.bind_some, hrow, hrows]
  rfl

theorem quoted_rows_read_back :
    render [[some "a,\"b".toList, none, some []], [none], [some "é".toList, some "x".toList]] =
        "\"a,\"\"b\",,\"\"\n\n\"é\",x".toList ∧
      parse (render [[some "a,\"b".toList, none, some []], [none], [some "é".toList, some "x".toList]]) =
        some [[some "a,\"b".toList, none, some []], [none], [some "é".toList, some "x".toList]] :=
  ⟨by decide, rows_read_back _ (by decide) (by decide)⟩

end DbStorage.Record.Csv
