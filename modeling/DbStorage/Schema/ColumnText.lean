import DbStorage.Schema.CreateTable

/-!
# Column definitions read back (`schema/ddl_reader.rs`)

A `CREATE TABLE` text is printed from its columns and table constraints, and
`parse_create_table` reads it. It tells the two apart by the text they start
with, not by words: a column called `checked` is taken for a `CHECK`, and a
`PRIMARY KEY` written with two blanks for a column. `Readable` says of which
tables the columns are read back.
-/
namespace DbStorage.Schema
open List

/-! ## Identifiers and keywords -/

/-- The characters of an identifier that is not quoted. -/
def identChar (c : Char) : Bool := c.isAlphanum || c == '_' || c == '$' || 0x80 ≤ c.toNat

/-- The identifier or keyword that a text starts with. -/
def leading (s : List Char) : List Char := s.takeWhile identChar

def isKeyword (keywords : List (List Char)) (w : List Char) : Bool := keywords.any (eqIgnoreCase w ·)

/-- The keywords that start a table constraint. -/
def tableKeywords : List (List Char) :=
  ["CONSTRAINT".toList, "PRIMARY".toList, "UNIQUE".toList, "CHECK".toList, "FOREIGN".toList]

/-- The keywords that start a column constraint. -/
def columnKeywords : List (List Char) :=
  constraintKeywords ++ ["CONSTRAINT".toList, "GENERATED".toList, "AS".toList]

theorem toLower_cases (c : Char) :
    c.toLower = c ∨ 65 ≤ c.toNat ∧ c.toNat ≤ 90 ∧ c.toLower.toNat = c.toNat + 32 := by
  by_cases h : c.val ≥ 'A'.val ∧ c.val ≤ 'Z'.val
  · have h1 : 65 ≤ c.toNat := h.1
    have h2 : c.toNat ≤ 90 := h.2
    refine .inr ⟨h1, h2, ?_⟩
    rw [Char.toLower, dif_pos h]
    show (c.val.toNat + 32) % 2 ^ 32 = c.toNat + 32
    exact Nat.mod_eq_of_lt (by rw [Char.toNat] at h2; omega)
  · exact .inl (by rw [Char.toLower, dif_neg h])

theorem identChar_iff (c : Char) : identChar c = true ↔
    48 ≤ c.toNat ∧ c.toNat ≤ 57 ∨ 65 ≤ c.toNat ∧ c.toNat ≤ 90 ∨ 97 ≤ c.toNat ∧ c.toNat ≤ 122 ∨ c.toNat = 95 ∨
      c.toNat = 36 ∨ 128 ≤ c.toNat := by
  have heq : ∀ d : Char, c = d ↔ c.toNat = d.toNat := fun d => ⟨congrArg _, fun h => Char.toNat_inj.1 h⟩
  simp only [identChar, Char.isAlphanum, Char.isAlpha, Char.isUpper, Char.isLower, Char.isDigit, Bool.or_eq_true,
    decide_eq_true_eq, beq_iff_eq, heq, UInt32.le_iff_toNat_le, ge_iff_le, Bool.and_eq_true]
  simp only [Char.toNat]
  simp
  omega

theorem identChar_toLower (c : Char) : identChar c.toLower = identChar c := by
  rcases toLower_cases c with h | ⟨h1, h2, h⟩
  · rw [h]
  · rw [Bool.eq_iff_iff, identChar_iff, identChar_iff, h]
    omega

theorem isWhitespace_toLower (c : Char) : isWhitespace c.toLower = isWhitespace c := by
  rcases toLower_cases c with h | ⟨h1, h2, h⟩
  · rw [h]
  · rw [Bool.eq_iff_iff]
    simp only [isWhitespace, h, Bool.or_eq_true, Bool.and_eq_true, decide_eq_true_eq, beq_iff_eq]
    omega

variable {s w r : List Char} {c : Char} {keywords : List (List Char)} {t : CreateTable}

/-- What does not tell upper from lower case holds of both of two texts that are
equal but for case. -/
theorem forall_of_toLower {p : Char → Bool} (hp : ∀ c, p c.toLower = p c) {t : List Char} {b : Bool}
    (h : s.map Char.toLower = t.map Char.toLower) (ht : ∀ c ∈ t, p c = b) : ∀ c ∈ s, p c = b := by
  intro c hc
  have hmem : c.toLower ∈ t.map Char.toLower := h ▸ mem_map_of_mem hc
  obtain ⟨d, hd, hlower⟩ := mem_map.1 hmem
  rw [← hp c, ← hlower, hp d, ht d hd]

theorem startsWithIgnoreCase_iff {start : List Char} :
    startsWithIgnoreCase s start = true ↔ ∃ a b, s = a ++ b ∧ a.map Char.toLower = start.map Char.toLower := by
  rw [startsWithIgnoreCase, beq_iff_eq]
  constructor
  · intro h
    exact ⟨_, _, (take_append_drop start.length s).symm, h⟩
  · rintro ⟨a, b, rfl, h⟩
    have hlen : a.length = start.length := by simpa using congrArg List.length h
    rw [← hlen, take_left, h]

/-- A text splits in one way into an identifier and what is none. -/
theorem leading_append (hw : ∀ c ∈ w, identChar c = true) (hr : ∀ c ∈ r.head?, identChar c = false) :
    leading (w ++ r) = w ∧ (w ++ r).dropWhile identChar = r := by
  rw [leading, takeWhile_append_of_pos hw, dropWhile_append_of_pos hw]
  cases r with
  | nil => exact ⟨append_nil w, rfl⟩
  | cons c r =>
    have hc : ¬identChar c = true := Bool.eq_false_iff.1 (hr c rfl)
    rw [takeWhile_cons_of_neg hc, dropWhile_cons_of_neg hc]
    exact ⟨append_nil w, rfl⟩

theorem leading_append_rest (s : List Char) : leading s ++ s.dropWhile identChar = s := takeWhile_append_dropWhile

theorem mem_leading (h : c ∈ leading s) : identChar c = true := mem_takeWhile_imp h

theorem rest_head : ∀ c ∈ (s.dropWhile identChar).head?, identChar c = false := by
  intro c hc
  cases hrest : s.dropWhile identChar with
  | nil => simp [hrest] at hc
  | cons d rest =>
    have hd := head_dropWhile_not identChar (l := s) (by simp [hrest])
    simp only [hrest, head_cons] at hd
    simp only [hrest, List.head?_cons, Option.mem_def, Option.some.injEq] at hc
    exact hc ▸ hd

/-- A set of keywords. -/
def Keywords (keywords : List (List Char)) : Prop :=
  ∀ kw ∈ keywords, kw ≠ [] ∧ ∀ c ∈ kw, identChar c = true ∧ isWhitespace c = false

theorem Keywords.of_all
    (h : (keywords.all fun kw => !kw.isEmpty && kw.all fun c => identChar c && !isWhitespace c) = true) :
    Keywords keywords := by
  intro kw hkw
  have hall := all_eq_true.1 h kw hkw
  rw [Bool.and_eq_true, all_eq_true] at hall
  refine ⟨fun hnil => by simp [hnil] at hall, fun c hc => ?_⟩
  simpa using hall.2 c hc

theorem tableKeywords_ok : Keywords tableKeywords := .of_all (by decide)

theorem columnKeywords_ok : Keywords columnKeywords := .of_all (by decide)

theorem constraintKeywords_ok : Keywords constraintKeywords :=
  fun kw h => columnKeywords_ok kw (mem_append_left _ h)

theorem isKeyword_iff : isKeyword keywords w = true ↔ ∃ kw ∈ keywords, w.map Char.toLower = kw.map Char.toLower := by
  simp [isKeyword, eqIgnoreCase]

theorem isKeyword_word (hk : Keywords keywords) (h : isKeyword keywords w = true) :
    w ≠ [] ∧ ∀ c ∈ w, isWhitespace c = false := by
  obtain ⟨kw, hkw, hlower⟩ := isKeyword_iff.1 h
  refine ⟨?_, forall_of_toLower isWhitespace_toLower hlower fun c hc => ((hk kw hkw).2 c hc).2⟩
  rintro rfl
  exact (hk kw hkw).1 (map_eq_nil_iff.1 hlower.symm)

theorem isConstraintWord_iff : isConstraintWord w = true ↔
    isKeyword constraintKeywords (leading w) = true ∧ ∀ c ∈ (w.dropWhile identChar).head?, c = '(' := by
  have hident : ∀ {kw a : List Char}, kw ∈ constraintKeywords → a.map Char.toLower = kw.map Char.toLower →
      ∀ c ∈ a, identChar c = true := fun hkw h =>
    forall_of_toLower identChar_toLower h fun c hc => ((constraintKeywords_ok _ hkw).2 c hc).1
  rw [isKeyword_iff, isConstraintWord, any_eq_true]
  constructor
  · rintro ⟨kw, hkw, h⟩
    rw [Bool.or_eq_true, Bool.and_eq_true, eqIgnoreCase, beq_iff_eq, beq_iff_eq, startsWithIgnoreCase_iff] at h
    rcases h with h | ⟨⟨a, b, rfl, ha⟩, hnext⟩
    · obtain ⟨hlead, hrest⟩ := leading_append (r := []) (hident hkw h) (fun _ hc => nomatch hc)
      rw [append_nil] at hlead hrest
      rw [hlead, hrest]
      exact ⟨⟨kw, hkw, h⟩, fun _ hc => nomatch hc⟩
    · have hlen : a.length = kw.length := by simpa using congrArg List.length ha
      have hhead : b.head? = some '(' := by
        rwa [← hlen, List.getElem?_append_right (Nat.le_refl _), Nat.sub_self, ← List.head?_eq_getElem?] at hnext
      obtain ⟨hlead, hrest⟩ := leading_append (r := b) (hident hkw ha) (by simp [hhead]; decide)
      rw [hlead, hrest]
      exact ⟨⟨kw, hkw, ha⟩, by simp [hhead]⟩
  · rintro ⟨⟨kw, hkw, hlower⟩, hnext⟩
    refine ⟨kw, hkw, ?_⟩
    rw [Bool.or_eq_true, Bool.and_eq_true, eqIgnoreCase, beq_iff_eq, beq_iff_eq, startsWithIgnoreCase_iff]
    have hsplit := leading_append_rest w
    cases hrest : w.dropWhile identChar with
    | nil =>
      rw [hrest, append_nil] at hsplit
      exact .inl (hsplit ▸ hlower)
    | cons c rest =>
      obtain rfl : c = '(' := hnext c (by rw [hrest]; rfl)
      have hlen : (leading w).length = kw.length := by simpa using congrArg List.length hlower
      rw [hrest] at hsplit
      refine .inr ⟨⟨_, _, hsplit.symm, hlower⟩, ?_⟩
      rw [← hsplit, ← hlen, List.getElem?_append_right (Nat.le_refl _), Nat.sub_self, List.getElem?_cons_zero]

/-! ## Tables and their texts -/

/-- The white space of SQL. -/
def isBlank (c : Char) : Bool := [' ', '\t', '\n', '\r', Char.ofNat 12].contains c

def Spaces (s : List Char) : Prop := ∀ c ∈ s, isBlank c = true

/-- A column definition: its name, the words of its type, which may be none, and
its constraints, with white space between them. -/
structure Column where
  lead : List Char
  name : List Char
  typeGap : List Char
  declared : List Char
  constraintGap : List Char
  constraints : List Char
  lead_blank : Spaces lead
  name_ne : name ≠ []
  name_ident : ∀ c ∈ name, identChar c = true
  name_word : isKeyword tableKeywords name = false
  typeGap_blank : Spaces typeGap
  typeGap_ne : declared ≠ [] → typeGap ≠ []
  declared_text : Text unquoted declared
  declared_blank : ∀ c ∈ declared, isWhitespace c = true → isBlank c = true
  declared_words : ∀ w ∈ splitWhitespace declared, isKeyword columnKeywords (leading w) = false
  constraintGap_blank : Spaces constraintGap
  constraintGap_ne : constraints ≠ [] → constraintGap ≠ []
  constraints_text : Text between constraints
  constraints_keyword : constraints ≠ [] → isKeyword columnKeywords (leading constraints) = true

/-- A table constraint, with the white space in front of it. -/
structure TableConstraint where
  lead : List Char
  body : List Char
  lead_blank : Spaces lead
  body_text : Text between body
  keyword : isKeyword tableKeywords (leading body) = true

/-- A `CREATE TABLE` statement; what follows the column list is any text. -/
structure CreateTable where
  head : List Char
  columns : List Column
  constraints : List TableConstraint
  trailer : List Char
  head_text : Text before head
  columns_ne : columns ≠ []

def Column.text (col : Column) : List Char :=
  col.lead ++ (col.name ++ (col.typeGap ++ (col.declared ++ (col.constraintGap ++ col.constraints))))

/-- The words of the declared type, as they are stored. -/
def Column.typeWords (col : Column) : List Char := [' '].intercalate (splitWhitespace col.declared)

def TableConstraint.text (k : TableConstraint) : List Char := k.lead ++ k.body

def CreateTable.items (t : CreateTable) : List (List Char) :=
  t.columns.map Column.text ++ t.constraints.map TableConstraint.text

def CreateTable.print (t : CreateTable) : List Char :=
  t.head ++ '(' :: ([','].intercalate t.items ++ ')' :: t.trailer)

/-- The columns are read back: their names in order, their types, and their
definitions at the same places. -/
def CreateTable.ReadBack (t : CreateTable) : Prop :=
  (parseCreateTable t.print).map (fun p => (p.columns, p.columnTypes)) =
      some (t.columns.map Column.name, t.columns.map Column.typeWords) ∧
    columnDefs t.print = t.columns.map fun col => trim col.text

/-- The column is not taken for a table constraint, and its type ends where its
constraints start. -/
structure Column.Readable (col : Column) : Prop where
  name_word : ∀ c ∈ col.name, isWhitespace c = false
  name_start : ∀ kw ∈ ["UNIQUE".toList, "CHECK".toList, "CONSTRAINT".toList], startsWithIgnoreCase col.name kw = false
  known : col.constraints ≠ [] → isKeyword constraintKeywords (leading col.constraints) = true
  apart : ∀ c ∈ (col.constraints.dropWhile identChar).head?, isWhitespace c = true ∨ c = '('

/-- Every column is readable, and every table constraint starts as the reader
expects it: `PRIMARY KEY` and `FOREIGN KEY` with one blank. -/
structure CreateTable.Readable (t : CreateTable) : Prop where
  columns : ∀ col ∈ t.columns, col.Readable
  constraints : ∀ k ∈ t.constraints, isTableConstraint k.text = true

/-! ## The printed text -/

theorem isBlank_facts (h : isBlank c = true) : isWhitespace c = true ∧ identChar c = false := by
  have hall : ([' ', '\t', '\n', '\r', Char.ofNat 12].all fun c => isWhitespace c && !identChar c) = true := by decide
  have hc := all_eq_true.1 hall c (by simpa only [isBlank, contains_eq_mem, decide_eq_true_eq] using h)
  simpa using hc

theorem Spaces.blank (h : Spaces s) : Blank s := fun c hc => (isBlank_facts (h c hc)).1

/-- A character that is no mark and starts none. -/
def isInert (c : Char) : Bool := isPlain c && c != '-' && c != '/'

theorem isInert_of {p : Char → Bool}
    (hp : (['\'', '"', backquote, '[', '(', ')', ',', '-', '/'].all fun c => !p c) = true) {c : Char} (h : p c = true) :
    isInert c = true := by
  have hne : ∀ d ∈ ['\'', '"', backquote, '[', '(', ')', ',', '-', '/'], c ≠ d := by
    rintro d hd rfl
    have hfalse := all_eq_true.1 hp c hd
    rw [h] at hfalse
    exact Bool.false_ne_true hfalse
  simp only [mem_cons, not_mem_nil, or_false, forall_eq_or_imp, forall_eq] at hne
  simp [isInert, isPlain, hne]

theorem isInert_of_blank (h : isWhitespace c = true) : isInert c = true := isInert_of (by decide) h

theorem isInert_of_ident (h : identChar c = true) : isInert c = true := isInert_of (by decide) h

theorem Text.inert {a : Allowed} (h : ∀ c ∈ s, isInert c = true) : Text a s := by
  induction s with
  | nil => exact .nil
  | cons c s ih =>
    obtain ⟨hc, hs⟩ := forall_mem_cons.1 h
    simp only [isInert, Bool.and_eq_true, bne_iff_ne] at hc
    exact .char hc.1.1 (not_startsComment ⟨hc.1.2, hc.2⟩ s) (ih hs)

theorem Passes.inert_append {a : Allowed} {t : List Char} (hs : ∀ c ∈ s, isInert c = true) (ht : Passes a t) :
    Passes a (s ++ t) := by
  induction s with
  | nil => exact ht
  | cons c s ih =>
    obtain ⟨hc, hs⟩ := forall_mem_cons.1 hs
    simp only [isInert, Bool.and_eq_true, bne_iff_ne] at hc
    exact (ih hs).plain hc.1.1 fun rest _ => not_startsComment ⟨hc.1.2, hc.2⟩ _

variable {gap rest definition kw : List Char}

theorem safe_gap (h : Blank gap) (hne : rest ≠ [] → gap ≠ []) : Safe (gap ++ rest) := by
  intro c hc hmem
  cases gap with
  | nil =>
    cases rest with
    | nil => cases hc
    | cons d rest => exact hne (by simp) rfl
  | cons d gap =>
    obtain rfl : d = c := by simpa using hc
    have hblank := h d mem_cons_self
    revert hmem
    simp only [mem_cons, not_mem_nil, or_false]
    rintro (rfl | rfl | rfl | rfl)
    all_goals exact absurd hblank (by decide)

theorem Column.passes (col : Column) : Passes between col.text := by
  have hdeclared : Passes between col.declared := col.declared_text.passes.mono (fun h => nomatch h) fun _ => rfl
  have hconstraints : Passes between (col.constraintGap ++ col.constraints) :=
    .inert_append (fun c hc => isInert_of_blank (col.constraintGap_blank.blank c hc)) col.constraints_text.passes
  refine .inert_append (fun c hc => isInert_of_blank (col.lead_blank.blank c hc)) ?_
  refine .inert_append (fun c hc => isInert_of_ident (col.name_ident c hc)) ?_
  refine .inert_append (fun c hc => isInert_of_blank (col.typeGap_blank.blank c hc)) ?_
  exact hdeclared.append hconstraints (safe_gap col.constraintGap_blank.blank col.constraintGap_ne)

theorem TableConstraint.passes (k : TableConstraint) : Passes between k.text :=
  .inert_append (fun c hc => isInert_of_blank (k.lead_blank.blank c hc)) k.body_text.passes

theorem CreateTable.items_pass (t : CreateTable) : ∀ s ∈ t.items, Passes between s := by
  intro s hs
  rcases mem_append.1 hs with hs | hs
  · obtain ⟨col, -, rfl⟩ := mem_map.1 hs
    exact col.passes
  · obtain ⟨k, -, rfl⟩ := mem_map.1 hs
    exact k.passes

theorem CreateTable.items_ne (t : CreateTable) : t.items ≠ [] := by
  intro h
  exact t.columns_ne (map_eq_nil_iff.1 (append_eq_nil_iff.1 h).1)

/-- What the reader keeps of the items. -/
def CreateTable.kept (t : CreateTable) : List (List Char) := (t.items.map trim).filter (!isTableConstraint ·)

theorem CreateTable.span (t : CreateTable) :
    columnListSpan t.print = some (t.head.length + 1, t.head.length + 1 + ([','].intercalate t.items).length) :=
  columnListSpan_eq t.head_text.passes (.join t.items_pass) t.trailer

theorem CreateTable.inner (t : CreateTable) :
    (t.print.take (t.head.length + 1 + ([','].intercalate t.items).length)).drop (t.head.length + 1) =
      [','].intercalate t.items := by
  have hprint : t.print = (t.head ++ ['(']) ++ ([','].intercalate t.items ++ ')' :: t.trailer) := by
    simp [CreateTable.print]
  have hlen : t.head.length + 1 = (t.head ++ ['(']).length := by simp
  rw [hprint, hlen, take_length_add_append, drop_left, take_left]

theorem CreateTable.columnDefs_print (t : CreateTable) : columnDefs t.print = t.kept := by
  simp only [columnDefs, allDefs, t.span, Option.map_some, Option.getD_some, t.inner,
    splitFrom_join t.items_ne t.items_pass, CreateTable.kept]

theorem CreateTable.parse_print (t : CreateTable) :
    (parseCreateTable t.print).map (fun p => (p.columns, p.columnTypes)) =
      some (t.kept.map columnName, t.kept.map columnType) := by
  simp only [parseCreateTable, t.span, Option.map_some, t.inner, splitFrom_join t.items_ne t.items_pass,
    CreateTable.kept]

/-! ## The words of a column -/

theorem splitWhitespace_after (h : Blank gap) (hne : rest ≠ [] → gap ≠ []) (s : List Char) :
    splitWhitespace (s ++ (gap ++ rest)) = splitWhitespace s ++ splitWhitespace rest := by
  by_cases hrest : rest = []
  · subst hrest
    rw [append_nil, splitWhitespace_append_blank h]
    exact (append_nil _).symm
  · exact splitWhitespace_gap h (hne hrest) s rest

theorem Column.words (col : Column) (hname : ∀ c ∈ col.name, isWhitespace c = false) :
    splitWhitespace (trim col.text) = col.name :: (splitWhitespace col.declared ++ splitWhitespace col.constraints) := by
  have hword := splitWhitespace_word hname col.name_ne
  rw [splitWhitespace_trim, Column.text, splitWhitespace_blank_append col.lead_blank.blank]
  by_cases hdeclared : col.declared = []
  · have hgap : Blank (col.typeGap ++ col.constraintGap) := fun c hc =>
      (mem_append.1 hc).elim (col.typeGap_blank.blank c) (col.constraintGap_blank.blank c)
    have hne : col.constraints ≠ [] → col.typeGap ++ col.constraintGap ≠ [] := fun h =>
      append_ne_nil_of_right_ne_nil _ (col.constraintGap_ne h)
    rw [hdeclared, nil_append, ← append_assoc col.typeGap, splitWhitespace_after hgap hne, hword]
    rfl
  · rw [splitWhitespace_gap col.typeGap_blank.blank (col.typeGap_ne hdeclared), hword,
      splitWhitespace_after col.constraintGap_blank.blank col.constraintGap_ne]
    rfl

/-- The characters of a name are no quotes. -/
theorem trimMatches_ident (chars : List Char) (hchars : (chars.all fun c => !identChar c) = true) (hne : w ≠ [])
    (hw : ∀ c ∈ w, identChar c = true) (r : List Char) :
    ∃ r' tail, r = r' ++ tail ∧ trimMatches chars (w ++ r) = w ++ r' := by
  refine trimEnds_append hne (fun c hc => ?_) r
  rw [contains_eq_mem, decide_eq_false_iff_not]
  intro hmem
  have hident := all_eq_true.1 hchars c hmem
  rw [hw c hc] at hident
  exact Bool.false_ne_true hident

/-- A first word that starts with an identifier is trimmed behind it only. -/
theorem columnName_eq (hfirst : (splitWhitespace definition).headD [] = w ++ r) (hne : w ≠ [])
    (hw : ∀ c ∈ w, identChar c = true) : ∃ r' tail, r = r' ++ tail ∧ columnName definition = w ++ r' := by
  obtain ⟨r1, tail1, hr1, htrim1⟩ := trimMatches_ident ['"', backquote, '['] (by decide) hne hw r
  obtain ⟨r2, tail2, hr2, htrim2⟩ := trimMatches_ident [']'] (by decide) hne hw r1
  refine ⟨r2, tail2 ++ tail1, by rw [hr1, hr2, append_assoc], ?_⟩
  rw [columnName, hfirst, htrim1, htrim2]

theorem Column.columnName_eq_name (col : Column) (hname : ∀ c ∈ col.name, isWhitespace c = false) :
    columnName (trim col.text) = col.name := by
  have hfirst : (splitWhitespace (trim col.text)).headD [] = col.name ++ [] := by
    rw [col.words hname, headD_cons, append_nil]
  obtain ⟨r', tail, hr, heq⟩ := columnName_eq hfirst col.name_ne col.name_ident
  rw [heq, (append_eq_nil_iff.1 hr.symm).1, append_nil]

/-- What is read as a name has no white space. -/
theorem mem_columnName (h : c ∈ columnName definition) : isWhitespace c = false := by
  have hmem : c ∈ (splitWhitespace definition).headD [] := mem_trimEnds (mem_trimEnds h)
  cases hwords : splitWhitespace definition with
  | nil =>
    rw [hwords] at hmem
    cases hmem
  | cons w words =>
    rw [hwords] at hmem
    exact (mem_splitWhitespace (hwords ▸ mem_cons_self)).2 c hmem

/-! ## The type of a column -/

/-- A text that starts with a keyword has the keyword in its first word. -/
theorem first_word (hk : Keywords keywords) (h : isKeyword keywords (leading s) = true) :
    (splitWhitespace s).headD [] = leading s ++ (s.dropWhile identChar).takeWhile (!isWhitespace ·) := by
  obtain ⟨hne, hword⟩ := isKeyword_word hk h
  have htake : s.takeWhile (!isWhitespace ·) = leading s ++ (s.dropWhile identChar).takeWhile (!isWhitespace ·) := by
    conv_lhs => rw [← leading_append_rest s]
    exact takeWhile_append_of_pos fun c hc => by simp [hword c hc]
  rw [← htake]
  cases s with
  | nil => exact absurd rfl hne
  | cons c s =>
    have hc : c ∈ leading (c :: s) := by
      cases hlead : leading (c :: s) with
      | nil => exact absurd hlead hne
      | cons d w =>
        have hsplit := leading_append_rest (c :: s)
        rw [hlead, cons_append] at hsplit
        rw [(cons_eq_cons.1 hsplit).1]
        exact mem_cons_self
    exact splitWhitespace_head (hword c hc) s

/-- The head of what is left of a text where it is cut at white space. -/
theorem head_takeWhile_iff {q : Char → Prop} :
    (∀ c ∈ (s.takeWhile (!isWhitespace ·)).head?, q c) ↔ ∀ c ∈ s.head?, isWhitespace c = true ∨ q c := by
  cases s with
  | nil => simp
  | cons c s =>
    by_cases hc : isWhitespace c = true
    · simp [hc]
    · simp [hc]

theorem Column.first_constraint (col : Column) (hne : col.constraints ≠ []) :
    isConstraintWord ((splitWhitespace col.constraints).headD []) = true ↔
      isKeyword constraintKeywords (leading col.constraints) = true ∧
        ∀ c ∈ (col.constraints.dropWhile identChar).head?, isWhitespace c = true ∨ c = '(' := by
  have hkeyword := col.constraints_keyword hne
  have hnext : ∀ c ∈ ((col.constraints.dropWhile identChar).takeWhile (!isWhitespace ·)).head?, identChar c = false :=
    head_takeWhile_iff.2 fun c hc => .inr (rest_head c hc)
  obtain ⟨hlead, hrest⟩ := leading_append (fun c => mem_leading (s := col.constraints) (c := c)) hnext
  rw [first_word columnKeywords_ok hkeyword, isConstraintWord_iff, hlead, hrest, head_takeWhile_iff]

theorem Column.declared_stay (col : Column) : ∀ w ∈ splitWhitespace col.declared, (!isConstraintWord w) = true := by
  intro w hw
  rw [Bool.not_eq_true', Bool.eq_false_iff]
  intro hconstraint
  obtain ⟨kw, hkw, hlower⟩ := isKeyword_iff.1 (isConstraintWord_iff.1 hconstraint).1
  have hkeyword : isKeyword columnKeywords (leading w) = true :=
    isKeyword_iff.2 ⟨kw, mem_append_left _ hkw, hlower⟩
  exact Bool.false_ne_true ((col.declared_words w hw).symm.trans hkeyword)

theorem Column.columnType_eq (col : Column) (hname : ∀ c ∈ col.name, isWhitespace c = false) :
    columnType (trim col.text) = [' '].intercalate (splitWhitespace col.declared ++
      (splitWhitespace col.constraints).takeWhile fun word => !isConstraintWord word) := by
  rw [columnType, col.words hname, drop_one, tail_cons, takeWhile_append_of_pos col.declared_stay]

theorem length_intercalate_append (words : List (List Char)) {more : List (List Char)} (hne : more ≠ []) (hmore : ∀ w ∈ more, w ≠ []) :
    ([' '].intercalate words).length < ([' '].intercalate (words ++ more)).length := by
  induction words with
  | nil =>
    cases more with
    | nil => exact absurd rfl hne
    | cons w more =>
      have hw := length_pos_of_ne_nil (hmore w mem_cons_self)
      cases more with
      | nil => simpa using hw
      | cons v more =>
        rw [nil_append, intercalate_cons_cons, length_append, length_append]
        exact Nat.add_pos_left (Nat.add_pos_left hw _) _
  | cons w words ih =>
    cases words with
    | nil =>
      cases more with
      | nil => exact absurd rfl hne
      | cons v more =>
        rw [singleton_append, intercalate_cons_cons]
        simp
    | cons v words =>
      rw [cons_append, cons_append, intercalate_cons_cons, intercalate_cons_cons]
      simpa using ih

/-- The type is read back if it ends where the constraints start. -/
theorem Column.columnType_iff (col : Column) (hname : ∀ c ∈ col.name, isWhitespace c = false) :
    columnType (trim col.text) = col.typeWords ↔
      (col.constraints ≠ [] → isKeyword constraintKeywords (leading col.constraints) = true) ∧
        ∀ c ∈ (col.constraints.dropWhile identChar).head?, isWhitespace c = true ∨ c = '(' := by
  rw [col.columnType_eq hname, Column.typeWords]
  by_cases hne : col.constraints = []
  · simp [hne, splitWhitespace, wordsFrom]
  · have hfirst := col.first_constraint hne
    obtain ⟨w, words, hwords⟩ : ∃ w words, splitWhitespace col.constraints = w :: words := by
      cases hwords : splitWhitespace col.constraints with
      | cons w words => exact ⟨w, words, rfl⟩
      | nil =>
        have hword := first_word columnKeywords_ok (col.constraints_keyword hne)
        rw [hwords, headD_nil] at hword
        exact absurd (append_eq_nil_iff.1 hword.symm).1
          (isKeyword_word columnKeywords_ok (col.constraints_keyword hne)).1
    rw [hwords, headD_cons] at hfirst
    rw [hwords, imp_iff_right hne, ← hfirst]
    constructor
    · intro heq
      by_contra hw
      have htake : (w :: words).takeWhile (fun word => !isConstraintWord word) ≠ [] := by simp [hw]
      have hlt := length_intercalate_append (splitWhitespace col.declared) htake fun v hv =>
        (mem_splitWhitespace (hwords ▸ takeWhile_subset _ hv)).1
      rw [heq] at hlt
      exact Nat.lt_irrefl _ hlt
    · intro hw
      rw [takeWhile_cons_of_neg (by simp [hw]), append_nil]

/-! ## Columns and constraints told apart -/

theorem isTableConstraint_trim (s : List Char) : isTableConstraint (trim s) = isTableConstraint s := by
  rw [isTableConstraint, trim, trim, trimEnds_trimEnds, isTableConstraint, trim]

/-- A keyword that a name starts a text with is in the name. -/
theorem startsWithIgnoreCase_append (hw : ∀ c ∈ w, identChar c = true) (hr : ∀ c ∈ r.head?, identChar c = false)
    (hkw : ∀ c ∈ kw, identChar c = true) : startsWithIgnoreCase (w ++ r) kw = startsWithIgnoreCase w kw := by
  rw [Bool.eq_iff_iff, startsWithIgnoreCase_iff, startsWithIgnoreCase_iff]
  constructor
  · rintro ⟨a, b, heq, hlower⟩
    have ha := forall_of_toLower identChar_toLower hlower hkw
    have hlead : w = a ++ leading b := by
      have := congrArg leading heq
      rw [(leading_append hw hr).1] at this
      rw [this]
      exact takeWhile_append_of_pos ha
    exact ⟨a, leading b, hlead, hlower⟩
  · rintro ⟨a, b, rfl, hlower⟩
    exact ⟨a, b ++ r, append_assoc a b r, hlower⟩

/-- A keyword and a blank at the start of a text are its first word. -/
theorem startsWithIgnoreCase_blank {more : List Char} (hw : ∀ c ∈ w, identChar c = true)
    (hr : ∀ c ∈ r.head?, identChar c = false) (hkw : ∀ c ∈ kw, identChar c = true)
    (h : startsWithIgnoreCase (w ++ r) (kw ++ ' ' :: more) = true) : w.map Char.toLower = kw.map Char.toLower := by
  obtain ⟨a, b, heq, hlower⟩ := startsWithIgnoreCase_iff.1 h
  rw [map_append, map_eq_append_iff] at hlower
  obtain ⟨a1, a2, rfl, hfirst, hsecond⟩ := hlower
  have hblank : ∀ c ∈ (a2 ++ b).head?, identChar c = false := by
    cases a2 with
    | nil => cases hsecond
    | cons d a2 =>
      intro c hc
      obtain rfl : d = c := by simpa using hc
      rw [← identChar_toLower, (cons_eq_cons.1 hsecond).1]
      decide
  have hlead := (leading_append (forall_of_toLower identChar_toLower hfirst hkw) hblank).1
  rw [← append_assoc, ← heq, (leading_append hw hr).1] at hlead
  rw [hlead, hfirst]

/-- The text of a column starts with its name, and what follows the name is not
part of it. -/
theorem Column.trim_text (col : Column) (hname : ∀ c ∈ col.name, isWhitespace c = false) :
    ∃ r, trim col.text = col.name ++ r ∧ ∀ c ∈ r.head?, identChar c = false := by
  have hrest : ∀ c ∈ (col.typeGap ++ (col.declared ++ (col.constraintGap ++ col.constraints))).head?,
      identChar c = false := by
    intro c hc
    cases hgap : col.typeGap with
    | cons d gap =>
      obtain rfl : d = c := by simpa [hgap] using hc
      exact (isBlank_facts (col.typeGap_blank d (hgap ▸ mem_cons_self))).2
    | nil =>
      have hdeclared : col.declared = [] := by_contra fun h => col.typeGap_ne h hgap
      cases hgap' : col.constraintGap with
      | cons d gap =>
        obtain rfl : d = c := by simpa [hgap, hdeclared, hgap'] using hc
        exact (isBlank_facts (col.constraintGap_blank d (hgap' ▸ mem_cons_self))).2
      | nil =>
        have hconstraints : col.constraints = [] := by_contra fun h => col.constraintGap_ne h hgap'
        simp [hgap, hdeclared, hgap', hconstraints] at hc
  obtain ⟨r, tail, hr, htrim⟩ := trimEnds_append col.name_ne hname
    (col.typeGap ++ (col.declared ++ (col.constraintGap ++ col.constraints)))
  refine ⟨r, ?_, fun c hc => hrest c ?_⟩
  · rw [trim, Column.text, trimEnds_lead col.lead_blank.blank, htrim]
  · rw [hr]
    cases r with
    | nil => cases hc
    | cons d r => exact hc

/-- A column is taken for a table constraint by the start of its name. -/
theorem Column.isTableConstraint_iff (col : Column) (hname : ∀ c ∈ col.name, isWhitespace c = false) :
    isTableConstraint (trim col.text) = false ↔
      ∀ kw ∈ ["UNIQUE".toList, "CHECK".toList, "CONSTRAINT".toList], startsWithIgnoreCase col.name kw = false := by
  obtain ⟨r, htrim, hr⟩ := col.trim_text hname
  have hone : ∀ kw : List Char, kw.all identChar = true →
      startsWithIgnoreCase (col.name ++ r) kw = startsWithIgnoreCase col.name kw := fun kw hkw =>
    startsWithIgnoreCase_append col.name_ident hr (all_eq_true.1 hkw)
  have htwo : ∀ kw ∈ tableKeywords, startsWithIgnoreCase (col.name ++ r) (kw ++ ' ' :: "KEY".toList) = false := by
    intro kw hkw
    rw [Bool.eq_false_iff]
    intro hstart
    have hlower := startsWithIgnoreCase_blank col.name_ident hr (fun c hc => ((tableKeywords_ok kw hkw).2 c hc).1) hstart
    exact Bool.false_ne_true (col.name_word.symm.trans (isKeyword_iff.2 ⟨kw, hkw, hlower⟩))
  have hprimary : startsWithIgnoreCase (col.name ++ r) "PRIMARY KEY".toList = false := htwo "PRIMARY".toList (by decide)
  have hforeign : startsWithIgnoreCase (col.name ++ r) "FOREIGN KEY".toList = false := htwo "FOREIGN".toList (by decide)
  have htrimmed : trim (trim col.text) = col.name ++ r := by
    rw [trim, trim, trimEnds_trimEnds, ← trim, htrim]
  simp only [isTableConstraint, htrimmed, hprimary, hforeign, hone "UNIQUE".toList (by decide),
    hone "CHECK".toList (by decide), hone "CONSTRAINT".toList (by decide)]
  simp only [Bool.false_or, Bool.or_false, Bool.or_eq_false_iff, mem_cons, not_mem_nil, or_false,
    forall_eq_or_imp, forall_eq, and_assoc]

/-- What is read as the name of a table constraint is no name of a column. -/
theorem TableConstraint.columnName_ne (k : TableConstraint) (col : Column) :
    columnName (trim k.text) ≠ col.name := by
  intro heq
  have hfirst : (splitWhitespace (trim k.text)).headD [] =
      leading k.body ++ (k.body.dropWhile identChar).takeWhile (!isWhitespace ·) := by
    rw [splitWhitespace_trim, TableConstraint.text, splitWhitespace_blank_append k.lead_blank.blank,
      first_word tableKeywords_ok k.keyword]
  obtain ⟨r, tail, hr, hname⟩ := columnName_eq hfirst (isKeyword_word tableKeywords_ok k.keyword).1 fun c => mem_leading
  have hnext : ∀ c ∈ r.head?, identChar c = false := by
    intro c hc
    cases r with
    | nil => cases hc
    | cons d r =>
      have hhead : ∀ c ∈ ((k.body.dropWhile identChar).takeWhile (!isWhitespace ·)).head?, identChar c = false :=
        head_takeWhile_iff.2 fun c hc => .inr (rest_head c hc)
      exact hhead c (hr ▸ hc)
  -- The name is an identifier, so it is the keyword alone.
  have hlead := (leading_append (fun c => mem_leading (s := k.body) (c := c)) hnext).1
  have hident := (leading_append (r := []) col.name_ident fun _ hc => nomatch hc).1
  rw [append_nil, ← heq, hname, hlead] at hident
  rw [hname, ← hident] at heq
  exact Bool.false_ne_true (col.name_word.symm.trans (heq ▸ k.keyword))

/-! ## Tables read back -/

/-- What is kept are the columns, if none is taken for a constraint, and the
constraints that are not known. -/
theorem CreateTable.kept_eq (t : CreateTable) :
    t.kept = (t.columns.map fun col => trim col.text).filter (!isTableConstraint ·) ++
      (t.constraints.map fun k => trim k.text).filter (!isTableConstraint ·) := by
  simp [CreateTable.kept, CreateTable.items, Function.comp_def]

theorem CreateTable.Readable.kept (h : t.Readable) : t.kept = t.columns.map fun col => trim col.text := by
  have hcolumns : (t.columns.map fun col => trim col.text).filter (!isTableConstraint ·) =
      t.columns.map fun col => trim col.text := by
    rw [filter_eq_self]
    intro s hs
    obtain ⟨col, hcol, rfl⟩ := mem_map.1 hs
    have hreadable := h.columns col hcol
    rw [(col.isTableConstraint_iff hreadable.name_word).2 hreadable.name_start]
    rfl
  have hconstraints : (t.constraints.map fun k => trim k.text).filter (!isTableConstraint ·) = [] := by
    rw [filter_eq_nil_iff]
    intro s hs
    obtain ⟨k, hk, rfl⟩ := mem_map.1 hs
    rw [isTableConstraint_trim, h.constraints k hk]
    decide
  rw [t.kept_eq, hcolumns, hconstraints, append_nil]

theorem CreateTable.Readable.readBack (h : t.Readable) : t.ReadBack := by
  refine ⟨?_, by rw [t.columnDefs_print, h.kept]⟩
  have hnames : t.kept.map columnName = t.columns.map Column.name := by
    rw [h.kept, map_map, map_inj_left]
    intro col hcol
    exact col.columnName_eq_name (h.columns col hcol).name_word
  have htypes : t.kept.map columnType = t.columns.map Column.typeWords := by
    rw [h.kept, map_map, map_inj_left]
    intro col hcol
    have hreadable := h.columns col hcol
    exact (col.columnType_iff hreadable.name_word).2 ⟨hreadable.known, hreadable.apart⟩
  rw [t.parse_print, hnames, htypes]

theorem CreateTable.ReadBack.readable (h : t.ReadBack) : t.Readable := by
  have hparse := h.1
  rw [t.parse_print, Option.some.injEq, Prod.mk.injEq] at hparse
  obtain ⟨hnames, htypes⟩ := hparse
  -- No constraint is kept: its name would be one of the columns' names.
  have hconstraints : (t.constraints.map fun k => trim k.text).filter (!isTableConstraint ·) = [] := by
    rw [eq_nil_iff_forall_not_mem]
    intro s hs
    have hname : columnName s ∈ t.columns.map Column.name := by
      rw [← hnames, t.kept_eq]
      exact mem_map_of_mem (mem_append_right _ hs)
    obtain ⟨k, -, rfl⟩ := mem_map.1 (mem_of_mem_filter hs)
    obtain ⟨col, -, heq⟩ := mem_map.1 hname
    exact k.columnName_ne col heq.symm
  -- So every column is.
  have hkept : t.kept = (t.columns.map fun col => trim col.text).filter (!isTableConstraint ·) := by
    rw [t.kept_eq, hconstraints, append_nil]
  have hall : ∀ s ∈ t.columns.map (fun col => trim col.text), (!isTableConstraint s) = true := by
    rw [← length_filter_eq_length_iff, ← hkept]
    have hlen := congrArg List.length hnames
    simpa only [length_map] using hlen
  rw [hkept, filter_eq_self.2 hall, map_map, map_inj_left] at hnames htypes
  constructor
  · intro col hcol
    have hname : ∀ c ∈ col.name, isWhitespace c = false := by
      intro c hc
      rw [← hnames col hcol] at hc
      exact mem_columnName hc
    have hcolumn := hall _ (mem_map_of_mem hcol)
    rw [Bool.not_eq_true', col.isTableConstraint_iff hname] at hcolumn
    obtain ⟨hknown, hapart⟩ := (col.columnType_iff hname).1 (htypes col hcol)
    exact ⟨hname, hcolumn, hknown, hapart⟩
  · intro k hk
    have hk' := filter_eq_nil_iff.1 hconstraints _ (mem_map_of_mem hk)
    rwa [Bool.not_eq_true', Bool.not_eq_false, isTableConstraint_trim] at hk'

/-- The columns of a printed table are read back exactly where the table is
readable. -/
theorem createTable_readBack_iff (t : CreateTable) : t.ReadBack ↔ t.Readable :=
  ⟨CreateTable.ReadBack.readable, CreateTable.Readable.readBack⟩

/-- A column of type `INTEGER` and no constraints. -/
def integerColumn (name : List Char) (hne : name ≠ []) (hident : name.all identChar = true)
    (hword : isKeyword tableKeywords name = false) : Column where
  lead := []
  name := name
  typeGap := [' ']
  declared := "INTEGER".toList
  constraintGap := []
  constraints := []
  lead_blank := fun _ h => nomatch h
  name_ne := hne
  name_ident := all_eq_true.1 hident
  name_word := hword
  typeGap_blank := all_eq_true.1 (by decide)
  typeGap_ne := by decide
  declared_text := .inert (all_eq_true.1 (by decide))
  declared_blank := fun c hc hspace => by
    have hword := all_eq_true.1 (by decide : ("INTEGER".toList.all fun c => !isWhitespace c) = true) c hc
    rw [hspace] at hword
    exact absurd hword Bool.false_ne_true
  declared_words := by decide
  constraintGap_blank := fun _ h => nomatch h
  constraintGap_ne := fun h => absurd rfl h
  constraints_text := .nil
  constraints_keyword := fun h => absurd rfl h

/-- The table `CREATE TABLE t(id INTEGER,checked INTEGER)`. -/
def checkedTable : CreateTable where
  head := "CREATE TABLE t".toList
  columns := [integerColumn "id".toList (by decide) (by decide) (by decide),
    integerColumn "checked".toList (by decide) (by decide) (by decide)]
  constraints := []
  trailer := []
  head_text := .inert (all_eq_true.1 (by decide))
  columns_ne := cons_ne_nil _ _

/-- The column `checked` is taken for a `CHECK` constraint: the table has one
column for the reader. -/
theorem checked_column_dropped :
    checkedTable.print = "CREATE TABLE t(id INTEGER,checked INTEGER)".toList ∧
      (parseCreateTable checkedTable.print).map (·.columns) = some ["id".toList] ∧ ¬checkedTable.ReadBack := by
  refine ⟨by decide, by decide +kernel, fun h => ?_⟩
  have hnames := congrArg (Option.map Prod.fst) h.1
  revert hnames
  decide +kernel

end DbStorage.Schema
