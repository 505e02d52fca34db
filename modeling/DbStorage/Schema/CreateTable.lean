import DbStorage.Schema.DdlReader

/-!
# The columns of a table (`schema/ddl_reader.rs`)

`parse_create_table` finds the column list of a `CREATE TABLE` text, splits it
at its top-level commas, drops the table constraints and takes the names and
declared types of what is left.
-/
namespace DbStorage.Schema
open List

/-! ## Characters and words -/

/-- A text without the characters at both its ends that `p` holds of. -/
def trimEnds (p : Char → Bool) (s : List Char) : List Char := ((s.dropWhile p).reverse.dropWhile p).reverse

/-- mirrors `str::trim` -/
def trim (s : List Char) : List Char := trimEnds isWhitespace s

/-- The words of a text; `word` is what was read of the first one. -/
def wordsFrom : List Char → List Char → List (List Char)
  | word, [] => if word = [] then [] else [word]
  | word, c :: rest =>
    if isWhitespace c then if word = [] then wordsFrom [] rest else word :: wordsFrom [] rest
    else wordsFrom (word ++ [c]) rest

/-- mirrors `str::split_whitespace` -/
def splitWhitespace (s : List Char) : List (List Char) := wordsFrom [] s

/-- mirrors `str::eq_ignore_ascii_case` -/
def eqIgnoreCase (s t : List Char) : Bool := s.map Char.toLower == t.map Char.toLower

/-- mirrors `str::trim_matches` with a set of characters -/
def trimMatches (chars s : List Char) : List Char := trimEnds (fun c => chars.contains c) s

/-- mirrors ddl_reader.rs:280-290; no needle of its callers is
empty. -/
def findIgnoreCase : List Char → List Char → Option Nat
  | [], needle => if needle = [] then some 0 else none
  | c :: rest, needle =>
    if startsWithIgnoreCase (c :: rest) needle then some 0 else (findIgnoreCase rest needle).map (· + 1)

/-- mirrors `str::contains` -/
def containsText (s t : List Char) : Bool := s.tails.any (t.isPrefixOf ·)

/-! ## The column list -/

/-- The parts of a masked text with its characters; `part` is what was read of
the first one.
mirrors ddl_reader.rs:535-550 -/
def splitFrom : List (Char × Char) → Int → List Char → List (List Char)
  | [], _, part => [trim part]
  | (m, c) :: rest, depth, part =>
    if m = '(' then splitFrom rest (depth + 1) (part ++ [c])
    else if m = ')' then splitFrom rest (depth - 1) (part ++ [c])
    else if m = ',' ∧ depth = 0 then trim part :: splitFrom rest depth []
    else splitFrom rest depth (part ++ [c])

/-- mirrors ddl_reader.rs:533-551 -/
def splitTopLevelCommas (inner : List Char) : List (List Char) :=
  splitFrom ((maskChars .code inner).zip inner) 0 []

/-! ## Columns -/

/-- mirrors ddl_reader.rs:405-412 -/
def isTableConstraint (definition : List Char) : Bool :=
  let trimmed := trim definition
  startsWithIgnoreCase trimmed "PRIMARY KEY".toList || startsWithIgnoreCase trimmed "UNIQUE".toList ||
    startsWithIgnoreCase trimmed "FOREIGN KEY".toList || startsWithIgnoreCase trimmed "CHECK".toList ||
    startsWithIgnoreCase trimmed "CONSTRAINT".toList

/-- The quotes of a name are taken off.
mirrors ddl_reader.rs:553-560 -/
def columnName (definition : List Char) : List Char :=
  trimMatches [']'] (trimMatches ['"', backquote, '['] ((splitWhitespace definition).headD []))

def constraintKeywords : List (List Char) :=
  ["PRIMARY".toList, "NOT".toList, "NULL".toList, "UNIQUE".toList, "CHECK".toList, "DEFAULT".toList, "COLLATE".toList,
    "REFERENCES".toList]

/-- Whether a word ends the declared type. -/
def isConstraintWord (word : List Char) : Bool :=
  constraintKeywords.any fun kw =>
    eqIgnoreCase word kw || startsWithIgnoreCase word kw && word[kw.length]? == some '('

/-- mirrors ddl_reader.rs:567-589 -/
def columnType (definition : List Char) : List Char :=
  [' '].intercalate (((splitWhitespace definition).drop 1).takeWhile fun word => !isConstraintWord word)

inductive Collation where
  | binary
  | noCase
  | rTrim
  deriving DecidableEq

/-- mirrors ddl_reader.rs:331-352 -/
def columnCollation (definition : List Char) : Collation :=
  match findIgnoreCase definition "COLLATE".toList with
  | none => .binary
  | some pos =>
    let rest := (definition.drop (pos + "COLLATE".toList.length)).dropWhile isWhitespace
    let name := trimMatches [']'] (trimMatches ['"', backquote, '['] ((splitWhitespace rest).headD []))
    if eqIgnoreCase name "NOCASE".toList then .noCase
    else if eqIgnoreCase name "RTRIM".toList then .rTrim
    else .binary

/-- mirrors ddl_reader.rs:366-372 -/
structure ParsedCreateTable where
  columns : List (List Char)
  columnTypes : List (List Char)
  columnCollations : List Collation
  withoutRowid : Bool
  strict : Bool
  deriving DecidableEq

/-- The definitions of the column list, table constraints among them.
mirrors ddl_reader.rs:609-617 -/
def allDefs (sql : List Char) : Option (List (List Char)) :=
  (columnListSpan sql).map fun (start, stop) => splitTopLevelCommas ((sql.take stop).drop start)

/-- mirrors ddl_reader.rs:598-603 -/
def columnDefs (sql : List Char) : List (List Char) := ((allDefs sql).getD []).filter (!isTableConstraint ·)

/-- mirrors ddl_reader.rs:378-398 -/
def parseCreateTable (sql : List Char) : Option ParsedCreateTable :=
  match columnListSpan sql with
  | none => none
  | some (start, stop) =>
    let inner := (sql.take stop).drop start
    let trailer := (sql.drop (stop + 1)).map Char.toUpper
    let defs := (splitTopLevelCommas inner).filter (!isTableConstraint ·)
    some {
      columns := defs.map columnName
      columnTypes := defs.map columnType
      columnCollations := defs.map columnCollation
      withoutRowid := containsText trailer "WITHOUT ROWID".toList
      strict := containsText trailer "STRICT".toList }

/-! ## Words -/

def Blank (s : List Char) : Prop := ∀ c ∈ s, isWhitespace c = true

variable {c quote : Char} {s gap w rest : List Char} {p : Char → Bool} {a : Allowed} {ps : List (Char × Char)}

theorem wordsFrom_append (hc : isWhitespace c = true) (word s rest : List Char) :
    wordsFrom word (s ++ c :: rest) = wordsFrom word s ++ splitWhitespace rest := by
  induction s generalizing word with
  | nil =>
    simp only [nil_append, wordsFrom, hc, if_true]
    split
    · rfl
    · rfl
  | cons d s ih =>
    simp only [cons_append, wordsFrom]
    split
    · split
      · exact ih []
      · rw [ih [], cons_append]
    · exact ih _

theorem splitWhitespace_append (hc : isWhitespace c = true) (s rest : List Char) :
    splitWhitespace (s ++ c :: rest) = splitWhitespace s ++ splitWhitespace rest := wordsFrom_append hc [] s rest

theorem splitWhitespace_blank (h : Blank s) : splitWhitespace s = [] := by
  induction s with
  | nil => rfl
  | cons c s ih =>
    obtain ⟨hc, hs⟩ := forall_mem_cons.1 h
    exact (splitWhitespace_append hc [] s).trans (ih hs)

theorem splitWhitespace_append_blank (h : Blank gap) (s : List Char) :
    splitWhitespace (s ++ gap) = splitWhitespace s := by
  cases gap with
  | nil => rw [append_nil]
  | cons c gap =>
    obtain ⟨hc, hgap⟩ := forall_mem_cons.1 h
    rw [splitWhitespace_append hc, splitWhitespace_blank hgap, append_nil]

theorem splitWhitespace_blank_append (h : Blank gap) (s : List Char) :
    splitWhitespace (gap ++ s) = splitWhitespace s := by
  induction gap with
  | nil => rfl
  | cons c gap ih =>
    obtain ⟨hc, hgap⟩ := forall_mem_cons.1 h
    exact (splitWhitespace_append hc [] (gap ++ s)).trans (ih hgap)

/-- A gap separates the words before it from those behind it. -/
theorem splitWhitespace_gap (h : Blank gap) (hne : gap ≠ []) (s rest : List Char) :
    splitWhitespace (s ++ (gap ++ rest)) = splitWhitespace s ++ splitWhitespace rest := by
  cases gap with
  | nil => exact absurd rfl hne
  | cons c gap =>
    obtain ⟨hc, hgap⟩ := forall_mem_cons.1 h
    rw [cons_append, splitWhitespace_append hc, splitWhitespace_blank_append hgap]

theorem wordsFrom_word (h : ∀ c ∈ w, isWhitespace c = false) (word rest : List Char) :
    wordsFrom word (w ++ rest) = wordsFrom (word ++ w) rest := by
  induction w generalizing word with
  | nil => rw [nil_append, append_nil]
  | cons c w ih =>
    obtain ⟨hc, hw⟩ := forall_mem_cons.1 h
    simp only [cons_append, wordsFrom, hc, Bool.false_eq_true, if_false]
    rw [ih hw, append_assoc]
    rfl

theorem splitWhitespace_word (h : ∀ c ∈ w, isWhitespace c = false) (hne : w ≠ []) : splitWhitespace w = [w] := by
  have := wordsFrom_word h [] []
  rw [append_nil, nil_append] at this
  rw [splitWhitespace, this, wordsFrom, if_neg hne]

/-- A text that starts with a word of its own has the rest of that word first. -/
theorem splitWhitespace_head (hc : isWhitespace c = false) (s : List Char) :
    (splitWhitespace (c :: s)).headD [] = (c :: s).takeWhile (!isWhitespace ·) := by
  have hword : ∀ d ∈ (c :: s).takeWhile (!isWhitespace ·), isWhitespace d = false := fun d hd => by
    simpa using mem_takeWhile_imp hd
  have hne : (c :: s).takeWhile (!isWhitespace ·) ≠ [] := by simp [hc]
  conv_lhs => rw [← takeWhile_append_dropWhile (p := (!isWhitespace ·)) (l := c :: s)]
  rw [splitWhitespace, wordsFrom_word hword, nil_append]
  cases hrest : (c :: s).dropWhile (!isWhitespace ·) with
  | nil => rw [wordsFrom, if_neg hne, headD_cons]
  | cons d rest =>
    have hd : isWhitespace d = true := by
      have := head_dropWhile_not (!isWhitespace ·) (l := c :: s) (by simp [hrest])
      simpa [hrest] using this
    rw [wordsFrom, if_pos hd, if_neg hne, headD_cons]

theorem wordsFrom_mem {word : List Char} (hword : ∀ c ∈ word, isWhitespace c = false) (h : w ∈ wordsFrom word s) :
    w ≠ [] ∧ ∀ c ∈ w, isWhitespace c = false := by
  induction s generalizing word with
  | nil =>
    rw [wordsFrom] at h
    split at h
    · cases h
    · rename_i hne
      rw [mem_singleton.1 h]
      exact ⟨hne, hword⟩
  | cons c s ih =>
    have hnil : ∀ c ∈ ([] : List Char), isWhitespace c = false := fun _ hc => by cases hc
    rw [wordsFrom] at h
    split at h
    · split at h
      · exact ih hnil h
      · rename_i hne
        rcases mem_cons.1 h with rfl | h
        · exact ⟨hne, hword⟩
        · exact ih hnil h
    · rename_i hc
      refine ih (fun d hd => ?_) h
      rcases mem_append.1 hd with hd | hd
      · exact hword d hd
      · rw [mem_singleton.1 hd]
        exact Bool.eq_false_iff.2 hc

theorem mem_splitWhitespace (h : w ∈ splitWhitespace s) :
    w ≠ [] ∧ ∀ c ∈ w, isWhitespace c = false := wordsFrom_mem (fun _ hc => by cases hc) h

/-! ## Trimmed texts -/

theorem trimEnds_spec (p : Char → Bool) (s : List Char) :
    ∃ lead tail, (∀ c ∈ lead, p c = true) ∧ (∀ c ∈ tail, p c = true) ∧ s = lead ++ (trimEnds p s ++ tail) := by
  refine ⟨s.takeWhile p, ((s.dropWhile p).reverse.takeWhile p).reverse, fun c hc => mem_takeWhile_imp hc,
    fun c hc => mem_takeWhile_imp (mem_reverse.1 hc), ?_⟩
  rw [trimEnds, ← reverse_append, takeWhile_append_dropWhile, reverse_reverse,
    takeWhile_append_dropWhile]

theorem splitWhitespace_trim (s : List Char) : splitWhitespace (trim s) = splitWhitespace s := by
  obtain ⟨lead, tail, hlead, htail, hs⟩ := trimEnds_spec isWhitespace s
  conv_rhs => rw [hs]
  rw [splitWhitespace_blank_append hlead, splitWhitespace_append_blank htail, trim]

theorem trimEnds_lead {lead : List Char} (h : ∀ c ∈ lead, p c = true) (s : List Char) :
    trimEnds p (lead ++ s) = trimEnds p s := by
  rw [trimEnds, dropWhile_append_of_pos h, trimEnds]

/-- Where the text starts with characters that stay, only its end is trimmed. -/
theorem trimEnds_append (hne : w ≠ []) (hw : ∀ c ∈ w, p c = false) (r : List Char) :
    ∃ r' tail, r = r' ++ tail ∧ trimEnds p (w ++ r) = w ++ r' := by
  cases w with
  | nil => exact absurd rfl hne
  | cons c w =>
    have hdrop : (c :: w ++ r).dropWhile p = c :: w ++ r :=
      dropWhile_cons_of_neg (by simp [hw c mem_cons_self])
    refine ⟨(r.reverse.dropWhile p).reverse, (r.reverse.takeWhile p).reverse, ?_, ?_⟩
    · rw [← reverse_append, takeWhile_append_dropWhile, reverse_reverse]
    · rw [trimEnds, hdrop, reverse_append, dropWhile_append]
      split
      · rename_i hr
        have hlast : (c :: w).reverse.dropWhile p = (c :: w).reverse := by
          rw [dropWhile_eq_self_iff]
          intro hl
          exact Bool.eq_false_iff.1 (hw _ (mem_reverse.1 (getElem_mem hl)))
        rw [hlast, reverse_reverse, isEmpty_iff.1 hr, reverse_nil, append_nil]
      · rw [reverse_append, reverse_reverse]

theorem trimEnds_trimEnds (p : Char → Bool) (s : List Char) : trimEnds p (trimEnds p s) = trimEnds p s := by
  have hdrop : (trimEnds p s).dropWhile p = trimEnds p s := by
    cases htrim : trimEnds p s with
    | nil => rfl
    | cons c w =>
      -- The first character that is left is the first one of `s` that `p` does not hold of.
      obtain ⟨tail, hsplit⟩ : ∃ tail, s.dropWhile p = trimEnds p s ++ tail := by
        refine ⟨((s.dropWhile p).reverse.takeWhile p).reverse, ?_⟩
        rw [trimEnds, ← reverse_append, takeWhile_append_dropWhile, reverse_reverse]
      rw [htrim, cons_append] at hsplit
      have hhead := head_dropWhile_not p (l := s) (by simp [hsplit])
      simp only [hsplit, head_cons] at hhead
      exact dropWhile_cons_of_neg (by simp [hhead])
  rw [trimEnds, hdrop, trimEnds, reverse_reverse, dropWhile_idempotent]

theorem mem_trimEnds (h : c ∈ trimEnds p s) : c ∈ s := by
  obtain ⟨lead, tail, -, -, hs⟩ := trimEnds_spec p s
  rw [hs]
  simp [h]

/-! ## Texts with parentheses, quotes and comments -/

/-- What a text may have outside its own parentheses, quotes and comments. -/
structure Allowed where
  commas : Bool
  parens : Bool
  quoted : Bool

def isPlain (c : Char) : Bool := !(['\'', '"', backquote, '[', '(', ')', ','].contains c)

def StartsComment (c : Char) (rest : List Char) : Prop :=
  c = '-' ∧ rest.head? = some '-' ∨ c = '/' ∧ rest.head? = some '*'

/-- What stands between two quotes. -/
inductive Literal (quote : Char) : List Char → Prop where
  | nil : Literal quote []
  | char {c : Char} {s : List Char} (hc : c ≠ quote) (h : Literal quote s) : Literal quote (c :: s)
  | double {s : List Char} (h : Literal quote s) : Literal quote (quote :: quote :: s)

/-- A text whose parentheses are balanced and whose quotes and comments end. -/
inductive Text : Allowed → List Char → Prop where
  | nil {a : Allowed} : Text a []
  | char {a : Allowed} {c : Char} {rest : List Char} (hc : isPlain c = true) (hn : ¬StartsComment c rest)
      (h : Text a rest) : Text a (c :: rest)
  | comma {a : Allowed} {rest : List Char} (ha : a.commas = true) (h : Text a rest) : Text a (',' :: rest)
  | parens {a : Allowed} {s rest : List Char} (ha : a.parens = true) (hs : Text { a with commas := true } s)
      (h : Text a rest) : Text a ('(' :: (s ++ ')' :: rest))
  | literal {a : Allowed} {quote : Char} {s rest : List Char} (ha : a.quoted = true)
      (hq : quote = '\'' ∨ quote = '"') (hs : Literal quote s) (hn : rest.head? ≠ some quote) (h : Text a rest) :
      Text a (quote :: (s ++ quote :: rest))
  | bracketed {a : Allowed} {opening close : Char} {s rest : List Char} (ha : a.quoted = true)
      (hq : opening = backquote ∧ close = backquote ∨ opening = '[' ∧ close = ']') (hs : close ∉ s) (h : Text a rest) :
      Text a (opening :: (s ++ close :: rest))
  | lineComment {a : Allowed} {s rest : List Char} (ha : a.quoted = true) (hs : '\n' ∉ s) (h : Text a rest) :
      Text a ('-' :: '-' :: (s ++ '\n' :: rest))
  | blockComment {a : Allowed} {s rest : List Char} (ha : a.quoted = true) (hs : ¬['*', '/'] <:+: s)
      (h : Text a rest) : Text a ('/' :: '*' :: (s ++ '*' :: '/' :: rest))

/-- A masked text beside the text itself. -/
inductive Masked : Allowed → List (Char × Char) → Prop where
  | nil {a : Allowed} : Masked a []
  | other {a : Allowed} {m c : Char} {rest : List (Char × Char)} (hm : m ≠ '(' ∧ m ≠ ')' ∧ m ≠ ',')
      (h : Masked a rest) : Masked a ((m, c) :: rest)
  | comma {a : Allowed} {c : Char} {rest : List (Char × Char)} (ha : a.commas = true) (h : Masked a rest) :
      Masked a ((',', c) :: rest)
  | parens {a : Allowed} {c c' : Char} {inner rest : List (Char × Char)} (ha : a.parens = true)
      (hs : Masked { a with commas := true } inner) (h : Masked a rest) :
      Masked a (('(', c) :: (inner ++ (')', c') :: rest))

/-- The text does not go on with what could be the end of a comment mark or a
doubled quote. -/
def Safe (rest : List Char) : Prop := ∀ c ∈ rest.head?, c ∉ ['-', '*', '\'', '"']

/-- The masking of such a text is its own, whatever follows. -/
def Passes (a : Allowed) (s : List Char) : Prop :=
  ∃ pairs, Masked a pairs ∧ pairs.map Prod.snd = s ∧
    ∀ rest, Safe rest → maskChars .code (s ++ rest) = pairs.map Prod.fst ++ maskChars .code rest

/-! ### Masking -/

theorem maskChars_quoted_cons (hc : c ≠ quote) (rest : List Char) :
    maskChars (.quoted quote) (c :: rest) = ' ' :: maskChars (.quoted quote) rest := by
  rw [maskChars.eq_def]
  exact if_neg hc

theorem maskChars_quoted_double (quote : Char) (rest : List Char) :
    maskChars (.quoted quote) (quote :: quote :: rest) = ' ' :: ' ' :: maskChars (.quoted quote) rest :=
  (if_pos rfl).trans (if_pos rfl)

theorem maskChars_quoted_end (hn : rest.head? ≠ some quote) :
    maskChars (.quoted quote) (quote :: rest) = ' ' :: maskChars .code rest := by
  cases rest with
  | nil => exact if_pos rfl
  | cons d rest =>
    have hd : d ≠ quote := fun h => hn (by rw [h, List.head?_cons])
    exact (if_pos rfl).trans (if_neg hd)

theorem maskChars_literal (h : Literal quote s) (hn : rest.head? ≠ some quote) :
    maskChars (.quoted quote) (s ++ quote :: rest) = List.replicate (s.length + 1) ' ' ++ maskChars .code rest := by
  induction h with
  | nil => simp [maskChars_quoted_end hn]
  | char hc _ ih => simp [maskChars_quoted_cons hc, ih, replicate_succ]
  | double _ ih => simp [maskChars_quoted_double, ih, replicate_succ]

theorem maskChars_bracketed_cons (close c : Char) (rest : List Char) :
    maskChars (.bracketed close) (c :: rest) =
      ' ' :: if c = close then maskChars .code rest else maskChars (.bracketed close) rest := rfl

theorem maskChars_bracketed {close : Char} (h : close ∉ s) (rest : List Char) :
    maskChars (.bracketed close) (s ++ close :: rest) = List.replicate (s.length + 1) ' ' ++ maskChars .code rest := by
  induction s with
  | nil => simp [maskChars_bracketed_cons]
  | cons c s ih =>
    obtain ⟨hc, hs⟩ := not_or.1 (mt mem_cons.2 h)
    simp [maskChars_bracketed_cons, Ne.symm hc, ih hs, replicate_succ]

theorem maskChars_lineComment_cons (c : Char) (rest : List Char) :
    maskChars .lineComment (c :: rest) =
      if c = '\n' then c :: maskChars .code rest else ' ' :: maskChars .lineComment rest := rfl

theorem maskChars_lineComment (h : '\n' ∉ s) (rest : List Char) :
    maskChars .lineComment (s ++ '\n' :: rest) = List.replicate s.length ' ' ++ '\n' :: maskChars .code rest := by
  induction s with
  | nil => simp [maskChars_lineComment_cons]
  | cons c s ih =>
    obtain ⟨hc, hs⟩ := not_or.1 (mt mem_cons.2 h)
    simp [maskChars_lineComment_cons, Ne.symm hc, ih hs, replicate_succ]

theorem maskChars_blockComment_cons (h : ¬(c = '*' ∧ rest.head? = some '/')) :
    maskChars .blockComment (c :: rest) = ' ' :: maskChars .blockComment rest := by
  rw [maskChars.eq_def]
  exact if_neg h

theorem maskChars_blockComment_end (rest : List Char) :
    maskChars .blockComment ('*' :: '/' :: rest) = ' ' :: ' ' :: maskChars .code rest := if_pos ⟨rfl, rfl⟩

theorem maskChars_blockComment (h : ¬['*', '/'] <:+: s) (rest : List Char) :
    maskChars .blockComment (s ++ '*' :: '/' :: rest) =
      List.replicate (s.length + 2) ' ' ++ maskChars .code rest := by
  induction s with
  | nil => simp [maskChars_blockComment_end, replicate_succ]
  | cons c s ih =>
    -- The mark that ends the comment starts neither at `c` nor in `s`.
    have hs : ¬['*', '/'] <:+: s := fun hin => h (infix_cons hin)
    have hc : ¬(c = '*' ∧ (s ++ '*' :: '/' :: rest).head? = some '/') := by
      rintro ⟨rfl, hhead⟩
      cases s with
      | nil => simp at hhead
      | cons d s =>
        obtain rfl : d = '/' := by simpa using hhead
        exact h ⟨[], s, rfl⟩
    rw [cons_append, maskChars_blockComment_cons hc, ih hs]
    simp [replicate_succ]

theorem maskChars_open_literal (hq : quote = '\'' ∨ quote = '"') (rest : List Char) :
    maskChars .code (quote :: rest) = ' ' :: maskChars (.quoted quote) rest := by
  rw [maskChars_code_cons, if_pos hq]

theorem maskChars_open_bracketed {opening close : Char}
    (hq : opening = backquote ∧ close = backquote ∨ opening = '[' ∧ close = ']') (rest : List Char) :
    maskChars .code (opening :: rest) = ' ' :: maskChars (.bracketed close) rest := by
  obtain ⟨rfl, rfl⟩ | ⟨rfl, rfl⟩ := hq
  · rw [maskChars_code_cons, if_neg (by decide), if_pos rfl]
  · rw [maskChars_code_cons, if_neg (by decide), if_neg (by decide), if_pos rfl]

theorem maskChars_open_lineComment (rest : List Char) :
    maskChars .code ('-' :: '-' :: rest) = ' ' :: maskChars .lineComment ('-' :: rest) := rfl

theorem maskChars_open_blockComment (rest : List Char) :
    maskChars .code ('/' :: '*' :: rest) = ' ' :: ' ' :: maskChars .blockComment rest := rfl

/-- A character that opens no quote and no comment stays. -/
theorem maskChars_stay {c : Char} {rest : List Char} (hc : c ∉ ['\'', '"', backquote, '['])
    (hn : ¬StartsComment c rest) : maskChars .code (c :: rest) = c :: maskChars .code rest := by
  simp only [mem_cons, not_mem_nil, or_false, not_or] at hc
  obtain ⟨h1, h2, h3, h4⟩ := hc
  obtain ⟨h5, h6⟩ := not_or.1 hn
  rw [maskChars_code_cons, if_neg (not_or.2 ⟨h1, h2⟩), if_neg h3, if_neg h4, if_neg h5, if_neg h6]

theorem not_startsComment (h : c ≠ '-' ∧ c ≠ '/') (rest : List Char) : ¬StartsComment c rest := by
  rintro (⟨hc, -⟩ | ⟨hc, -⟩)
  · exact h.1 hc
  · exact h.2 hc

/-- What follows a text does not make a comment of its last character. -/
theorem StartsComment.of_append (hsafe : Safe rest) (h : StartsComment c (s ++ rest)) : StartsComment c s := by
  cases s with
  | cons d s => exact h
  | nil =>
    rw [nil_append] at h
    rcases h with ⟨-, hhead⟩ | ⟨-, hhead⟩
    · exact absurd (hsafe _ hhead) (by decide)
    · exact absurd (hsafe _ hhead) (by decide)

theorem head_append_ne (hq : quote = '\'' ∨ quote = '"') (hsafe : Safe rest) (hn : s.head? ≠ some quote) :
    (s ++ rest).head? ≠ some quote := by
  cases s with
  | cons d s => exact hn
  | nil =>
    intro hhead
    have := hsafe _ hhead
    rcases hq with rfl | rfl
    · exact this (by decide)
    · exact this (by decide)

/-! ### What masking leaves -/

theorem Masked.append {qs : List (Char × Char)} (hp : Masked a ps) (hq : Masked a qs) : Masked a (ps ++ qs) := by
  induction hp with
  | nil => exact hq
  | other hm _ ih => exact .other hm (ih hq)
  | comma ha _ ih => exact .comma ha (ih hq)
  | parens ha hs _ _ ih =>
    rw [cons_append, append_assoc]
    exact .parens ha hs (ih hq)

theorem Masked.blanks (a : Allowed) (s : List Char) : Masked a (s.map fun c => (' ', c)) := by
  induction s with
  | nil => exact .nil
  | cons c s ih => exact .other (by decide) ih

theorem Masked.mono {b : Allowed} (h : Masked a ps) (hc : a.commas = true → b.commas = true)
    (hp : a.parens = true → b.parens = true) : Masked b ps := by
  induction h generalizing b with
  | nil => exact .nil
  | other hm _ ih => exact .other hm (ih hc hp)
  | comma ha _ ih => exact .comma (hc ha) (ih hc hp)
  | parens ha _ _ ihs ih => exact .parens (hp ha) (ihs (fun _ => rfl) hp) (ih hc hp)

theorem Masked.closeOffset (h : Masked a ps) {depth : Int} (hd : 1 ≤ depth) (rest : List Char) (offset : Nat) :
    closeOffset (ps.map Prod.fst ++ rest) depth offset = Schema.closeOffset rest depth (offset + ps.length) := by
  induction h generalizing depth rest offset with
  | nil => rfl
  | other hm _ ih =>
    simp only [map_cons, cons_append, Schema.closeOffset, if_neg hm.1, if_neg hm.2.1, ih hd,
      length_cons]
    congr 1
    omega
  | comma _ _ ih =>
    simp only [map_cons, cons_append, Schema.closeOffset, ih hd, length_cons]
    rw [if_neg (by decide), if_neg (by decide)]
    congr 1
    omega
  | parens _ _ _ ihs ih =>
    rw [map_cons, map_append, cons_append, append_assoc, Schema.closeOffset, if_pos rfl,
      ihs (by omega), map_cons, cons_append, Schema.closeOffset, if_neg (by simp), if_pos rfl,
      if_neg (by omega), Int.add_sub_cancel, ih hd]
    simp only [length_cons, length_append]
    congr 1
    omega

theorem Masked.splitFrom (h : Masked a ps) {depth : Int} (hd : 0 ≤ depth) (hc : a.commas = true → 1 ≤ depth)
    (rest : List (Char × Char)) (part : List Char) :
    splitFrom (ps ++ rest) depth part = Schema.splitFrom rest depth (part ++ ps.map Prod.snd) := by
  induction h generalizing depth rest part with
  | nil => rw [nil_append, map_nil, append_nil]
  | other hm _ ih =>
    rw [cons_append, Schema.splitFrom, if_neg hm.1, if_neg hm.2.1, if_neg fun h => hm.2.2 h.1, ih hd hc,
      append_assoc]
    rfl
  | comma ha _ ih =>
    have hdepth := hc ha
    rw [cons_append, Schema.splitFrom, if_neg (by decide), if_neg (by decide), if_neg (by omega), ih hd hc,
      append_assoc]
    rfl
  | parens _ _ _ ihs ih =>
    rw [cons_append, Schema.splitFrom, if_pos rfl, append_assoc, ihs (by omega) (fun _ => by omega),
      cons_append, Schema.splitFrom, if_neg (by decide), if_pos rfl, Int.add_sub_cancel, ih hd hc]
    simp

theorem Masked.no_open (h : Masked a ps) (ha : a.parens = false) : '(' ∉ ps.map Prod.fst := by
  induction h with
  | nil => exact not_mem_nil
  | other hm _ ih => exact not_mem_cons_of_ne_of_not_mem (Ne.symm hm.1) (ih ha)
  | comma _ _ ih => exact not_mem_cons_of_ne_of_not_mem (by simp) (ih ha)
  | parens hparens _ _ _ _ => exact absurd (ha.symm.trans hparens) (by decide)

/-! ### Texts are passed over -/

variable {t : List Char} {items : List (List Char)}

theorem Passes.append (hs : Passes a s) (ht : Passes a t) (hsafe : Safe t) : Passes a (s ++ t) := by
  obtain ⟨ps, hps, hsnd, hmask⟩ := hs
  obtain ⟨qs, hqs, hsnd', hmask'⟩ := ht
  refine ⟨ps ++ qs, hps.append hqs, by rw [map_append, hsnd, hsnd'], fun rest hrest => ?_⟩
  have hsafe' : Safe (t ++ rest) := by
    cases t with
    | nil => exact hrest
    | cons c t => exact hsafe
  rw [append_assoc, hmask _ hsafe', hmask' rest hrest, map_append, append_assoc]

theorem Passes.nil (a : Allowed) : Passes a [] := ⟨[], .nil, rfl, fun _ _ => rfl⟩

theorem Passes.mono {b : Allowed} (h : Passes a s) (hc : a.commas = true → b.commas = true)
    (hp : a.parens = true → b.parens = true) : Passes b s := by
  obtain ⟨ps, hps, hrest⟩ := h
  exact ⟨ps, hps.mono hc hp, hrest⟩

theorem Passes.blanked (ht : Passes a t)
    (hmask : ∀ rest, Safe rest → maskChars .code (s ++ (t ++ rest)) = List.replicate s.length ' ' ++ maskChars .code (t ++ rest)) :
    Passes a (s ++ t) := by
  obtain ⟨ps, hps, hsnd, hrest⟩ := ht
  refine ⟨s.map (fun c => (' ', c)) ++ ps, (Masked.blanks a s).append hps, ?_, fun rest hsafe => ?_⟩
  · simp [hsnd, Function.comp_def]
  · rw [append_assoc, hmask rest hsafe, hrest rest hsafe]
    simp [Function.comp_def]

theorem Passes.stay {a : Allowed} {c : Char} {s : List Char} (hs : Passes a s)
    (hc : c ∉ ['\'', '"', backquote, '[']) (hn : ∀ rest, Safe rest → ¬StartsComment c (s ++ rest))
    (hmasked : ∀ ps, Masked a ps → Masked a ((c, c) :: ps)) : Passes a (c :: s) := by
  obtain ⟨ps, hps, hsnd, hrest⟩ := hs
  refine ⟨(c, c) :: ps, hmasked ps hps, by rw [map_cons, hsnd], fun rest hsafe => ?_⟩
  rw [cons_append, maskChars_stay hc (hn rest hsafe), hrest rest hsafe, map_cons, cons_append]

theorem Passes.plain (hs : Passes a s) (hc : isPlain c = true) (hn : ∀ rest, Safe rest → ¬StartsComment c (s ++ rest)) :
    Passes a (c :: s) := by
  have hplain : c ∉ ['\'', '"', backquote, '[', '(', ')', ','] := by
    simpa only [isPlain, Bool.not_eq_true', contains_eq_mem, decide_eq_false_iff_not] using hc
  simp only [mem_cons, not_mem_nil, or_false, not_or] at hplain
  obtain ⟨h1, h2, h3, h4, h5, h6, h7⟩ := hplain
  exact hs.stay (by simp [h1, h2, h3, h4]) hn fun ps hps => .other ⟨h5, h6, h7⟩ hps

theorem Text.passes (h : Text a s) : Passes a s := by
  induction h with
  | nil => exact .nil _
  | char hc hn _ ih => exact ih.plain hc fun rest hsafe h => hn (h.of_append hsafe)
  | comma ha _ ih =>
    exact ih.stay (by decide) (fun rest _ => not_startsComment (by decide) _) fun ps hps => .comma ha hps
  | @parens a s rest ha _ _ ihs ih =>
    obtain ⟨ps, hps, hsnd, hmask⟩ := ihs
    obtain ⟨qs, hqs, hsnd', hmask'⟩ := ih
    refine ⟨('(', '(') :: (ps ++ (')', ')') :: qs), .parens ha hps hqs, by simp [hsnd, hsnd'], fun tail hsafe => ?_⟩
    rw [cons_append, append_assoc, maskChars_stay (by decide) (not_startsComment (by decide) _),
      hmask _ (by simp [Safe]), cons_append, maskChars_stay (by decide) (not_startsComment (by decide) _),
      hmask' tail hsafe]
    simp
  | @literal a quote s rest _ hq hs hn _ ih =>
    rw [show quote :: (s ++ quote :: rest) = (quote :: (s ++ [quote])) ++ rest by simp]
    refine ih.blanked fun tail hsafe => ?_
    rw [show (quote :: (s ++ [quote])) ++ (rest ++ tail) = quote :: (s ++ quote :: (rest ++ tail)) by simp,
      maskChars_open_literal hq, maskChars_literal hs (head_append_ne hq hsafe hn)]
    simp [replicate_succ]
  | @bracketed a opening close s rest _ hq hs _ ih =>
    rw [show opening :: (s ++ close :: rest) = (opening :: (s ++ [close])) ++ rest by simp]
    refine ih.blanked fun tail hsafe => ?_
    rw [show (opening :: (s ++ [close])) ++ (rest ++ tail) = opening :: (s ++ close :: (rest ++ tail)) by simp,
      maskChars_open_bracketed hq, maskChars_bracketed hs]
    simp [replicate_succ]
  | @lineComment a s rest _ hs _ ih =>
    rw [show '-' :: '-' :: (s ++ '\n' :: rest) = ('-' :: '-' :: s) ++ '\n' :: rest by simp]
    have hnewline : Passes a ('\n' :: rest) :=
      ih.stay (by decide) (fun rest _ => not_startsComment (by decide) _) fun ps hps => .other (by decide) hps
    refine hnewline.blanked fun tail hsafe => ?_
    have hdashes : '\n' ∉ '-' :: s := not_mem_cons_of_ne_of_not_mem (by decide) hs
    rw [show ('-' :: '-' :: s) ++ ('\n' :: rest ++ tail) = '-' :: '-' :: (s ++ '\n' :: (rest ++ tail)) by simp,
      maskChars_open_lineComment, ← cons_append, maskChars_lineComment hdashes, cons_append,
      maskChars_stay (by decide) (not_startsComment (by decide) _)]
    simp [replicate_succ]
  | @blockComment a s rest _ hs _ ih =>
    rw [show '/' :: '*' :: (s ++ '*' :: '/' :: rest) = ('/' :: '*' :: (s ++ ['*', '/'])) ++ rest by simp]
    refine ih.blanked fun tail hsafe => ?_
    rw [show ('/' :: '*' :: (s ++ ['*', '/'])) ++ (rest ++ tail) = '/' :: '*' :: (s ++ '*' :: '/' :: (rest ++ tail)) by
      simp, maskChars_open_blockComment, maskChars_blockComment hs]
    simp [replicate_succ]

/-! ### The column list -/

/-- A text between commas. -/
def between : Allowed := ⟨false, true, true⟩

/-- A text in parentheses. -/
def inside : Allowed := ⟨true, true, true⟩

/-- The text in front of the column list. -/
def before : Allowed := ⟨true, false, true⟩

/-- A text with nothing quoted and no comment. -/
def unquoted : Allowed := ⟨false, true, false⟩

theorem Passes.join (h : ∀ s ∈ items, Passes between s) : Passes inside ([','].intercalate items) := by
  induction items with
  | nil => exact .nil _
  | cons s items ih =>
    obtain ⟨hs, hitems⟩ := forall_mem_cons.1 h
    have hinside : Passes inside s := hs.mono (fun h => nomatch h) fun _ => rfl
    cases items with
    | nil => simpa using hinside
    | cons t items =>
      have hcomma : Passes inside (',' :: [','].intercalate (t :: items)) :=
        (ih hitems).stay (by decide) (fun rest _ => not_startsComment (by decide) _) fun ps hps => .comma rfl hps
      rw [intercalate_cons_cons, append_assoc]
      exact hinside.append hcomma (by simp [Safe])

theorem columnListSpan_eq {head body : List Char} (hhead : Passes before head) (hbody : Passes inside body)
    (trailer : List Char) :
    columnListSpan (head ++ '(' :: (body ++ ')' :: trailer)) =
      some (head.length + 1, head.length + 1 + body.length) := by
  obtain ⟨ps, hps, hsnd, hmask⟩ := hhead
  obtain ⟨qs, hqs, hsnd', hmask'⟩ := hbody
  have hlen : (ps.map Prod.fst).length = head.length := by rw [← hsnd, length_map, length_map]
  have hlen' : qs.length = body.length := by rw [← hsnd', length_map]
  have hmasked : maskChars .code (head ++ '(' :: (body ++ ')' :: trailer)) =
      ps.map Prod.fst ++ '(' :: (qs.map Prod.fst ++ ')' :: maskChars .code trailer) := by
    rw [hmask _ (by simp [Safe]), maskChars_stay (by decide) (not_startsComment (by decide) _),
      hmask' _ (by simp [Safe]), maskChars_stay (by decide) (not_startsComment (by decide) _)]
  have hfind : (ps.map Prod.fst ++ '(' :: (qs.map Prod.fst ++ ')' :: maskChars .code trailer)).findIdx?
      (fun c => decide (c = '(')) = some head.length := by
    have hnone : (ps.map Prod.fst).findIdx? (fun c => decide (c = '(')) = none := by
      rw [List.findIdx?_eq_none_iff]
      intro c hc
      exact decide_eq_false fun h => hps.no_open rfl (h ▸ hc)
    rw [List.findIdx?_append, hnone, List.findIdx?_cons]
    simp [hlen]
  have hclose : closeOffset ('(' :: (qs.map Prod.fst ++ ')' :: maskChars .code trailer)) 0 0 =
      some (1 + body.length) := by
    rw [closeOffset, if_pos rfl, hqs.closeOffset (by decide), closeOffset, if_neg (by decide), if_pos rfl,
      if_pos (by decide), hlen', Nat.zero_add]
  simp only [columnListSpan, hmasked, hfind]
  rw [← hlen, drop_left, hclose, Option.map_some, Nat.add_assoc]

theorem splitFrom_join (hne : items ≠ []) (h : ∀ s ∈ items, Passes between s) :
    splitTopLevelCommas ([','].intercalate items) = items.map trim := by
  induction items with
  | nil => exact absurd rfl hne
  | cons s items ih =>
    obtain ⟨⟨ps, hps, rfl, hmask⟩, hitems⟩ := forall_mem_cons.1 h
    cases items with
    | nil =>
      have hwhole := hmask [] (by simp [Safe])
      rw [append_nil] at hwhole
      have hsplit := hps.splitFrom (Int.le_refl 0) (fun h => nomatch h) [] []
      simp only [append_nil, nil_append, splitFrom] at hsplit
      simp [splitTopLevelCommas, hwhole, zip_map', hsplit]
    | cons t items =>
      have hrest := ih (by simp) hitems
      have hsplit := hps.splitFrom (Int.le_refl 0) (fun h => nomatch h)
        ((',', ',') :: (maskChars .code ([','].intercalate (t :: items))).zip ([','].intercalate (t :: items))) []
      rw [splitTopLevelCommas] at hrest
      rw [intercalate_cons_cons, append_assoc, splitTopLevelCommas, singleton_append,
        hmask _ (by simp [Safe]), maskChars_stay (by decide) (not_startsComment (by decide) _),
        zip_append (by simp), zip_cons_cons, zip_map', map_id'' (fun _ => rfl), hsplit, splitFrom,
        if_neg (by decide), if_neg (by decide), if_pos ⟨rfl, rfl⟩, hrest, nil_append]
      rfl

end DbStorage.Schema
