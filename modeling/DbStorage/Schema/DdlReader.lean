import DbStorage.Btree.IndexCursor

/-!
# The schema reader (`schema/ddl_reader.rs`)

`read_schema` reads the rows of `sqlite_master` into tables with their
indexes. Of a table's or index's `CREATE` text only two things are read
here: whether the table is a virtual one, and whether an index has a column
list; the columns themselves are left out.

The texts are lists of characters and offsets count characters, where the
source counts the bytes of UTF-8: every byte that the reader compares is an
ASCII character, and it slices at such bytes only. The depth of parentheses is
an integer without a bound (`i32` in the source, saturating).
-/
namespace DbStorage.Schema
open Bytes Record Btree PageWalk

/-- The fields that the integrity check reads.
mirrors ddl_reader.rs:247-252 -/
structure IndexSchema where
  name : List Char
  rootPage : UInt32
  deriving DecidableEq

/-- The fields that the integrity check reads.
mirrors ddl_reader.rs:208-221 -/
structure TableSchema where
  name : List Char
  rootPage : UInt32
  isVirtual : Bool
  indexes : List IndexSchema
  deriving DecidableEq

inductive DdlError where
  | btree (e : BtreeError)
  | record (e : RecordError)
  | malformedRow (len : Nat)
  deriving DecidableEq

/-! ## Texts -/

/-- mirrors ddl_reader.rs:354-359 -/
def text : Option Value → List Char
  | some (.text s) => s
  | _ => []

/-- `char::is_whitespace` -/
def isWhitespace (c : Char) : Bool :=
  let n := c.toNat
  0x9 ≤ n && n ≤ 0xd || n == 0x20 || n == 0x85 || n == 0xa0 || n == 0x1680 || 0x2000 ≤ n && n ≤ 0x200a ||
    n == 0x2028 || n == 0x2029 || n == 0x202f || n == 0x205f || n == 0x3000

/-- The start is a text of ASCII characters, so that many characters of `s`
are that many bytes of it where the two are equal.
mirrors ddl_reader.rs:260-263 -/
def startsWithIgnoreCase (s start : List Char) : Bool :=
  (s.take start.length).map Char.toLower == start.map Char.toLower

/-- mirrors ddl_reader.rs:361-363 -/
def isVirtualTable (sql : List Char) : Bool :=
  startsWithIgnoreCase (sql.dropWhile isWhitespace) "CREATE VIRTUAL TABLE".toList

/-! ## Quotes and comments -/

/-- What the characters of a text are in. -/
inductive CharRegion where
  | code
  | quoted (quote : Char)
  | bracketed (close : Char)
  | lineComment
  | blockComment

def backquote : Char := Char.ofNat 96

/-- Each loop of the source is the reading of one region.
mirrors ddl_reader.rs:424-497 -/
def maskChars : CharRegion → List Char → List Char
  | _, [] => []
  | .code, c :: rest =>
    if c = '\'' ∨ c = '"' then ' ' :: maskChars (.quoted c) rest
    else if c = backquote then ' ' :: maskChars (.bracketed backquote) rest
    else if c = '[' then ' ' :: maskChars (.bracketed ']') rest
    else if c = '-' ∧ rest.head? = some '-' then ' ' :: maskChars .lineComment rest
    else if c = '/' ∧ rest.head? = some '*' then
      match rest with
      | [] => [' ']
      | _ :: rest => ' ' :: ' ' :: maskChars .blockComment rest
    else c :: maskChars .code rest
  | .quoted quote, c :: rest =>
    if c = quote then
      match rest with
      | [] => [' ']
      | c' :: rest' =>
        if c' = quote then ' ' :: ' ' :: maskChars (.quoted quote) rest' else ' ' :: maskChars .code (c' :: rest')
    else ' ' :: maskChars (.quoted quote) rest
  | .bracketed close, c :: rest =>
    ' ' :: if c = close then maskChars .code rest else maskChars (.bracketed close) rest
  | .lineComment, c :: rest =>
    if c = '\n' then c :: maskChars .code rest else ' ' :: maskChars .lineComment rest
  | .blockComment, c :: rest =>
    if c = '*' ∧ rest.head? = some '/' then
      match rest with
      | [] => [' ']
      | _ :: rest => ' ' :: ' ' :: maskChars .code rest
    else ' ' :: maskChars .blockComment rest

@[simp] theorem maskChars_nil (region : CharRegion) : maskChars region [] = [] := by
  cases region <;> rfl

theorem maskChars_code_cons (c : Char) (rest : List Char) :
    maskChars .code (c :: rest) =
      if c = '\'' ∨ c = '"' then ' ' :: maskChars (.quoted c) rest
      else if c = backquote then ' ' :: maskChars (.bracketed backquote) rest
      else if c = '[' then ' ' :: maskChars (.bracketed ']') rest
      else if c = '-' ∧ rest.head? = some '-' then ' ' :: maskChars .lineComment rest
      else if c = '/' ∧ rest.head? = some '*' then
        match rest with
        | [] => [' ']
        | _ :: rest => ' ' :: ' ' :: maskChars .blockComment rest
      else c :: maskChars .code rest := by
  rw [maskChars.eq_def]

/-- The offset of the parenthesis that closes the one before `s`, `depth` of
them being open.
mirrors ddl_reader.rs:507-520 -/
def closeOffset : List Char → Int → Nat → Option Nat
  | [], _, _ => none
  | c :: rest, depth, offset =>
    if c = '(' then closeOffset rest (depth + 1) (offset + 1)
    else if c = ')' then if depth - 1 = 0 then some offset else closeOffset rest (depth - 1) (offset + 1)
    else closeOffset rest depth (offset + 1)

/-- Where the column list starts and ends.
mirrors ddl_reader.rs:504-521 -/
def columnListSpan (sql : List Char) : Option (Nat × Nat) :=
  let masked := maskChars .code sql
  match masked.findIdx? (· = '(') with
  | none => none
  | some start => (closeOffset (masked.drop start) 0 0).map fun offset => (start + 1, start + offset)

/-! ## Rows -/

/-- `i as u32`, or 0 for a value that is no integer. -/
def rootPageOf : Option Value → UInt32
  | some (.integer i) => i.toUInt64.toUInt32
  | _ => 0

/-- mirrors ddl_reader.rs:183-222 -/
def tableSchema (values : List Value) : TableSchema :=
  let name := text values[1]?
  if isVirtualTable (text values[4]?) then ⟨name, 0, true, []⟩ else ⟨name, rootPageOf values[3]?, false, []⟩

/-- The owning table's name and the index.
mirrors ddl_reader.rs:229-254 -/
def indexSchema (values : List Value) : Option (List Char × IndexSchema) :=
  if (columnListSpan (text values[4]?)).isSome then some (text values[2]?, ⟨text values[1]?, rootPageOf values[3]?⟩) else none

/-- What a row of `sqlite_master` adds to the tables and to the indexes. -/
def addRow (values : List Value) (acc : List TableSchema × List (List Char × IndexSchema)) :
    List TableSchema × List (List Char × IndexSchema) :=
  if text values[0]? = "table".toList then (acc.1 ++ [tableSchema values], acc.2)
  else if text values[0]? = "index".toList then (acc.1, acc.2 ++ (indexSchema values).toList)
  else acc

/-- An index goes to the last table of its table's name.
mirrors ddl_reader.rs:121-128 -/
def attach (schemas : List TableSchema) (pending : List Char × IndexSchema) : List TableSchema :=
  match schemas.reverse.findIdx? (fun t => t.name = pending.1) with
  | none => schemas
  | some i => (schemas.reverse.modify i fun t => { t with indexes := t.indexes ++ [pending.2] }).reverse

/-! ## Reading -/

section
variable (source : PageSource)

def scanTable (c : TableCursor) : List (Int64 × Except BtreeError Bytes) × Option BtreeError :=
  collect (TableCursor.next source) (TableCursor.row source) (.traversalTooLong maxPagesVisited) maxRows (c.first source)

/-- The rows of `sqlite_master` in order; the first one that cannot be read
ends the reading.
mirrors ddl_reader.rs:101-120 -/
def addRows (encoding : TextEncoding) :
    List (Int64 × Except BtreeError Bytes) → List TableSchema × List (List Char × IndexSchema) →
      Except DdlError (List TableSchema × List (List Char × IndexSchema))
  | [], acc => .ok acc
  | (_, payload) :: rows, acc => do
    let payload ← payload.mapError .btree
    let values ← (decodeRecord payload encoding).mapError .record
    if values.length ≠ 5 then .error (.malformedRow values.length) else addRows encoding rows (addRow values acc)

/-- mirrors ddl_reader.rs:78-130 -/
def readSchema (cursor : TableCursor) (encoding : TextEncoding) : Except DdlError (List TableSchema) := do
  let scan := scanTable source cursor
  let (schemas, pending) ← addRows encoding scan.1 ([], [])
  match scan.2 with
  | some e => .error (.btree e)
  | none => .ok (pending.foldl attach schemas)

end
end DbStorage.Schema
