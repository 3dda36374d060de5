import Mathlib.Algebra.Order.Field.Rat
import Mathlib.Data.List.Basic

/-!
# Reading an INSERT statement

`INSERT INTO t (c, ...) VALUES (v, ...), ...` as MySQL reads it, where the values are
literals: `NULL`, unsigned numbers and strings in single quotes, in which a backslash
escapes the next character and two quotes stand for one. A text that needs more of the
grammar than this is not read.

A text is read character by character and then token by token, so that what a text
means follows from what its parts mean.
-/

namespace ViabtcServer.Sql

/-! ## Tokens -/

/-- A keyword or number, a name in backquotes, a string, or a single character. -/
inductive Token
  | word (text : List Char)
  | name (text : List Char)
  | string (text : List Char)
  | symbol (char : Char)
  deriving DecidableEq, Repr

/-- Where the reader stands in the text: between two tokens, inside one, behind a
backslash, or behind a quote that may be the end of its string. -/
inductive Place
  | between
  | word (text : List Char)
  | name (text : List Char)
  | string (text : List Char)
  | escape (text : List Char)
  | quote (text : List Char)
  deriving DecidableEq, Repr

def isWordChar (c : Char) : Bool :=
  c.isAlphanum || c = '_' || c = '.' || c = '$'

/-- What a character behind a backslash stands for. -/
def unescape : Char → List Char
  | '0' => ['\x00']
  | 'b' => ['\x08']
  | 'n' => ['\n']
  | 'r' => ['\r']
  | 't' => ['\t']
  | 'Z' => ['\x1a']
  | '%' => ['\\', '%']
  | '_' => ['\\', '_']
  | c => [c]

/-- A character between two tokens. -/
def lexStart (c : Char) : List Token × Place :=
  if c.isWhitespace then ([], .between)
  else if c = '\'' then ([], .string [])
  else if c = '`' then ([], .name [])
  else if isWordChar c then ([], .word [c])
  else ([.symbol c], .between)

/-- The tokens that end at a character, and where the reader stands then. -/
def lexChar : Place → Char → List Token × Place
  | .between, c => lexStart c
  | .word text, c =>
      if isWordChar c then ([], .word (text ++ [c]))
      else (.word text :: (lexStart c).1, (lexStart c).2)
  | .name text, c =>
      if c = '`' then ([.name text], .between) else ([], .name (text ++ [c]))
  | .string text, c =>
      if c = '\'' then ([], .quote text)
      else if c = '\\' then ([], .escape text)
      else ([], .string (text ++ [c]))
  | .escape text, c => ([], .string (text ++ unescape c))
  | .quote text, c =>
      if c = '\'' then ([], .string (text ++ [c]))
      else (.string text :: (lexStart c).1, (lexStart c).2)

def lex : Place → List Char → List Token × Place
  | place, [] => ([], place)
  | place, c :: text =>
      ((lexChar place c).1 ++ (lex (lexChar place c).2 text).1, (lex (lexChar place c).2 text).2)

/-- The token that ends with the text. -/
def lexEnd : Place → Option (List Token)
  | .between => some []
  | .word text => some [.word text]
  | .quote text => some [.string text]
  | _ => none

def tokens (text : List Char) : Option (List Token) :=
  (lexEnd (lex .between text).2).map ((lex .between text).1 ++ ·)

variable {place : Place} {text rest acc : List Char} {c : Char}

@[simp]
theorem lex_nil : lex place [] = ([], place) := rfl

theorem lex_append : lex place (text ++ rest) =
    ((lex place text).1 ++ (lex (lex place text).2 rest).1, (lex (lex place text).2 rest).2) := by
  induction text generalizing place with
  | nil => rfl
  | cons c text ih =>
      rw [List.cons_append, lex, ih, lex]
      simp

theorem lex_word (all : ∀ c ∈ text, isWordChar c = true) :
    lex (.word acc) text = ([], .word (acc ++ text)) := by
  induction text generalizing acc with
  | nil => simp
  | cons c text ih =>
      have first : lexChar (.word acc) c = ([], .word (acc ++ [c])) := by
        simp [lexChar, all c List.mem_cons_self]
      rw [lex, first, ih fun d mem => all d (List.mem_cons_of_mem _ mem)]
      simp

/-! ## Strings -/

/-- The text stands for itself between quotes: it has no quote, and no backslash but
in front of `%` or `_`. -/
def plain : List Char → Bool
  | [] => true
  | '\'' :: _ => false
  | '\\' :: c :: text => (c = '%' || c = '_') && plain text
  | ['\\'] => false
  | _ :: text => plain text

theorem ne_backslash (noEscape : ∀ d rest, c = '\\' → text = d :: rest → False)
    (noEnd : c = '\\' → text = [] → False) : c ≠ '\\' := by
  intro same
  cases text with
  | nil => exact noEnd same rfl
  | cons d rest => exact noEscape d rest same rfl

theorem lex_plain (plain_ : plain text = true) :
    lex (.string acc) text = ([], .string (acc ++ text)) := by
  induction text using plain.induct generalizing acc with
  | case1 => simp
  | case2 text => cases plain_
  | case3 c text ih =>
      rw [plain, Bool.and_eq_true] at plain_
      have kept : unescape c = ['\\', c] := by
        rcases (Bool.or_eq_true _ _).mp plain_.1 with percent | low
        · rw [of_decide_eq_true percent]
          rfl
        · rw [of_decide_eq_true low]
          rfl
      have first : lexChar (.string acc) '\\' = ([], .escape acc) := rfl
      have second : lexChar (.escape acc) c = ([], .string (acc ++ ['\\', c])) := by
        simp [lexChar, kept]
      rw [lex, first, lex, second, ih plain_.2]
      simp
  | case4 => cases plain_
  | case5 c text noQuote noEscape noEnd ih =>
      have first : lexChar (.string acc) c = ([], .string (acc ++ [c])) := by
        simp only [lexChar]
        rw [if_neg noQuote, if_neg (ne_backslash noEscape noEnd)]
      rw [plain.eq_5 c text noQuote noEscape noEnd] at plain_
      rw [lex, first, ih plain_]
      simp

/-- What has been read of a string, and what is not decided yet. -/
def Place.width : Place → Option ℕ
  | .string text => some text.length
  | .escape text => some (text.length + 1)
  | .quote text => some (text.length + 1)
  | _ => none

/-- Reading makes nothing longer. -/
theorem lex_width {width : ℕ} (inside : place.width = some width)
    (quiet : (lex place text).1 = []) :
    ∃ width', (lex place text).2.width = some width' ∧ width' ≤ width + text.length := by
  induction text generalizing place width with
  | nil => exact ⟨width, inside, le_rfl⟩
  | cons c text ih =>
      rw [lex, List.append_eq_nil_iff] at quiet
      have one : ∃ next, (lexChar place c).2.width = some next ∧ next ≤ width + 1 := by
        rcases quiet with ⟨quiet, _⟩
        cases place with
        | between => cases inside
        | word text => cases inside
        | name text => cases inside
        | string text =>
            obtain rfl := Option.some.inj inside
            simp only [lexChar]
            split
            · exact ⟨_, rfl, le_rfl⟩
            split
            · exact ⟨_, rfl, le_rfl⟩
            · exact ⟨_, rfl, by simp⟩
        | escape text =>
            obtain rfl := Option.some.inj inside
            have short : (unescape c).length ≤ 2 := by
              unfold unescape
              split <;> simp
            refine ⟨_, rfl, ?_⟩
            rw [List.length_append]
            omega
        | quote text =>
            obtain rfl := Option.some.inj inside
            simp only [lexChar] at quiet ⊢
            split at quiet
            · rename_i same
              rw [if_pos same]
              exact ⟨_, rfl, by simp⟩
            · cases quiet
      rcases one with ⟨next, inside', le⟩
      rcases ih inside' quiet.2 with ⟨width', final, le'⟩
      refine ⟨width', final, ?_⟩
      rw [List.length_cons]
      omega

/-- A text that is read as itself is plain. -/
theorem plain_of_lex (same : lex (.string acc) text = ([], .string (acc ++ text))) :
    plain text = true := by
  induction text using plain.induct generalizing acc with
  | case1 => rfl
  | case2 text =>
      exfalso
      cases text with
      | nil => cases same
      | cons d text =>
          have quiet : (lex (.string acc) ('\'' :: d :: text)).1 = [] := by rw [same]
          have final : (lex (.string acc) ('\'' :: d :: text)).2.width =
              some (acc.length + (text.length + 2)) := by
            rw [same]
            simp [Place.width]
          rw [lex, lex] at quiet final
          simp only [lexChar, if_true, List.nil_append, List.append_eq_nil_iff] at quiet final
          split at quiet
          · -- two quotes are one
            rename_i quote
            rw [if_pos quote] at final
            rcases lex_width (rfl : (Place.string (acc ++ [d])).width = _) quiet.2 with
              ⟨width, final', le⟩
            rw [final] at final'
            obtain rfl := Option.some.inj final'
            rw [List.length_append, List.length_singleton] at le
            omega
          · cases quiet.1
  | case3 c text ih =>
      have steps : lex (.string acc) ('\\' :: c :: text) =
          lex (.string (acc ++ unescape c)) text := by
        rw [lex, lex]
        rfl
      rw [steps] at same
      have kept : c = '%' ∨ c = '_' := by
        by_contra other
        -- one character is read from the two
        have one : (unescape c).length = 1 := by
          unfold unescape
          split <;> simp_all
        have quiet : (lex (.string (acc ++ unescape c)) text).1 = [] := by rw [same]
        rcases lex_width (rfl : (Place.string (acc ++ unescape c)).width = _) quiet with
          ⟨width, final, le⟩
        rw [same] at final
        obtain rfl := Option.some.inj final
        simp only [List.length_append, List.length_cons, one] at le
        omega
      have both : unescape c = ['\\', c] := by
        rcases kept with rfl | rfl <;> rfl
      rw [both] at same
      have tail := @ih (acc ++ ['\\', c]) (by simpa using same)
      rw [plain, tail, Bool.and_true]
      simpa using kept
  | case4 => cases same
  | case5 c text noQuote noEscape noEnd ih =>
      have first : lexChar (.string acc) c = ([], .string (acc ++ [c])) := by
        simp only [lexChar]
        rw [if_neg noQuote, if_neg (ne_backslash noEscape noEnd)]
      rw [lex, first] at same
      rw [plain.eq_5 c text noQuote noEscape noEnd]
      exact @ih (acc ++ [c]) (by simpa using same)

/-- A text between quotes is read as itself precisely when it is plain. -/
theorem lex_string_iff : lex (.string []) text = ([], .string text) ↔ plain text = true :=
  ⟨fun same => plain_of_lex same, fun plain_ => lex_plain plain_⟩

/-! ## Statements -/

/-- A literal. -/
inductive Value
  | null
  | number (value : ℚ)
  | string (text : List Char)
  deriving DecidableEq

/-- A statement: the table, its columns and the rows to insert. -/
structure Insert where
  table : List Char
  columns : List (List Char)
  rows : List (List Value)
  deriving DecidableEq

/-- What the reader expects next. -/
inductive Expect
  | insert
  | into
  | table
  | columnsOpen
  | column
  | columnEnd
  | values
  | rowOpen
  | value
  | valueEnd
  | rowEnd
  deriving DecidableEq, Repr

/-- A statement that is read, with the values of the row it is in. -/
structure Reading where
  expect : Expect
  table : List Char
  columns : List (List Char)
  rows : List (List Value)
  row : List Value
  deriving DecidableEq

def Reading.start : Reading where
  expect := .insert
  table := []
  columns := []
  rows := []
  row := []

/-- An unsigned number, with or without a fraction. -/
def decimalValue (text : List Char) : Option ℚ :=
  let whole := text.takeWhile (· ≠ '.')
  let fraction := (text.dropWhile (· ≠ '.')).tail
  if whole ++ fraction ≠ [] ∧ (whole ++ fraction).all Char.isDigit then
    some (Nat.ofDigitChars 10 (whole ++ fraction) 0 / 10 ^ fraction.length)
  else none

/-- Keywords may be written in capitals or not. -/
def isKeyword (word : List Char) (keyword : String) : Bool :=
  word.map Char.toUpper = keyword.toList

def wordValue (word : List Char) : Option Value :=
  if isKeyword word "NULL" then some .null else (decimalValue word).map .number

def readToken (r : Reading) (token : Token) : Option Reading :=
  match r.expect, token with
  | .insert, .word word => if isKeyword word "INSERT" then some { r with expect := .into } else none
  | .into, .word word => if isKeyword word "INTO" then some { r with expect := .table } else none
  | .table, .name name => some { r with expect := .columnsOpen, table := name }
  | .columnsOpen, .symbol '(' => some { r with expect := .column }
  | .column, .name name => some { r with expect := .columnEnd, columns := r.columns ++ [name] }
  | .columnEnd, .symbol ',' => some { r with expect := .column }
  | .columnEnd, .symbol ')' => some { r with expect := .values }
  | .values, .word word =>
      if isKeyword word "VALUES" then some { r with expect := .rowOpen } else none
  | .rowOpen, .symbol '(' => some { r with expect := .value, row := [] }
  | .value, .word word =>
      (wordValue word).map fun value => { r with expect := .valueEnd, row := r.row ++ [value] }
  | .value, .string text => some { r with expect := .valueEnd, row := r.row ++ [.string text] }
  | .valueEnd, .string text =>
      -- strings side by side are one string
      match r.row.getLast? with
      | some (.string front) => some { r with row := r.row.dropLast ++ [.string (front ++ text)] }
      | _ => none
  | .valueEnd, .symbol ',' => some { r with expect := .value }
  | .valueEnd, .symbol ')' => some { r with expect := .rowEnd, rows := r.rows ++ [r.row] }
  | .rowEnd, .symbol ',' => some { r with expect := .rowOpen }
  | _, _ => none

/-- The statement that was read; every row has a value for each column. -/
def Reading.finish (r : Reading) : Option Insert :=
  if r.expect = .rowEnd ∧ ∀ row ∈ r.rows, row.length = r.columns.length then
    some ⟨r.table, r.columns, r.rows⟩
  else none

/-- What a text says, if it is a statement. -/
def readInsert (text : List Char) : Option Insert := do
  let tokens ← tokens text
  let r ← tokens.foldlM readToken Reading.start
  r.finish

example : readInsert "INSERT INTO `t` (`a`, `b`) VALUES (NULL, 'it''s'), (1.50, 'a\\'b')".toList =
    some ⟨['t'], [['a'], ['b']], [[.null, .string "it's".toList],
      [.number (3 / 2), .string "a'b".toList]]⟩ := by
  decide +kernel

end ViabtcServer.Sql
