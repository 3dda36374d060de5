import ViabtcServer.Sql.Insert

/-!
# Printing an INSERT statement

A statement that is put together from a head and from rows of printed literals is
read as these rows, whatever its literals are, as long as each of them is read as
the value it stands for.
-/

namespace ViabtcServer.Sql

variable {text rest : List Char} {c : Char} {value : Value} {r : Reading}

/-! ## Words and names -/

theorem lexStart_word (word : isWordChar c = true) : lexStart c = ([], .word [c]) := by
  have space : c.isWhitespace = false := by
    by_contra white
    rw [Bool.not_eq_false] at white
    simp only [Char.isWhitespace, Bool.or_eq_true, decide_eq_true_eq] at white
    rcases white with ((rfl | rfl) | rfl) | rfl <;> cases word
  have quote : c ≠ '\'' := by
    rintro rfl
    cases word
  have back : c ≠ '`' := by
    rintro rfl
    cases word
  simp [lexStart, space, quote, back, word]

/-- A word is read up to its end. -/
theorem lex_word_start (nonempty : text ≠ []) (all : ∀ c ∈ text, isWordChar c = true) :
    lex .between text = ([], .word text) := by
  rcases List.exists_cons_of_ne_nil nonempty with ⟨c, text, rfl⟩
  have first : lexChar .between c = ([], .word [c]) := lexStart_word (all c List.mem_cons_self)
  rw [lex, first, lex_word fun d mem => all d (List.mem_cons_of_mem _ mem)]
  rfl

/-- A name goes up to the next backquote. -/
theorem lex_name {acc : List Char} (none_ : '`' ∉ text) :
    lex (.name acc) text = ([], .name (acc ++ text)) := by
  induction text generalizing acc with
  | nil => simp
  | cons c text ih =>
      have other : c ≠ '`' := fun same => none_ (same ▸ List.mem_cons_self)
      have first : lexChar (.name acc) c = ([], .name (acc ++ [c])) := by
        simp only [lexChar]
        rw [if_neg other]
      rw [lex, first, ih fun mem => none_ (List.mem_cons_of_mem _ mem)]
      simp

/-! ## Literals -/

/-- A character that ends a literal in a row. -/
def Ends (c : Char) : Prop :=
  c = ',' ∨ c = ')'

/-- In front of a comma or a bracket the text is read as the value. -/
def Prints (text : List Char) (value : Value) : Prop :=
  ∃ token, (∀ c rest, Ends c → lex .between (text ++ c :: rest) =
      (token :: .symbol c :: (lex .between rest).1, (lex .between rest).2)) ∧
    ∀ r : Reading, r.expect = .value →
      readToken r token = some { r with expect := .valueEnd, row := r.row ++ [value] }

/-- A number or `NULL`. -/
theorem prints_word (nonempty : text ≠ []) (all : ∀ c ∈ text, isWordChar c = true)
    (means : wordValue text = some value) : Prints text value := by
  refine ⟨.word text, ?_, ?_⟩
  · intro c rest ends
    rw [lex_append, lex_word_start nonempty all]
    rcases ends with rfl | rfl <;> rfl
  · intro r expect
    unfold readToken
    rw [expect]
    simp only [means]
    rfl

/-- A string whose characters are read as `value` between the quotes. -/
theorem prints_string {inside : List Char} (read : lex (.string []) inside = ([], .string text)) :
    Prints ('\'' :: (inside ++ ['\''])) (.string text) := by
  refine ⟨.string text, ?_, ?_⟩
  · intro c rest ends
    have opens : lexChar .between '\'' = ([], .string []) := rfl
    rw [List.cons_append, lex, opens, List.append_assoc, lex_append, read]
    rcases ends with rfl | rfl <;> rfl
  · intro r expect
    unfold readToken
    rw [expect]

/-- A value between quotes is read as the characters are. -/
theorem prints_string_iff {inside : List Char} :
    Prints ('\'' :: (inside ++ ['\''])) (.string text) ↔
      lex (.string []) inside = ([], .string text) := by
  constructor
  · rintro ⟨token, read, means⟩
    have opens (rest : List Char) : lex .between ('\'' :: rest) = lex (.string []) rest := rfl
    have whole := read ',' [] (Or.inl rfl)
    rw [List.cons_append, opens, List.append_assoc, lex_append] at whole
    cases inner : lex (.string []) inside with
    | mk ts place =>
        rw [inner] at whole
        cases place with
        | string acc =>
            -- only here the quote ends a string
            have tokens : ts ++ [.string acc, .symbol ','] = [token, .symbol ','] :=
              congrArg Prod.fst whole
            have none_ : ts = [] := by
              apply List.length_eq_zero_iff.mp
              simpa using congrArg List.length tokens
            subst none_
            obtain rfl : Token.string acc = token := (List.cons.inj tokens).1
            have value := means { Reading.start with expect := .value } rfl
            have same : [Value.string acc] = [Value.string text] :=
              congrArg Reading.row (Option.some.inj value)
            rw [Value.string.inj (List.cons.inj same).1]
        | between => cases congrArg Prod.snd whole
        | word acc => cases congrArg Prod.snd whole
        | name acc => cases congrArg Prod.snd whole
        | escape acc => cases congrArg Prod.snd whole
        | quote acc => cases congrArg Prod.snd whole
  · exact prints_string

/-- A text is read as one value. -/
theorem Prints.unique {value' : Value} (prints : Prints text value)
    (prints' : Prints text value') : value = value' := by
  rcases prints with ⟨token, read, means⟩
  rcases prints' with ⟨other, readOther, meansOther⟩
  have same := (read ',' [] (Or.inl rfl)).symm.trans (readOther ',' [] (Or.inl rfl))
  obtain rfl : token = other := (List.cons.inj (congrArg Prod.fst same)).1
  have answer := (means { Reading.start with expect := .value } rfl).symm.trans
    (meansOther { Reading.start with expect := .value } rfl)
  have rows : [value] = [value'] := congrArg Reading.row (Option.some.inj answer)
  exact (List.cons.inj rows).1

/-! ## Rows -/

/-- Literals with commas between them. -/
def joinTexts : List (List Char) → List Char
  | [] => []
  | [text] => text
  | text :: texts => text ++ ',' :: ' ' :: joinTexts texts

def rowText (texts : List (List Char)) : List Char :=
  '(' :: (joinTexts texts ++ [')'])

/-- A printed row is read as its values. -/
theorem read_row {texts : List (List Char)} {values : List Value}
    (prints : List.Forall₂ Prints texts values) (some_ : texts ≠ []) :
    ∃ ts, (∀ rest, lex .between (joinTexts texts ++ ')' :: rest) =
        (ts ++ (lex .between rest).1, (lex .between rest).2)) ∧
      ∀ r : Reading, r.expect = .value → ts.foldlM readToken r = some
        { r with
          expect := .rowEnd
          row := r.row ++ values
          rows := r.rows ++ [r.row ++ values] } := by
  induction prints with
  | nil => exact absurd rfl some_
  | @cons text value texts values first others ih =>
      rcases first with ⟨token, read, means⟩
      cases others with
      | nil =>
          refine ⟨[token, .symbol ')'], ?_, ?_⟩
          · intro rest
            exact read ')' rest (Or.inr rfl)
          · intro r expect
            simp only [List.foldlM_cons, means r expect, List.foldlM_nil]
            rfl
      | @cons text' value' texts values second others =>
          rcases ih (List.cons_ne_nil _ _) with ⟨ts, tail, means'⟩
          refine ⟨token :: .symbol ',' :: ts, ?_, ?_⟩
          · intro rest
            have space (text : List Char) : lex .between (' ' :: text) = lex .between text := rfl
            have join : joinTexts (text :: text' :: texts) =
                text ++ ',' :: ' ' :: joinTexts (text' :: texts) := rfl
            rw [join, List.append_assoc, List.cons_append, List.cons_append,
              read ',' _ (Or.inl rfl), space, tail rest]
            rfl
          · intro r expect
            have comma : readToken { r with expect := .valueEnd, row := r.row ++ [value] }
                (.symbol ',') = some { r with expect := .value, row := r.row ++ [value] } := rfl
            simp only [List.foldlM_cons, means r expect, Option.bind_eq_bind, Option.bind_some,
              comma]
            rw [means' _ rfl]
            simp

/-- A text that leaves the reader in front of the first row. -/
def Opens (head table : List Char) (columns : List (List Char)) : Prop :=
  ∃ ts, (∀ rest, lex .between (head ++ rest) =
      (ts ++ (lex .between rest).1, (lex .between rest).2)) ∧
    ts.foldlM readToken Reading.start = some ⟨.rowOpen, table, columns, [], []⟩

/-- The tokens of a list of columns behind its bracket. -/
def columnTokens : List (List Char) → List Token
  | [] => []
  | [column] => [.name column, .symbol ')']
  | column :: columns => .name column :: .symbol ',' :: columnTokens columns

theorem read_columns {table : List Char} {columns : List (List Char)} (some_ : columns ≠ []) :
    ∀ acc, (columnTokens columns).foldlM readToken ⟨.column, table, acc, [], []⟩ =
      some ⟨.values, table, acc ++ columns, [], []⟩ := by
  induction columns with
  | nil => exact absurd rfl some_
  | cons column columns ih =>
      intro acc
      cases columns with
      | nil => rfl
      | cons next columns =>
          have name : readToken ⟨.column, table, acc, [], []⟩ (.name column) =
              some ⟨.columnEnd, table, acc ++ [column], [], []⟩ := rfl
          have comma : readToken ⟨.columnEnd, table, acc ++ [column], [], []⟩ (.symbol ',') =
              some ⟨.column, table, acc ++ [column], [], []⟩ := rfl
          rw [columnTokens, List.foldlM_cons, name, Option.bind_eq_bind, Option.bind_some,
            List.foldlM_cons, comma, Option.bind_eq_bind, Option.bind_some,
            ih (List.cons_ne_nil _ _), List.append_assoc]
          rfl
          exact List.cons_ne_nil _ _ ∘ fun same => same

/-- A head is put together from the text up to the number of the table, the number,
and the text from the backquote on. -/
theorem opens_of_parts {front stem number back table : List Char} {columns : List (List Char)}
    (front_ : lex .between front = ([.word "INSERT".toList, .word "INTO".toList], .name stem))
    (number_ : lex (.name stem) number = ([], .name table))
    (back_ : lex .between back =
      (.symbol '(' :: (columnTokens columns ++ [.word "VALUES".toList]), .between))
    (some_ : columns ≠ []) : Opens (front ++ number ++ '`' :: back) table columns := by
  refine ⟨[.word "INSERT".toList, .word "INTO".toList, .name table, .symbol '('] ++
    (columnTokens columns ++ [.word "VALUES".toList]), ?_, ?_⟩
  · intro rest
    have close (text : List Char) : lex (.name table) ('`' :: text) =
        (.name table :: (lex .between text).1, (lex .between text).2) := rfl
    rw [List.append_assoc, List.append_assoc, lex_append, front_, lex_append, number_]
    simp only [List.cons_append, close]
    rw [lex_append, back_]
    simp
  · have start : [Token.word "INSERT".toList, .word "INTO".toList, .name table,
        .symbol '('].foldlM readToken Reading.start = some ⟨.column, table, [], [], []⟩ := rfl
    rw [List.foldlM_append, start, Option.bind_eq_bind, Option.bind_some, List.foldlM_append,
      read_columns some_, Option.bind_eq_bind, Option.bind_some]
    rfl

/-- The statement so far: more rows may follow. -/
def Carries (text table : List Char) (columns : List (List Char)) (rows : List (List Value)) :
    Prop :=
  ∃ ts row, (∀ rest, lex .between (text ++ rest) =
      (ts ++ (lex .between rest).1, (lex .between rest).2)) ∧
    ts.foldlM readToken Reading.start = some ⟨.rowEnd, table, columns, rows, row⟩

variable {head table : List Char} {columns : List (List Char)} {rows : List (List Value)}
  {texts : List (List Char)} {values : List Value}

/-- The first row. -/
theorem Opens.row (opens : Opens head table columns) (prints : List.Forall₂ Prints texts values)
    (some_ : texts ≠ []) : Carries (head ++ rowText texts) table columns [values] := by
  rcases opens with ⟨ts, read, means⟩
  rcases read_row prints some_ with ⟨ts', read', means'⟩
  refine ⟨ts ++ .symbol '(' :: ts', values, ?_, ?_⟩
  · intro rest
    have bracket (text : List Char) : lex .between ('(' :: text) =
        (.symbol '(' :: (lex .between text).1, (lex .between text).2) := rfl
    rw [List.append_assoc, read, rowText, List.cons_append, List.append_assoc,
      List.singleton_append, bracket, read']
    simp
  · have bracket : readToken ⟨.rowOpen, table, columns, [], []⟩ (.symbol '(') =
        some ⟨.value, table, columns, [], []⟩ := rfl
    rw [List.foldlM_append, means, Option.bind_eq_bind, Option.bind_some, List.foldlM_cons, bracket,
      Option.bind_eq_bind, Option.bind_some, means' _ rfl]
    rfl

/-- One more row. -/
theorem Carries.row (holds : Carries text table columns rows)
    (prints : List.Forall₂ Prints texts values) (some_ : texts ≠ []) :
    Carries (text ++ ',' :: ' ' :: rowText texts) table columns (rows ++ [values]) := by
  rcases holds with ⟨ts, row, read, means⟩
  rcases read_row prints some_ with ⟨ts', read', means'⟩
  refine ⟨ts ++ .symbol ',' :: .symbol '(' :: ts', values, ?_, ?_⟩
  · intro rest
    have between (text : List Char) : lex .between (',' :: ' ' :: '(' :: text) =
        (.symbol ',' :: .symbol '(' :: (lex .between text).1, (lex .between text).2) := rfl
    rw [List.append_assoc, read, rowText, List.cons_append, List.cons_append, List.cons_append,
      List.append_assoc, List.singleton_append, between, read']
    simp
  · have comma : readToken ⟨.rowEnd, table, columns, rows, row⟩ (.symbol ',') =
        some ⟨.rowOpen, table, columns, rows, row⟩ := rfl
    have bracket : readToken ⟨.rowOpen, table, columns, rows, row⟩ (.symbol '(') =
        some ⟨.value, table, columns, rows, []⟩ := rfl
    rw [List.foldlM_append, means, Option.bind_eq_bind, Option.bind_some, List.foldlM_cons, comma,
      Option.bind_eq_bind, Option.bind_some, List.foldlM_cons, bracket, Option.bind_eq_bind,
      Option.bind_some, means' _ rfl]
    rfl

/-- What is read of the whole text. -/
theorem Carries.readInsert (holds : Carries text table columns rows)
    (full : ∀ row ∈ rows, row.length = columns.length) :
    readInsert text = some ⟨table, columns, rows⟩ := by
  rcases holds with ⟨ts, row, read, means⟩
  have whole := read []
  rw [List.append_nil] at whole
  have split : tokens text = some ts := by
    unfold tokens
    rw [whole]
    simp [lexEnd]
  unfold Sql.readInsert
  rw [split, Option.bind_eq_bind, Option.bind_some, means, Option.bind_eq_bind, Option.bind_some]
  unfold Reading.finish
  rw [if_pos ⟨rfl, full⟩]

end ViabtcServer.Sql
