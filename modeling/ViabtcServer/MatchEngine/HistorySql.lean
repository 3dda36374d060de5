import ViabtcServer.Decimal.Alike
import ViabtcServer.Decimal.Column
import ViabtcServer.MatchEngine.Writers
import ViabtcServer.Sql.Print

/-!
# The text of the history

`me_history.c` grows one statement for each table, row by row. Names, sources and
businesses go into it as they are, and only details are escaped. A row is read as what
was appended precisely when every text that is not escaped stands for itself between
quotes.
-/

namespace ViabtcServer.MatchEngine

open Decimal Container Network Sql

/-! ## Printing -/

/-- `json_dumps`. -/
class JsonText where
  jsonDumps : Detail → String

/-- The client library of MySQL and its server. -/
class MysqlText where
  mysqlRealEscapeString : List Char → List Char
  /-- The number a decimal column is given with a string. -/
  mysqlDecimal : List Char → Option ℚ

export JsonText (jsonDumps)
export MysqlText (mysqlRealEscapeString mysqlDecimal)

/-- The size of `buf` in `append_user_balance`. -/
def escapeBufSize : ℕ := 10 * 1024

/-- What `sdscatprintf` and `sql_append_mpd` print of a value. -/
inductive Field
  /-- `NULL`. -/
  | null
  /-- `%u`, `%d` and `%" PRIu64 "`. -/
  | natural (n : ℕ)
  /-- `%f`. -/
  | time (t : Time)
  /-- `'%s'`. -/
  | quoted (text : String)
  /-- `'%s'` of what `mysql_real_escape_string` makes of it. -/
  | escaped (text : String)

/-- The six digits behind the point. -/
def sixDigits (n : ℕ) : List Char :=
  [n / 100000, n / 10000, n / 1000, n / 100, n / 10, n].map fun d => (d % 10).digitChar

/-- A number of seconds with `%f`. -/
def timeText (t : Time) : List Char :=
  Nat.toDigits 10 (t / 1000000) ++ '.' :: sixDigits (t % 1000000)

/-- The code of an order type. -/
def OrderType.code : OrderType → ℕ
  | .limit => 1
  | .market => 2

/-- The code of a role. -/
def Role.code : Role → ℕ
  | .maker => 1
  | .taker => 2

section Text

variable [DecimalText] [JsonText] [MysqlText]

def Field.text : Field → List Char
  | .null => "NULL".toList
  | .natural n => Nat.toDigits 10 n
  | .time t => timeText t
  | .quoted text => '\'' :: (text.toList ++ ['\''])
  | .escaped text => '\'' :: (mysqlRealEscapeString text.toList ++ ['\''])

/-- `sql_append_mpd`. -/
def mpdField (val : Mpd) : Field :=
  .quoted (mpdToSci val)

/-- What `printf` makes of a source; it prints `NULL` as `(null)`. -/
def sourceField (source : Option String) : Field :=
  .quoted (source.getD "(null)")

/-- The fields `append_user_order` and `append_order_detail` print. -/
def Order.fields (order : Order) : List Field :=
  [.natural order.id, .time order.createTime, .time order.updateTime, .natural order.userId,
    .quoted order.market, sourceField order.source, .natural order.type.code,
    .natural order.side.code, mpdField order.price, mpdField order.amount, mpdField order.takerFee,
    mpdField order.makerFee, mpdField order.dealStock, mpdField order.dealMoney,
    mpdField order.dealFee]

/-- The fields of a row, as the five append functions print them. -/
def HistoryRow.fields : HistoryRow → List Field
  | userBalance t userId asset business change balance detail =>
      [.null, .time t, .natural userId, .quoted asset, .quoted business, mpdField change,
        mpdField balance, .escaped (jsonDumps detail)]
  | userOrder order => order.fields
  | userDeal t userId market dealId orderId dealOrderId side role price amount deal fee dealFee =>
      [.null, .time t, .natural userId, .quoted market, .natural dealId, .natural orderId,
        .natural dealOrderId, .natural side.code, .natural role.code, mpdField price,
        mpdField amount, mpdField deal, mpdField fee, mpdField dealFee]
  | orderDetail order => order.fields
  | orderDeal t userId dealId orderId dealOrderId role price amount deal fee dealFee =>
      [.null, .time t, .natural userId, .natural dealId, .natural orderId, .natural dealOrderId,
        .natural role.code, mpdField price, mpdField amount, mpdField deal, mpdField fee,
        mpdField dealFee]

def HistoryRow.text (row : HistoryRow) : List Char :=
  rowText (row.fields.map Field.text)

/-- The beginning of a statement, up to the number of its table. -/
def HistoryType.insertInto : HistoryType → String
  | .userBalance => "INSERT INTO `balance_history_"
  | .userOrder => "INSERT INTO `order_history_"
  | .userDeal => "INSERT INTO `user_deal_history_"
  | .orderDetail => "INSERT INTO `order_detail_"
  | .orderDeal => "INSERT INTO `deal_history_"

/-- The beginning of a statement behind the number. -/
def HistoryType.values : HistoryType → String
  | .userBalance => "` (`id`, `time`, `user_id`, `asset`, `business`, `change`, `balance`, " ++
      "`detail`) VALUES "
  | .userOrder => "` (`id`, `create_time`, `finish_time`, `user_id`, " ++
      "`market`, `source`, `t`, `side`, `price`, `amount`, `taker_fee`, `maker_fee`, " ++
      "`deal_stock`, `deal_money`, `deal_fee`) VALUES "
  | .userDeal => "` (`id`, `time`, `user_id`, `market`, `deal_id`, `order_id`, " ++
      "`deal_order_id`, `side`, `role`, `price`, `amount`, `deal`, `fee`, `deal_fee`) VALUES "
  | .orderDetail => "` (`id`, `create_time`, `finish_time`, `user_id`, " ++
      "`market`, `source`, `t`, `side`, `price`, `amount`, `taker_fee`, `maker_fee`, " ++
      "`deal_stock`, `deal_money`, `deal_fee`) VALUES "
  | .orderDeal => "` (`id`, `time`, `user_id`, `deal_id`, `order_id`, `deal_order_id`, " ++
      "`role`, `price`, `amount`, `deal`, `fee`, `deal_fee`) VALUES "

def HistoryKey.head (key : HistoryKey) : List Char :=
  key.type.insertInto.toList ++ Nat.toDigits 10 key.hash ++ key.type.values.toList

/-- The statement `sql` with one more row. -/
def appendText (key : HistoryKey) (sql : List Char) (row : HistoryRow) : List Char :=
  (if sql.length = 0 then key.head else sql ++ ", ".toList) ++ row.text

/-- `mysql_real_escape_string` writes behind the end of `buf`. -/
def HistoryRow.Overflows : HistoryRow → Prop
  | userBalance _ _ _ _ _ _ detail =>
      escapeBufSize <
        (String.ofList (mysqlRealEscapeString (jsonDumps detail).toList)).utf8ByteSize + 1
  | _ => False

instance : (row : HistoryRow) → Decidable row.Overflows
  | .userBalance .. => inferInstanceAs (Decidable (_ < _))
  | .userOrder _ => inferInstanceAs (Decidable False)
  | .userDeal .. => inferInstanceAs (Decidable False)
  | .orderDetail _ => inferInstanceAs (Decidable False)
  | .orderDeal .. => inferInstanceAs (Decidable False)

end Text

/-! ## The writer -/

/-- The variables `dict_sql` and `job`. -/
structure SqlWriter where
  dictSql : Dict HistoryKey (List Char)
  job : Job (List Char)

/-- `get_sql`: the statement of a key, which is empty at first. -/
def getSql (dictSql : Dict HistoryKey (List Char)) (key : HistoryKey) :
    Dict HistoryKey (List Char) × List Char :=
  match dictFind dictSql key with
  | some sql => (dictSql, sql)
  | none => ((dictAdd dictSql key []).getD dictSql, [])

/-- `set_sql`. -/
def setSql (dictSql : Dict HistoryKey (List Char)) (key : HistoryKey) (sql : List Char) :
    Dict HistoryKey (List Char) :=
  match dictFind dictSql key with
  | some _ => dictReplace dictSql key sql
  | none => dictSql

namespace SqlWriter

/-- `init_history`. -/
def init (historyThread : ℕ) : SqlWriter where
  dictSql := ∅
  job := nwJobCreate historyThread

/-- The five append functions. Nothing is known of a process whose buffer overflows. -/
def append [DecimalText] [JsonText] [MysqlText] (w : SqlWriter) (row : HistoryRow) :
    Option SqlWriter :=
  if row.Overflows then none
  else
    let (dictSql, sql) := getSql w.dictSql row.key
    some { w with dictSql := setSql dictSql row.key (appendText row.key sql row) }

/-- The loop of `on_timer`. -/
def flush (between : HistoryKey → List ℕ) :
    List (Sigma fun _ : HistoryKey => List Char) → Job (List Char) → Job (List Char)
  | [], job => job
  | ⟨key, sql⟩ :: rest, job => flush between rest ((nwJobAdd job sql).turns (between key))

/-- `on_timer`. -/
def onTimer (w : SqlWriter) (between : HistoryKey → List ℕ) : SqlWriter where
  dictSql := ∅
  job := flush between w.dictSql.entries w.job

def step [DecimalText] [JsonText] [MysqlText] (w : SqlWriter) : HistoryEvent → Option SqlWriter
  | .append row => w.append row
  | .timer between => some (w.onTimer between)
  | .turn thread => some { w with job := w.job.turns [thread] }

def run [DecimalText] [JsonText] [MysqlText] (w : SqlWriter) (events : List HistoryEvent) :
    Option SqlWriter :=
  events.foldlM step w

end SqlWriter

/-! ## What the rows say -/

section Meaning

variable [DecimalText] [JsonText]

/-- The name of a table up to its number. -/
def HistoryType.prefixName : HistoryType → String
  | .userBalance => "balance_history_"
  | .userOrder => "order_history_"
  | .userDeal => "user_deal_history_"
  | .orderDetail => "order_detail_"
  | .orderDeal => "deal_history_"

/-- The table of a key. -/
def HistoryKey.table (key : HistoryKey) : List Char :=
  key.type.prefixName.toList ++ Nat.toDigits 10 key.hash

def HistoryType.columns (type : HistoryType) : List (List Char) :=
  let names := match type with
    | .userBalance => ["id", "time", "user_id", "asset", "business", "change", "balance", "detail"]
    | .userOrder | .orderDetail =>
        ["id", "create_time", "finish_time", "user_id", "market", "source", "t", "side", "price",
          "amount", "taker_fee", "maker_fee", "deal_stock", "deal_money", "deal_fee"]
    | .userDeal =>
        ["id", "time", "user_id", "market", "deal_id", "order_id", "deal_order_id", "side", "role",
          "price", "amount", "deal", "fee", "deal_fee"]
    | .orderDeal =>
        ["id", "time", "user_id", "deal_id", "order_id", "deal_order_id", "role", "price",
          "amount", "deal", "fee", "deal_fee"]
  names.map String.toList

def naturalValue (n : ℕ) : Value := .number n

/-- Seconds. -/
def timeValue (t : Time) : Value := .number ((t : ℚ) / 1000000)

def textValue (text : String) : Value := .string text.toList

def mpdValue (val : Mpd) : Value := .string (mpdToSci val).toList

/-- The values of an order; one without a source has none in the database. -/
def Order.values (order : Order) : List Value :=
  [naturalValue order.id, timeValue order.createTime, timeValue order.updateTime,
    naturalValue order.userId, textValue order.market, (order.source.map textValue).getD .null,
    naturalValue order.type.code, naturalValue order.side.code, mpdValue order.price,
    mpdValue order.amount, mpdValue order.takerFee, mpdValue order.makerFee,
    mpdValue order.dealStock, mpdValue order.dealMoney, mpdValue order.dealFee]

def HistoryRow.values : HistoryRow → List Value
  | userBalance t userId asset business change balance detail =>
      [.null, timeValue t, naturalValue userId, textValue asset, textValue business,
        mpdValue change, mpdValue balance, textValue (jsonDumps detail)]
  | userOrder order => order.values
  | userDeal t userId market dealId orderId dealOrderId side role price amount deal fee dealFee =>
      [.null, timeValue t, naturalValue userId, textValue market, naturalValue dealId,
        naturalValue orderId, naturalValue dealOrderId, naturalValue side.code,
        naturalValue role.code, mpdValue price, mpdValue amount, mpdValue deal, mpdValue fee,
        mpdValue dealFee]
  | orderDetail order => order.values
  | orderDeal t userId dealId orderId dealOrderId role price amount deal fee dealFee =>
      [.null, timeValue t, naturalValue userId, naturalValue dealId, naturalValue orderId,
        naturalValue dealOrderId, naturalValue role.code, mpdValue price, mpdValue amount,
        mpdValue deal, mpdValue fee, mpdValue dealFee]

/-- What a statement about the history should say. -/
def HistoryStatement.insert (statement : HistoryStatement) : Insert where
  table := statement.key.table
  columns := statement.key.type.columns
  rows := statement.rows.map HistoryRow.values

/-- One statement for each table that has rows, with all of them in order. -/
def Batches (since : List HistoryRow) (statements : List HistoryStatement) : Prop :=
  (statements.map HistoryStatement.key).Nodup ∧
    ∀ key rows, (⟨key, rows⟩ : HistoryStatement) ∈ statements ↔
      rows = since.filter (fun row => row.key = key) ∧ rows ≠ []

/-- The statements of a run: each timer makes the batches of the rows appended since
the one before. -/
def HandedOver : List HistoryRow → List HistoryEvent → List HistoryStatement → Prop
  | _, [], statements => statements = []
  | since, .append row :: events, statements => HandedOver (since ++ [row]) events statements
  | since, .turn _ :: events, statements => HandedOver since events statements
  | since, .timer _ :: events, statements => ∃ batch later, statements = batch ++ later ∧
      Batches since batch ∧ HandedOver [] events later

/-- The texts of an order that go into a statement as they are stand for themselves,
and it has a source. -/
def Order.Plain (order : Order) : Prop :=
  plain order.market.toList = true ∧
    ∃ source, order.source = some source ∧ plain source.toList = true

def HistoryRow.Plain : HistoryRow → Prop
  | userBalance _ _ asset business .. =>
      plain asset.toList = true ∧ plain business.toList = true
  | userOrder order => order.Plain
  | userDeal _ _ market .. => plain market.toList = true
  | orderDetail order => order.Plain
  | orderDeal .. => True

/-! ## What the tables take -/

/-- The columns of `create_trade_history.sql`. -/
inductive ColumnType
  /-- A number the server gives. -/
  | serial
  | unsigned (bits : ℕ)
  | double
  | varchar (most : ℕ)
  | decimal (scale : ℕ)
  | text

/-- The charset `utf8` has three bytes for a character. -/
def isUtf8mb3 (c : Char) : Bool :=
  c.val < 0x10000

/-- The most bytes of a `TEXT`. -/
def textBytes : ℕ := 65535

/-- What the server takes in strict mode; it refuses a statement with any other value. -/
def ColumnType.Takes [MysqlText] : ColumnType → Value → Prop
  | .serial, .null => True
  | .unsigned bits, .number q => ∃ n : ℕ, q = n ∧ n < 2 ^ bits
  | .double, .number _ => True
  | .varchar most, .string chars => chars.length ≤ most ∧ chars.all isUtf8mb3 = true
  | .decimal scale, .string chars =>
      ∃ q, mysqlDecimal chars = some q ∧ |columnRound scale q| < 10 ^ columnDigits
  | .text, .string chars =>
      (String.ofList chars).utf8ByteSize ≤ textBytes ∧ chars.all isUtf8mb3 = true
  | _, _ => False

def HistoryType.columnTypes : HistoryType → List ColumnType
  | userBalance =>
      [.serial, .double, .unsigned 32, .varchar 30, .varchar 30, .decimal 8, .decimal 16, .text]
  | userOrder | orderDetail =>
      [.unsigned 64, .double, .double, .unsigned 32, .varchar 30, .varchar 30, .unsigned 8,
        .unsigned 8, .decimal 8, .decimal 8, .decimal 4, .decimal 4, .decimal 8, .decimal 16,
        .decimal 16]
  | userDeal =>
      [.serial, .double, .unsigned 32, .varchar 30, .unsigned 64, .unsigned 64, .unsigned 64,
        .unsigned 8, .unsigned 8, .decimal 8, .decimal 8, .decimal 16, .decimal 16, .decimal 16]
  | orderDeal =>
      [.serial, .double, .unsigned 32, .unsigned 64, .unsigned 64, .unsigned 64, .unsigned 8,
        .decimal 8, .decimal 8, .decimal 16, .decimal 16, .decimal 16]

/-- The table of `type` takes all rows of the statement; `on_job` sends any other
statement again and again. -/
def Taken [MysqlText] (type : HistoryType) (insert : Insert) : Prop :=
  ∀ values ∈ insert.rows, List.Forall₂ ColumnType.Takes type.columnTypes values

/-- The row stands for itself, its values fit the columns, and its detail leaves the
buffer room. -/
structure HistoryRow.Fits [MysqlText] (row : HistoryRow) : Prop where
  room : ¬ row.Overflows
  plain : row.Plain
  taken : List.Forall₂ ColumnType.Takes row.key.type.columnTypes row.values

end Meaning

/-- What is known of the libraries: a number has no quote in its text, and what has
been escaped is read as it was. -/
class PlainText [DecimalText] [MysqlText] : Prop where
  plain_mpd : ∀ a : Mpd, plain (mpdToSci a).toList = true
  lex_escape : ∀ text : List Char,
    lex (.string []) (mysqlRealEscapeString text) = ([], .string text)

/-! ## What is printed -/

theorem isWordChar_of_isDigit {c : Char} (digit : c.isDigit = true) : isWordChar c = true := by
  simp [isWordChar, Char.isAlphanum, digit]

theorem toUpper_of_isDigit {c : Char} (digit : c.isDigit = true) : c.toUpper = c := by
  unfold Char.toUpper
  rw [dif_neg]
  simp only [Char.isDigit, Bool.and_eq_true, decide_eq_true_eq] at digit
  rintro ⟨below, _⟩
  exact absurd (UInt32.le_trans below digit.2) (by decide)

theorem isDigit_toDigits' (n : ℕ) : ∀ c ∈ Nat.toDigits 10 n, c.isDigit = true :=
  fun _ mem => Nat.isDigit_of_mem_toDigits (by decide) (by decide) mem

theorem not_keyword {text : List Char} (head : ∃ c rest, text = c :: rest ∧ c.isDigit = true) :
    isKeyword text "NULL" = false := by
  rcases head with ⟨c, rest, rfl, digit⟩
  have other : c.toUpper ≠ 'N' := by
    rw [toUpper_of_isDigit digit]
    rintro rfl
    cases digit
  simp [isKeyword, other]

theorem toDigits_head (n : ℕ) : ∃ c rest, Nat.toDigits 10 n = c :: rest ∧ c.isDigit = true := by
  rcases List.exists_cons_of_ne_nil (@Nat.toDigits_ne_nil n 10) with ⟨c, rest, same⟩
  refine ⟨c, rest, same, isDigit_toDigits' n c ?_⟩
  rw [same]
  exact List.mem_cons_self

theorem takeWhile_digits {digits rest : List Char} (all : ∀ c ∈ digits, c.isDigit = true) :
    (digits ++ '.' :: rest).takeWhile (· ≠ '.') = digits ∧
      (digits ++ '.' :: rest).dropWhile (· ≠ '.') = '.' :: rest := by
  have noPoint : ∀ c ∈ digits, decide (c ≠ '.') = true := by
    intro c mem
    apply decide_eq_true
    rintro rfl
    cases all _ mem
  constructor
  · rw [List.takeWhile_append_of_pos noPoint]
    simp
  · rw [List.dropWhile_append_of_pos noPoint]
    simp

theorem decimalValue_toDigits (n : ℕ) : decimalValue (Nat.toDigits 10 n) = some n := by
  have noPoint : ∀ c ∈ Nat.toDigits 10 n, decide (c ≠ '.') = true := by
    intro c mem
    apply decide_eq_true
    rintro rfl
    cases isDigit_toDigits' n _ mem
  have whole : (Nat.toDigits 10 n).takeWhile (· ≠ '.') = Nat.toDigits 10 n :=
    List.takeWhile_eq_self_iff.mpr noPoint
  have nothing : (Nat.toDigits 10 n).dropWhile (· ≠ '.') = [] :=
    List.dropWhile_eq_nil_iff.mpr noPoint
  have digits : (Nat.toDigits 10 n).all Char.isDigit = true :=
    List.all_eq_true.mpr (isDigit_toDigits' n)
  unfold decimalValue
  simp only [whole, nothing, List.tail_nil, List.append_nil, digits]
  rw [if_pos ⟨Nat.toDigits_ne_nil, trivial⟩]
  simp

theorem isDigit_sixDigits (n : ℕ) : ∀ c ∈ sixDigits n, c.isDigit = true := by
  intro c mem
  rcases List.mem_map.mp mem with ⟨d, _, rfl⟩
  rw [Nat.isDigit_digitChar]
  exact decide_eq_true (Nat.mod_lt d (by decide))

theorem ofDigitChars_sixDigits {n : ℕ} (small : n < 1000000) (init : ℕ) :
    Nat.ofDigitChars 10 (sixDigits n) init = 1000000 * init + n := by
  have digit (d : ℕ) : d % 10 < 10 := Nat.mod_lt d (by decide)
  simp only [sixDigits, List.map_cons, List.map_nil,
    Nat.ofDigitChars_cons_digitChar_of_lt_ten (digit _), Nat.ofDigitChars_nil]
  omega

theorem decimalValue_timeText (t : Time) :
    decimalValue (timeText t) = some ((t : ℚ) / 1000000) := by
  rcases @takeWhile_digits (Nat.toDigits 10 (t / 1000000)) (sixDigits (t % 1000000))
    (isDigit_toDigits' _) with ⟨whole, fraction⟩
  have digits : (Nat.toDigits 10 (t / 1000000) ++ sixDigits (t % 1000000)).all Char.isDigit =
      true := by
    rw [List.all_append, List.all_eq_true.mpr (isDigit_toDigits' _),
      List.all_eq_true.mpr (isDigit_sixDigits _)]
    rfl
  have read : Nat.ofDigitChars 10
      (Nat.toDigits 10 (t / 1000000) ++ sixDigits (t % 1000000)) 0 = t := by
    rw [Nat.ofDigitChars_append, Nat.ofDigitChars_ten_toDigits,
      ofDigitChars_sixDigits (Nat.mod_lt t (by decide))]
    omega
  have six : (sixDigits (t % 1000000)).length = 6 := rfl
  unfold decimalValue timeText
  simp only [whole, fraction, List.tail_cons, digits, read, six]
  rw [if_pos ⟨fun none_ => Nat.toDigits_ne_nil (List.append_eq_nil_iff.mp none_).1, trivial⟩]
  norm_num

/-- Digits and a point are read as the number. -/
theorem prints_decimal {text : List Char} {value : ℚ}
    (all : ∀ c ∈ text, c.isDigit = true ∨ c = '.')
    (head : ∃ c rest, text = c :: rest ∧ c.isDigit = true)
    (means : decimalValue text = some value) : Prints text (.number value) := by
  apply prints_word
  · rcases head with ⟨c, rest, rfl, _⟩
    exact List.cons_ne_nil _ _
  · intro c mem
    rcases all c mem with digit | rfl
    · exact isWordChar_of_isDigit digit
    · rfl
  · unfold wordValue
    rw [not_keyword head, means]
    rfl

theorem prints_natural (n : ℕ) : Prints (Nat.toDigits 10 n) (naturalValue n) :=
  prints_decimal (fun c mem => Or.inl (isDigit_toDigits' n c mem)) (toDigits_head n)
    (decimalValue_toDigits n)

theorem prints_time (t : Time) : Prints (timeText t) (timeValue t) := by
  apply prints_decimal _ _ (decimalValue_timeText t)
  · intro c mem
    rcases List.mem_append.mp mem with whole | rest
    · exact Or.inl (isDigit_toDigits' _ c whole)
    · rcases List.mem_cons.mp rest with point | fraction
      · exact Or.inr point
      · exact Or.inl (isDigit_sixDigits _ c fraction)
  · rcases toDigits_head (t / 1000000) with ⟨c, rest, same, digit⟩
    exact ⟨c, rest ++ '.' :: sixDigits (t % 1000000), by rw [timeText, same]; rfl, digit⟩

theorem prints_null : Prints "NULL".toList .null :=
  prints_word (by decide) (List.all_eq_true.mp (by decide)) rfl

section Rows

variable [DecimalText] [JsonText] [MysqlText]

omit [DecimalText] [JsonText] in
/-- A text that is not escaped is read as itself precisely when it is plain. -/
theorem prints_quoted_iff {text : String} :
    Prints (Field.quoted text).text (textValue text) ↔ plain text.toList = true :=
  prints_string_iff.trans lex_string_iff

variable [PlainText]

omit [JsonText] in
theorem prints_mpd (val : Mpd) : Prints (mpdField val).text (mpdValue val) :=
  prints_quoted_iff.mpr (PlainText.plain_mpd val)

omit [JsonText] in
theorem prints_escaped (text : String) : Prints (Field.escaped text).text (textValue text) :=
  prints_string (PlainText.lex_escape text.toList)

omit [DecimalText] [JsonText] [PlainText] in
/-- A source that is missing is printed as a text. -/
theorem prints_source_iff {source : Option String} :
    Prints (sourceField source).text ((source.map textValue).getD .null) ↔
      ∃ text, source = some text ∧ plain text.toList = true := by
  cases source with
  | none =>
      constructor
      · intro prints
        exact absurd (prints.unique (prints_quoted_iff.mpr (by decide))) nofun
      · rintro ⟨text, missing, _⟩
        cases missing
  | some text =>
      constructor
      · intro prints
        exact ⟨text, rfl, prints_quoted_iff.mp prints⟩
      · rintro ⟨_, same, plain_⟩
        obtain rfl := Option.some.inj same
        exact prints_quoted_iff.mpr plain_

omit [JsonText] in
theorem Order.prints_iff {order : Order} :
    List.Forall₂ Prints (order.fields.map Field.text) order.values ↔ order.Plain := by
  unfold Order.fields Order.values
  simp only [List.map_cons, List.map_nil, List.forall₂_cons, prints_mpd]
  exact ⟨fun ⟨_, _, _, _, market, source, _⟩ =>
      ⟨prints_quoted_iff.mp market, prints_source_iff.mp source⟩,
    fun ⟨market, source⟩ => ⟨prints_natural _, prints_time _, prints_time _, prints_natural _,
      prints_quoted_iff.mpr market, prints_source_iff.mpr source, prints_natural _,
      prints_natural _, trivial, trivial, trivial, trivial, trivial, trivial, trivial, .nil⟩⟩

/-- The printed row is read as the row precisely when its texts stand for themselves. -/
theorem HistoryRow.prints_iff {row : HistoryRow} :
    List.Forall₂ Prints (row.fields.map Field.text) row.values ↔ row.Plain := by
  cases row with
  | userBalance t userId asset business change balance detail =>
      simp only [HistoryRow.fields, HistoryRow.values, List.map_cons, List.map_nil,
        List.forall₂_cons, prints_mpd]
      exact ⟨fun ⟨_, _, _, asset, business, _⟩ =>
          ⟨prints_quoted_iff.mp asset, prints_quoted_iff.mp business⟩,
        fun ⟨asset, business⟩ => ⟨prints_null, prints_time _, prints_natural _,
          prints_quoted_iff.mpr asset, prints_quoted_iff.mpr business, trivial, trivial,
          prints_escaped _, .nil⟩⟩
  | userOrder order => exact Order.prints_iff
  | userDeal t userId market dealId orderId dealOrderId side role price amount deal fee dealFee =>
      simp only [HistoryRow.fields, HistoryRow.values, List.map_cons, List.map_nil,
        List.forall₂_cons, prints_mpd]
      exact ⟨fun ⟨_, _, _, market, _⟩ => prints_quoted_iff.mp market,
        fun market => ⟨prints_null, prints_time _, prints_natural _, prints_quoted_iff.mpr market,
          prints_natural _, prints_natural _, prints_natural _, prints_natural _,
          prints_natural _, trivial, trivial, trivial, trivial, trivial, .nil⟩⟩
  | orderDetail order => exact Order.prints_iff
  | orderDeal t userId dealId orderId dealOrderId role price amount deal fee dealFee =>
      simp only [HistoryRow.fields, HistoryRow.values, List.map_cons, List.map_nil,
        List.forall₂_cons, prints_mpd]
      exact ⟨fun _ => trivial, fun _ => ⟨prints_null, prints_time _, prints_natural _,
        prints_natural _, prints_natural _, prints_natural _, prints_natural _, trivial, trivial,
        trivial, trivial, trivial, .nil⟩⟩

omit [MysqlText] [PlainText] in
theorem HistoryRow.values_length (row : HistoryRow) :
    row.values.length = row.key.type.columns.length := by
  cases row <;> rfl

end Rows

/-- The beginning of a statement as far as its table. -/
theorem HistoryType.lex_insertInto (type : HistoryType) :
    lex .between type.insertInto.toList =
      ([.word "INSERT".toList, .word "INTO".toList], .name type.prefixName.toList) := by
  cases type <;> decide +kernel

/-- And from there on. -/
theorem HistoryType.lex_values (type : HistoryType) : ∃ back, type.values.toList = '`' :: back ∧
    lex .between back =
      (.symbol '(' :: (columnTokens type.columns ++ [.word "VALUES".toList]), .between) := by
  refine ⟨type.values.toList.tail, ?_, ?_⟩ <;> cases type <;> decide +kernel

/-- The head of a statement names its table and columns. -/
theorem HistoryKey.opens (key : HistoryKey) : Opens key.head key.table key.type.columns := by
  rcases key.type.lex_values with ⟨back, same, read⟩
  have number : lex (.name key.type.prefixName.toList) (Nat.toDigits 10 key.hash) =
      ([], .name key.table) := by
    apply lex_name
    intro mem
    cases isDigit_toDigits' key.hash _ mem
  unfold HistoryKey.head
  rw [same]
  apply opens_of_parts key.type.lex_insertInto number read
  cases key.type <;> exact List.cons_ne_nil _ _

end ViabtcServer.MatchEngine
