import ViabtcServer.MatchEngine.HistorySql
import ViabtcServer.MatchEngine.Repeat

/-!
# The statements of the history

Between two timers the dictionary holds, for each table, a statement that says the
rows appended so far. A timer hands over what it holds, so that every statement says
the rows since the timer before, as long as each of these rows says itself.
-/

namespace ViabtcServer.MatchEngine

open Decimal Container Network Sql

section Batches

variable [DecimalText] [JsonText] [MysqlText]

/-- The rows of a table among those appended since the last timer. -/
def rowsOf (since : List HistoryRow) (key : HistoryKey) : List HistoryRow :=
  since.filter fun row => row.key = key

/-- The statement a text says, which its table takes. -/
def Says (statement : HistoryStatement) (sql : List Char) : Prop :=
  readInsert sql = some statement.insert ∧ Taken statement.key.type statement.insert

/-- Every statement of the run says the rows appended since the timer before, in
order, and is taken by its table. -/
def ReadsBack (historyThread : ℕ) (events : List HistoryEvent) : Prop :=
  ∃ w, (SqlWriter.init historyThread).run events = some w ∧
    ∃ statements, HandedOver [] events statements ∧ List.Forall₂ Says statements w.job.added

/-- The dictionary holds the rows appended since the last timer. -/
structure SqlWriter.Pending (w : SqlWriter) (since : List HistoryRow) : Prop where
  absent : ∀ {key}, dictFind w.dictSql key = none → rowsOf since key = []
  holds : ∀ {key sql}, dictFind w.dictSql key = some sql →
    rowsOf since key ≠ [] ∧ sql ≠ [] ∧
      Carries sql key.table key.type.columns ((rowsOf since key).map HistoryRow.values)
  taken : ∀ row ∈ since, List.Forall₂ ColumnType.Takes row.key.type.columnTypes row.values

variable {w : SqlWriter} {since : List HistoryRow} {row : HistoryRow} {key : HistoryKey}
  {sql : List Char}

omit [DecimalText] [JsonText] [MysqlText] in
theorem rowsOf_append : rowsOf (since ++ [row]) row.key = rowsOf since row.key ++ [row] := by
  simp [rowsOf]

omit [DecimalText] [JsonText] [MysqlText] in
theorem rowsOf_append_ne (differ : key ≠ row.key) :
    rowsOf (since ++ [row]) key = rowsOf since key := by
  simp [rowsOf, Ne.symm differ]

theorem SqlWriter.Pending.empty (none_ : w.dictSql = ∅) : w.Pending [] := by
  constructor
  · exact fun _ => rfl
  · intro key sql found
    rw [none_, dictFind_empty] at found
    cases found
  · exact fun _ mem => absurd mem List.not_mem_nil

/-- What `get_sql` and `set_sql` come to. -/
theorem SqlWriter.append_eq (room : ¬ row.Overflows) : w.append row = some { w with
    dictSql := dictReplace (getSql w.dictSql row.key).1 row.key
      (appendText row.key (getSql w.dictSql row.key).2 row) } := by
  unfold SqlWriter.append
  rw [if_neg room]
  have present : ∃ sql, dictFind (getSql w.dictSql row.key).1 row.key = some sql := by
    unfold getSql
    cases found : dictFind w.dictSql row.key with
    | some sql => exact ⟨sql, found⟩
    | none =>
        refine ⟨[], ?_⟩
        simp only
        rw [dictAdd_of_fresh found, Option.getD_some, dictFind_replace]
  rcases present with ⟨sql, found⟩
  simp only [setSql, found]

omit [DecimalText] [JsonText] [MysqlText] in
theorem dictFind_getSql (differ : key ≠ row.key) :
    dictFind (getSql w.dictSql row.key).1 key = dictFind w.dictSql key := by
  unfold getSql
  cases found : dictFind w.dictSql row.key with
  | some sql => rfl
  | none =>
      simp only
      rw [dictAdd_of_fresh found, Option.getD_some, dictFind_replace_ne differ]

section Append

variable [PlainText]

omit [PlainText] in
theorem HistoryRow.fields_ne_nil (row : HistoryRow) : row.fields.map Field.text ≠ [] := by
  cases row <;> exact List.cons_ne_nil _ _

/-- The first row of a statement. -/
theorem holds_first (plain_ : row.Plain) :
    Carries (appendText row.key [] row) row.key.table row.key.type.columns [row.values] :=
  row.key.opens.row (HistoryRow.prints_iff.mpr plain_) row.fields_ne_nil

/-- One more row. -/
theorem holds_next {rows : List (List Value)} (some_ : sql ≠ [])
    (holds : Carries sql row.key.table row.key.type.columns rows) (plain_ : row.Plain) :
    Carries (appendText row.key sql row) row.key.table row.key.type.columns
      (rows ++ [row.values]) := by
  have nonempty : sql.length ≠ 0 := fun zero => some_ (List.length_eq_zero_iff.mp zero)
  have next := holds.row (HistoryRow.prints_iff.mpr plain_) row.fields_ne_nil
  unfold appendText
  rw [if_neg nonempty, List.append_assoc]
  exact next

theorem SqlWriter.Pending.append (pending : w.Pending since) (fits : row.Fits) :
    ∃ w', w.append row = some w' ∧ w'.job = w.job ∧ w'.Pending (since ++ [row]) := by
  refine ⟨_, SqlWriter.append_eq fits.room, rfl, ?_, ?_, ?_⟩
  · intro key missing
    by_cases same : key = row.key
    · subst same
      rw [dictFind_replace] at missing
      cases missing
    · rw [dictFind_replace_ne same, dictFind_getSql same] at missing
      rw [rowsOf_append_ne same]
      exact pending.absent missing
  · intro key sql found
    by_cases same : key = row.key
    · subst same
      rw [dictFind_replace] at found
      obtain rfl := Option.some.inj found
      rw [rowsOf_append, List.map_append, List.map_singleton]
      refine ⟨by simp, ?_, ?_⟩
      · simp [appendText, HistoryRow.text, rowText]
      · cases before : dictFind w.dictSql row.key with
        | none =>
            have empty : (getSql w.dictSql row.key).2 = [] := by
              unfold getSql
              rw [before]
            rw [empty, pending.absent before]
            exact holds_first fits.plain
        | some sql =>
            have same : (getSql w.dictSql row.key).2 = sql := by
              unfold getSql
              rw [before]
            rcases pending.holds before with ⟨_, some_, holds⟩
            rw [same]
            exact holds_next some_ holds fits.plain
    · rw [dictFind_replace_ne same, dictFind_getSql same] at found
      rw [rowsOf_append_ne same]
      exact pending.holds found
  · intro other mem
    rcases List.mem_append.mp mem with earlier | new
    · exact pending.taken other earlier
    · obtain rfl := List.mem_singleton.mp new
      exact fits.taken

end Append

/-! ## A timer -/

omit [DecimalText] [JsonText] [MysqlText] in
theorem SqlWriter.flush_added (between : HistoryKey → List ℕ)
    (entries : List (Sigma fun _ : HistoryKey => List Char)) (job : Job (List Char)) :
    (SqlWriter.flush between entries job).added = job.added ++ entries.map Sigma.snd := by
  induction entries generalizing job with
  | nil => exact (List.append_nil _).symm
  | cons entry rest ih =>
      unfold SqlWriter.flush
      rw [ih, Job.turns_added, nwJobAdd, List.map_cons, List.append_assoc]
      rfl

/-- A text of the dictionary says the rows of its table. -/
theorem SqlWriter.Pending.denotes (pending : w.Pending since)
    (found : dictFind w.dictSql key = some sql) : Says ⟨key, rowsOf since key⟩ sql := by
  rcases pending.holds found with ⟨_, _, holds⟩
  have own {row : HistoryRow} (mem : row ∈ rowsOf since key) : row ∈ since ∧ row.key = key := by
    rcases List.mem_filter.mp mem with ⟨earlier, same⟩
    exact ⟨earlier, of_decide_eq_true same⟩
  constructor
  · apply holds.readInsert
    intro values mem
    rcases List.mem_map.mp mem with ⟨row, here, rfl⟩
    rw [row.values_length, (own here).2]
  · intro values mem
    rcases List.mem_map.mp mem with ⟨row, here, rfl⟩
    have takes := pending.taken row (own here).1
    rw [(own here).2] at takes
    exact takes

/-- The statements the timer hands over. -/
def SqlWriter.batch (w : SqlWriter) (since : List HistoryRow) : List HistoryStatement :=
  w.dictSql.entries.map fun entry => ⟨entry.1, rowsOf since entry.1⟩

theorem SqlWriter.Pending.batches (pending : w.Pending since) :
    Batches since (w.batch since) := by
  constructor
  · have keys : (w.batch since).map HistoryStatement.key = w.dictSql.entries.keys := by
      simp [SqlWriter.batch, List.keys]
    rw [keys]
    exact w.dictSql.nodupKeys
  · intro key rows
    constructor
    · intro mem
      rcases List.mem_map.mp mem with ⟨⟨key', sql⟩, here, same⟩
      obtain ⟨rfl, rfl⟩ := HistoryStatement.mk.inj same
      exact ⟨rfl, (pending.holds (mem_entries_iff.mp here)).1⟩
    · rintro ⟨rfl, some_⟩
      cases found : dictFind w.dictSql key with
      | none => exact absurd (pending.absent found) some_
      | some sql => exact List.mem_map.mpr ⟨⟨key, sql⟩, mem_entries_iff.mpr found, rfl⟩

/-- A timer hands over the batches, and nothing is left. -/
theorem SqlWriter.Pending.onTimer (pending : w.Pending since) (between : HistoryKey → List ℕ) :
    (w.onTimer between).Pending [] ∧
      ∃ texts, (w.onTimer between).job.added = w.job.added ++ texts ∧
        List.Forall₂ Says (w.batch since) texts := by
  constructor
  · exact SqlWriter.Pending.empty rfl
  · refine ⟨_, SqlWriter.flush_added between _ _, ?_⟩
    unfold SqlWriter.batch
    rw [List.forall₂_map_left_iff, List.forall₂_map_right_iff, List.forall₂_same]
    intro entry mem
    exact pending.denotes (mem_entries_iff.mp mem)

/-! ## Runs -/

section Run

variable [PlainText] {events : List HistoryEvent}

theorem SqlWriter.Pending.run (pending : w.Pending since)
    (fits : ∀ row, HistoryEvent.append row ∈ events → row.Fits) :
    ∃ w', w.run events = some w' ∧ ∃ statements texts, w'.job.added = w.job.added ++ texts ∧
      HandedOver since events statements ∧ List.Forall₂ Says statements texts := by
  induction events generalizing w since with
  | nil => exact ⟨w, rfl, [], [], (List.append_nil _).symm, rfl, .nil⟩
  | cons event events ih =>
      have later (row : HistoryRow) (mem : HistoryEvent.append row ∈ events) : row.Fits :=
        fits row (List.mem_cons_of_mem _ mem)
      cases event with
      | append row =>
          rcases pending.append (fits row List.mem_cons_self) with ⟨w₁, one, job, pending₁⟩
          rcases ih pending₁ later with ⟨w', run, statements, texts, added, handed, denotes⟩
          refine ⟨w', ?_, statements, texts, ?_, handed, denotes⟩
          · rw [SqlWriter.run, List.foldlM_cons]
            exact (congrArg (· >>= _) one).trans run
          · rw [added, job]
      | timer between =>
          rcases pending.onTimer between with ⟨pending₁, texts₁, added₁, denotes₁⟩
          rcases ih pending₁ later with ⟨w', run, statements, texts, added, handed, denotes⟩
          refine ⟨w', run, w.batch since ++ statements, texts₁ ++ texts, ?_, ?_, ?_⟩
          · rw [added, added₁, List.append_assoc]
          · exact ⟨_, _, rfl, pending.batches, handed⟩
          · exact List.rel_append denotes₁ denotes
      | turn thread =>
          have pending₁ : SqlWriter.Pending { w with job := w.job.turns [thread] } since :=
            ⟨pending.absent, pending.holds, pending.taken⟩
          rcases ih pending₁ later with ⟨w', run, statements, texts, added, handed, denotes⟩
          refine ⟨w', run, statements, texts, ?_, handed, denotes⟩
          rw [added, Job.turns_added]

/-- Whatever is appended and whenever the timer comes: if every row stands for itself
and fits its table, every statement handed over says the rows appended since the
timer before, and is taken. -/
theorem statements_read_back (historyThread : ℕ)
    (fits : ∀ row, HistoryEvent.append row ∈ events → row.Fits) :
    ReadsBack historyThread events := by
  have start : (SqlWriter.init historyThread).Pending [] := SqlWriter.Pending.empty rfl
  rcases start.run fits with ⟨w, run, statements, texts, added, handed, denotes⟩
  refine ⟨w, run, statements, handed, ?_⟩
  rw [added]
  exact denotes

end Run

end Batches

/-! ## A business that adds a row -/

section Small

/-- A character that is escaped, as `mysql_real_escape_string` documents it. -/
def escapeChar : Char → List Char
  | '\x00' => ['\\', '0']
  | '\n' => ['\\', 'n']
  | '\r' => ['\\', 'r']
  | '\\' => ['\\', '\\']
  | '\'' => ['\\', '\'']
  | '"' => ['\\', '"']
  | '\x1a' => ['\\', 'Z']
  | c => [c]

/-- What is escaped is read as it was. -/
theorem lex_escapeChars (text acc : List Char) :
    lex (.string acc) (text.flatMap escapeChar) = ([], .string (acc ++ text)) := by
  have one (c : Char) (acc : List Char) :
      lex (.string acc) (escapeChar c) = ([], .string (acc ++ [c])) := by
    unfold escapeChar
    split
    case h_8 zero newline return_ back quote double control =>
      simp only [lex, lexChar]
      rw [if_neg quote, if_neg back]
      rfl
    all_goals rfl
  induction text generalizing acc with
  | nil => simp
  | cons c text ih =>
      rw [List.flatMap_cons, lex_append, one, ih]
      simp

/-- The text of a number, in decimal notation where its exponent is small. -/
def sciChars : Mpd → List Char
  | .finite neg coeff exp =>
      let digits := Nat.toDigits 10 coeff
      let adjusted := exp + digits.length - 1
      let sign := if neg then ['-'] else []
      if exp = 0 then sign ++ digits
      else if exp < 0 ∧ -6 ≤ adjusted then
        let point := digits.length + exp
        if 0 < point then
          sign ++ digits.take point.toNat ++ '.' :: digits.drop point.toNat
        else sign ++ ['0', '.'] ++ List.replicate (-point).toNat '0' ++ digits
      else
        sign ++ digits.take 1 ++ (if digits.length = 1 then [] else '.' :: digits.drop 1) ++
          'E' :: (if adjusted < 0 then '-' else '+') :: Nat.toDigits 10 adjusted.natAbs
  | .infinity neg => (if neg then ['-'] else []) ++ "Infinity".toList
  | .nan => "NaN".toList

@[reducible]
def smallSci : DecimalText where
  mpdToSci val := String.ofList (sciChars val)

/-- Objects of integers. -/
@[reducible]
def smallJson : JsonText where
  jsonDumps
    | .update fields => "\x7b" ++ ", ".intercalate (fields.map fun field =>
        "\"" ++ field.1 ++ "\": " ++ match field.2 with
          | .integer value => toString value
          | _ => "null") ++ "\x7d"
    | _ => "\x7b\x7d"

attribute [local instance] smallSettings Libmpdec.reference

@[reducible]
def smallMysql : MysqlText where
  mysqlRealEscapeString text := text.flatMap escapeChar
  mysqlDecimal text := ((mpdSetString (String.ofList text)).filter Mpd.isFinite).map Mpd.value

attribute [local instance] smallSci smallJson smallMysql

theorem plain_of_forall {text : List Char} (all : ∀ c ∈ text, c ≠ '\'' ∧ c ≠ '\\') :
    plain text = true := by
  induction text with
  | nil => rfl
  | cons c text ih =>
      rcases all c List.mem_cons_self with ⟨quote, back⟩
      rw [plain.eq_5 c text quote (fun _ _ same => absurd same back)
        (fun same => absurd same back)]
      exact ih fun d mem => all d (List.mem_cons_of_mem _ mem)

theorem forall_of_all {text : List Char}
    (all : (text.all fun c => decide (c ≠ '\'' ∧ c ≠ '\\')) = true) :
    ∀ c ∈ text, c ≠ '\'' ∧ c ≠ '\\' :=
  fun c mem => of_decide_eq_true (List.all_eq_true.mp all c mem)

theorem plainText_small : PlainText where
  plain_mpd a := by
    have digits (n : ℕ) : ∀ c ∈ Nat.toDigits 10 n, c ≠ '\'' ∧ c ≠ '\\' := by
      intro c mem
      have digit := isDigit_toDigits' n c mem
      constructor <;> rintro rfl <;> cases digit
    have sign (neg : Bool) : ∀ c ∈ (if neg then ['-'] else []), c ≠ '\'' ∧ c ≠ '\\' := by
      cases neg
      · exact forall_of_all rfl
      · exact forall_of_all (by decide)
    rw [show (mpdToSci a).toList = sciChars a from String.toList_ofList]
    apply plain_of_forall
    cases a with
    | nan => exact forall_of_all (by decide)
    | infinity neg =>
        cases neg
        · exact forall_of_all (by decide)
        · exact forall_of_all (by decide)
    | finite neg coeff exp =>
        have front (n : ℕ) := fun c mem => digits coeff c (List.mem_of_mem_take (i := n) mem)
        have back (n : ℕ) := fun c mem => digits coeff c (List.mem_of_mem_drop (i := n) mem)
        unfold sciChars
        simp only
        split
        · exact List.forall_mem_append.mpr ⟨sign neg, digits coeff⟩
        split
        · split
          · exact List.forall_mem_append.mpr ⟨List.forall_mem_append.mpr ⟨sign neg, front _⟩,
              List.forall_mem_cons.mpr ⟨by decide, back _⟩⟩
          · have zeros (n : ℕ) : ∀ c ∈ List.replicate n '0', c ≠ '\'' ∧ c ≠ '\\' := by
              intro c mem
              rw [List.eq_of_mem_replicate mem]
              decide
            exact List.forall_mem_append.mpr ⟨List.forall_mem_append.mpr
              ⟨List.forall_mem_append.mpr ⟨sign neg, forall_of_all (by decide)⟩, zeros _⟩,
              digits coeff⟩
        · have fraction : ∀ c ∈ (if (Nat.toDigits 10 coeff).length = 1 then []
              else '.' :: (Nat.toDigits 10 coeff).drop 1), c ≠ '\'' ∧ c ≠ '\\' := by
            split
            · nofun
            · exact List.forall_mem_cons.mpr ⟨by decide, back _⟩
          have expSign (below : Prop) [Decidable below] :
              (if below then '-' else '+') ≠ '\'' ∧ (if below then '-' else '+') ≠ '\\' := by
            split <;> decide
          exact List.forall_mem_append.mpr ⟨List.forall_mem_append.mpr
            ⟨List.forall_mem_append.mpr ⟨sign neg, front _⟩, fraction⟩,
            List.forall_mem_cons.mpr ⟨by decide, List.forall_mem_cons.mpr
              ⟨expSign _, digits _⟩⟩⟩
  lex_escape text := lex_escapeChars text []

/-- A deposit under a name that ends the literal and opens a second row. -/
def addedRow : String := "x', 0, 0, ''), (NULL, 0, 7, 'BTC', 'y"

/-- The rows of that deposit. -/
def addedRows : List HistoryRow :=
  (onCmdBalanceUpdate 0 0 smallStart (depositFor addedRow)).2.world.out.flatMap Output.rows

/-- The timer comes after the deposit. -/
def addedEvents : List HistoryEvent :=
  addedRows.map .append ++ [.timer fun _ => []]

/-- One update is accepted and its statement inserts two rows, one of them for another
user. -/
theorem row_added : (onCmdBalanceUpdate 0 0 smallStart (depositFor addedRow)).1 = .success ∧
    ¬ ReadsBack 1 addedEvents := by
  refine ⟨by decide +kernel, ?_⟩
  rintro ⟨w, run, statements, handed, denotes⟩
  have read : ((SqlWriter.init 1).run addedEvents).map (fun w => w.job.added.map fun sql =>
      (readInsert sql).map fun insert => insert.rows.length) = some [some 2] := by
    decide +kernel
  rw [run, Option.map_some, Option.some.injEq] at read
  rcases List.map_eq_singleton_iff.mp read with ⟨sql, added, two⟩
  rw [added] at denotes
  cases denotes with
  | @cons statement _ statements _ denotes others =>
      cases others
      have one : addedRows.length = 1 := by decide +kernel
      rcases List.length_eq_one_iff.mp one with ⟨row, rows⟩
      unfold addedEvents at handed
      rw [rows] at handed
      rcases handed with ⟨batch, later, same, batches, rfl⟩
      rw [List.append_nil] at same
      have mem : statement ∈ batch := by
        rw [← same]
        exact List.mem_singleton_self _
      have few := ((batches.2 statement.key statement.rows).mp mem).1
      have short : statement.rows.length ≤ 1 := by
        rw [few]
        exact List.length_filter_le _ _
      rw [denotes.1, Option.map_some, Option.some.injEq] at two
      rw [HistoryStatement.insert, List.length_map] at two
      omega

/-- The row of a deposit under a plain name. -/
def depositRow (business : String) : HistoryRow :=
  .userBalance 0 1 "BTC" business (.finite false 500000000 (-8)) (.finite false 500000000 (-8))
    (.update [("id", .integer 1)])

theorem depositRow_fits {business : String} (plain_ : plain business.toList = true)
    (short : business.toList.length ≤ 30) (narrow : business.toList.all isUtf8mb3 = true) :
    (depositRow business).Fits := by
  have amount : ∃ q, mysqlDecimal (mpdToSci (.finite false 500000000 (-8))).toList = some q ∧
      ∀ scale ∈ [8, 16], |columnRound scale q| < 10 ^ columnDigits := by
    refine ⟨5, by decide +kernel, by decide +kernel⟩
  rcases amount with ⟨q, read, small⟩
  constructor
  · have room : ¬ escapeBufSize < (String.ofList (mysqlRealEscapeString
        (jsonDumps (.update [("id", .integer 1)])).toList)).utf8ByteSize + 1 := by
      decide +kernel
    exact room
  · exact ⟨by decide, plain_⟩
  · have time : ColumnType.double.Takes (timeValue 0) := trivial
    have user : (ColumnType.unsigned 32).Takes (naturalValue 1) := ⟨1, rfl, by decide⟩
    have asset : (ColumnType.varchar 30).Takes (textValue "BTC") := by
      constructor <;> decide
    have detail : ColumnType.text.Takes (textValue (jsonDumps (.update [("id", .integer 1)]))) := by
      constructor <;> decide +kernel
    exact .cons trivial <| .cons time <| .cons user <| .cons asset <| .cons ⟨short, narrow⟩ <|
      .cons ⟨q, read, small 8 (by decide)⟩ <| .cons ⟨q, read, small 16 (by decide)⟩ <|
      .cons detail .nil

/-- Two deposits in one statement. -/
theorem statements_read_back_small :
    ReadsBack 1 [.append (depositRow "deposit"), .append (depositRow "50\\% bonus"),
      .timer fun _ => [0, 0]] := by
  have _ := plainText_small
  apply statements_read_back
  intro row mem
  have either : row = depositRow "deposit" ∨ row = depositRow "50\\% bonus" := by
    simpa using mem
  rcases either with rfl | rfl
  · exact depositRow_fits (by decide) (by decide) (by decide)
  · exact depositRow_fits (by decide) (by decide) (by decide)

end Small

end ViabtcServer.MatchEngine
