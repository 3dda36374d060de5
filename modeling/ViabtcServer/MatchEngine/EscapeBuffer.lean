import ViabtcServer.MatchEngine.JsonDumps
import ViabtcServer.MatchEngine.HistoryBatch
import ViabtcServer.MatchEngine.TradeDetails
import ViabtcServer.MarketPrice.Kline
import ViabtcServer.Network.Rpc

/-!
# Buffers for escaped text

`flush_log` escapes the text of an entry, and `append_user_balance` the detail of a
row, into an array of 10240 bytes on the stack, without looking at the length. What
is written there can be told from the request and the book it comes to.
-/

namespace ViabtcServer.MatchEngine

open Decimal Container MarketPrice Network

/-! ## What is written -/

/-- `mysql_real_escape_string`. -/
def mysqlEscape (text : List Char) : List Char :=
  text.flatMap escapeChar

/-- The bytes of a text. -/
def utf8Length (text : List Char) : ℕ :=
  weight Char.utf8Size text

/-- The bytes `mysql_real_escape_string` writes, with the `NUL` at the end. -/
def escapeWrites (text : List Char) : ℕ :=
  utf8Length (mysqlEscape text) + 1

/-- The size of `buf` in `flush_log`. -/
def flushBufSize : ℕ := 10240

/-- The bytes of an escaped character. -/
def escapedSize (c : Char) : ℕ :=
  utf8Length (escapeChar c)

theorem escapeWrites_eq (text : List Char) :
    escapeWrites text = weight escapedSize text + 1 := by
  unfold escapeWrites utf8Length mysqlEscape
  rw [weight_flatMap]
  rfl

section Text

variable [RealText]

/-- The entry of a method with its parameters. -/
def operLogJson (method : String) (params : List Json) : Json :=
  .object [("method", .string method), ("params", .array params)]

/-- `log->detail`. -/
def OperLog.detail (log : OperLog) : List Char :=
  (operLogJson log.method log.params).dumps true

variable [DecimalText]

/-- The detail of a row; decimals go in as `json_object_set_new_mpd` prints them. -/
def Detail.json : Detail → Json
  | trade market orderId price amount =>
      .object [("m", .string market), ("i", .integer (ofUint64 orderId)),
        ("p", .string (mpdText price)), ("a", .string (mpdText amount))]
  | fee market orderId price amount feeRate =>
      .object [("m", .string market), ("i", .integer (ofUint64 orderId)),
        ("p", .string (mpdText price)), ("a", .string (mpdText amount)),
        ("f", .string (mpdText feeRate))]
  | update fields => .object fields

/-- `detail_str`: the keys of an update are not sorted. -/
def Detail.text : Detail → List Char
  | update fields => (Json.object fields).dumps false
  | detail => detail.json.dumps true

/-- What the escape of a detail takes. -/
def Detail.room (detail : Detail) : ℕ :=
  detail.json.weigh escapedSize

theorem Detail.writes (detail : Detail) : escapeWrites detail.text = detail.room + 1 := by
  rw [escapeWrites_eq]
  cases detail with
  | trade | fee | update => exact congrArg (· + 1) (weight_dumps _ _ _)

end Text

/-! ## Requests -/

namespace Command

/-- The method a command is logged under. -/
def method : Command → String
  | balanceUpdate .. => "update_balance"
  | orderPutLimit _ => "limit_order"
  | orderPutMarket _ => "market_order"
  | orderCancel _ => "cancel_order"

/-- The parameters as they are logged: a balance update has left its id in the detail. -/
def logged : Command → List Json
  | balanceUpdate _ [user, asset, business, .integer businessId, change, .object detail] =>
      [user, asset, business, .integer businessId, change,
        .object (jsonObjectSet detail "id" (.integer (ofUint64 (toUint64 businessId))))]
  | balanceUpdate _ params | orderPutLimit params | orderPutMarket params
  | orderCancel params => params

/-- What the escape of the entry takes. -/
def room [RealText] (command : Command) : ℕ :=
  (operLogJson command.method command.logged).weigh escapedSize

end Command

section Requests

variable [Libmpdec] [Settings] {e e' : Engine} {now : Time} {fuel padding : ℕ}
  {params : List Json} {command : Command} {reply : Reply}

/-- An update that goes through appends a row with the detail, its id in it. -/
theorem updateUserBalance_rows {a : UpdateArgs}
    (updated : updateUserBalance true now padding e a = (0, e')) :
    e'.operlog = e.operlog ∧ e'.operlogIdStart = e.operlogIdStart ∧
      e.world.detailsSince e'.world =
        [.update (jsonObjectSet a.detail "id" (.integer (ofUint64 a.businessId)))] := by
  simp only [updateUserBalance] at updated
  split at updated
  · cases updated
  · split at updated
    · cases updated
    · cases updated
      refine ⟨rfl, rfl, ?_⟩
      unfold World.detailsSince World.emit
      simp only [if_true, List.append_assoc, List.drop_left]
      rfl

/-- A balance update that is accepted: its entry, and one row with the detail that is logged. -/
theorem update_logs (run : onCmdBalanceUpdate now padding e params = (reply, e'))
    (accepted : ∀ code message, reply ≠ .error code message) :
    ∃ user asset business businessId change detail,
      (Command.balanceUpdate padding params).logged =
        [user, asset, business, businessId, change, .object detail] ∧
      e'.operlog = e.operlog ++ [⟨e.operlogIdStart + 1, now, "update_balance",
        (Command.balanceUpdate padding params).logged⟩] ∧
      e.world.detailsSince e'.world = [.update detail] := by
  rcases onCmdBalanceUpdate_cases run with
    refused | ⟨user, business, businessId, change, detail, a, e₁, rfl, _, read, updated, _, rfl⟩
  · rcases refused.1 with ⟨code, message, error⟩
    exact absurd error (accepted code message)
  · rcases readUpdateArgs_eq_ok.mp read with ⟨userId, id, rfl, _, _, rfl, rfl, same, _, rfl⟩
    rcases updateUserBalance_rows updated with ⟨operlog, idStart, details⟩
    refine ⟨_, _, _, _, _, _, rfl, ?_, ?_⟩
    · unfold appendOperlog UpdateArgs.logged Command.logged
      simp only
      rw [operlog, idStart, same]
    · rw [← same]
      exact details

/-- What an accepted request logs. -/
theorem handle_logs (run : e.handle now fuel command = some (reply, e'))
    (accepted : ∀ code message, reply ≠ .error code message) :
    e'.operlog.drop e.operlog.length =
      [⟨e.operlogIdStart + 1, now, command.method, command.logged⟩] := by
  have logs : e'.operlog = e.operlog ++
      [⟨e.operlogIdStart + 1, now, command.method, command.logged⟩] := by
    cases command with
    | balanceUpdate padding params =>
        rcases update_logs (Option.some.inj run) accepted with ⟨_, _, _, _, _, _, _, logs, _⟩
        exact logs
    | orderPutLimit params =>
        rcases onCmdOrderPutLimit_cases run with refused | ⟨a, st', _, _, _, _, rfl⟩
        · rcases refused.1 with ⟨code, message, error⟩
          exact absurd error (accepted code message)
        · rfl
    | orderPutMarket params =>
        rcases onCmdOrderPutMarket_cases run with refused | ⟨a, best, st', _, _, _, _, rfl⟩
        · rcases refused.1 with ⟨code, message, error⟩
          exact absurd error (accepted code message)
        · rfl
    | orderCancel params =>
        rcases onCmdOrderCancel_cases (Option.some.inj run) with
          refused | ⟨a, ref, order, _, _, _, _, rfl⟩
        · rcases refused.1 with ⟨code, message, error⟩
          exact absurd error (accepted code message)
        · rfl
  rw [logs, List.drop_left]

variable [RealText]

/-- What the escape of the entry writes. -/
theorem entry_writes (run : e.handle now fuel command = some (reply, e'))
    (accepted : ∀ code message, reply ≠ .error code message) :
    (e'.operlog.drop e.operlog.length).map (fun log => escapeWrites log.detail) =
      [command.room + 1] := by
  rw [handle_logs run accepted, List.map_singleton, escapeWrites_eq]
  unfold OperLog.detail
  rw [weight_dumps]
  rfl

variable [DecimalText]

/-- What one request has escaped fits the buffers: of the entry in `flush_log`, of the details in
`append_user_balance`. -/
def BuffersFit (e e' : Engine) : Prop :=
  (∀ log ∈ e'.operlog.drop e.operlog.length, escapeWrites log.detail ≤ flushBufSize) ∧
    ∀ detail ∈ e.world.detailsSince e'.world, escapeWrites detail.text ≤ escapeBufSize

/-- Whatever is accepted, both buffers hold what is escaped precisely if the request itself, with
its method, takes less than 10240 bytes, and so do the details of its trades with the orders it
meets: the name of the market, an id, a price, an amount and a fee rate. -/
theorem buffers_fit_iff (inOrder : e.InOrder)
    (run : e.handle now fuel command = some (reply, e'))
    (accepted : ∀ code message, reply ≠ .error code message) :
    BuffersFit e e' ↔ command.room < flushBufSize ∧
      ∀ detail, command.TradeDetail e now detail → detail.room < escapeBufSize := by
  have entry : (∀ log ∈ e'.operlog.drop e.operlog.length,
      escapeWrites log.detail ≤ flushBufSize) ↔ command.room < flushBufSize := by
    rw [← List.forall_mem_map (P := (· ≤ flushBufSize)), entry_writes run accepted,
      List.forall_mem_singleton]
    exact Nat.succ_le_iff
  unfold BuffersFit
  rw [entry]
  apply and_congr_right
  intro small
  cases command with
  | balanceUpdate padding params =>
      rcases update_logs (Option.some.inj run) accepted with
        ⟨user, asset, business, businessId, change, detail, logged, _, rows⟩
      refine iff_of_true ?_ fun _ => False.elim
      rw [rows, List.forall_mem_singleton, Detail.writes]
      -- the detail is part of the entry
      unfold Command.room operLogJson at small
      rw [logged] at small
      simp only [Json.weigh, Json.weighFields, Json.weighField, Json.weighItems] at small
      unfold Detail.room Detail.json
      simp only [Json.weigh]
      unfold flushBufSize at small
      unfold escapeBufSize
      omega
  | orderPutLimit | orderPutMarket | orderCancel =>
      apply forall_congr'
      intro detail
      rw [handle_tradeDetail inOrder run accepted (by rintro _ _ ⟨⟩) detail, detail.writes]
      exact imp_congr_right fun _ => Nat.succ_le_iff

end Requests

/-! ## A bid, and a request of backslashes -/

section Small

theorem stringWeight_replicate (w : Char → ℕ) (n : ℕ) (c : Char) :
    stringWeight w (String.ofList (List.replicate n c)) = n * weight w (jsonChar c) := by
  unfold stringWeight
  rw [String.toList_ofList, List.map_replicate, List.sum_replicate, smul_eq_mul]

attribute [local instance] smallSettings Libmpdec.reference smallSci

@[reducible]
def smallReal : RealText where
  realText _ := "0.0".toList

attribute [local instance] smallReal

/-- A bid that meets two asks at ten and one at eleven. -/
def smallBid : Command :=
  putLimit 2 .bid "8" "11"

def smallBought : Reply × Engine :=
  (deepEngine.handle 0 10 smallBid).get (by decide +kernel)

/-- Six rows for each of three trades; every one of them fits, and so does the entry. -/
theorem buffers_fit_iff_small :
    (deepEngine.world.detailsSince smallBought.2.world).length = 18 ∧
      (∀ detail ∈ deepEngine.world.detailsSince smallBought.2.world,
        smallBid.TradeDetail deepEngine 0 detail) ∧
      BuffersFit deepEngine smallBought.2 := by
  have inOrder : deepEngine.InOrder :=
    (deepEngine_run.kept (engineStart_inv smallStart_eq).1).inv.inOrder
  have run : deepEngine.handle 0 10 smallBid = some (smallBought.1, smallBought.2) :=
    (Option.some_get _).symm
  have answered : (match smallBought.1 with | .error .. => false | _ => true) = true := by
    decide +kernel
  have accepted : ∀ code message, smallBought.1 ≠ .error code message := by
    intro code message error
    rw [error] at answered
    cases answered
  have written := handle_tradeDetail inOrder run accepted nofun
  have rooms : ∀ detail ∈ deepEngine.world.detailsSince smallBought.2.world,
      detail.room < escapeBufSize := by
    decide +kernel
  refine ⟨by decide +kernel, fun detail => (written detail).mpr, ?_⟩
  apply (buffers_fit_iff inOrder run accepted).mpr
  constructor
  · decide +kernel
  · exact fun detail trade => rooms detail ((written detail).mp trade)

/-- A deposit with a detail. -/
def depositWith (detail : String) : List Json :=
  [.integer 1, .string "BTC", .string "deposit", .integer 1, .string "5",
    .object [("k", .string detail)]]

/-- The small engine after that deposit. -/
def afterDepositWith (detail : String) : Engine :=
  (onCmdBalanceUpdate 0 0 smallStart (depositWith detail)).2

/-- The detail is not looked at. -/
theorem depositWith_accepted (detail : String) :
    smallStart.handle 0 10 (.balanceUpdate 0 (depositWith detail)) =
      some (.success, afterDepositWith detail) := by
  have known : 0 ≤ assetPrecShow "BTC" := by decide +kernel
  have change : jsonDecimal (assetPrecShow "BTC") (.string "5") =
      .ok (Mpd.ofScaled 500000000 (-8)) := by
    decide +kernel
  have accepts : AcceptsUpdate (depositWith detail)
      ⟨1, "BTC", "deposit", 1, Mpd.ofScaled 500000000 (-8), [("k", .string detail)]⟩ := by
    refine ⟨_, _, _, _, _, rfl, known, readUpdateArgs_eq_ok.mpr ?_⟩
    exact ⟨1, 1, rfl, rfl, rfl, rfl, rfl, rfl, change, rfl⟩
  have through : UpdateArgs.GoesThrough
      ⟨1, "BTC", "deposit", 1, Mpd.ofScaled 500000000 (-8), []⟩ 0 smallStart :=
    ⟨rfl, by decide +kernel⟩
  have run : onCmdBalanceUpdate 0 0 smallStart (depositWith detail) =
      ((onCmdBalanceUpdate 0 0 smallStart (depositWith detail)).1, afterDepositWith detail) := rfl
  exact congrArg some (Prod.ext ((accepts.handled run).2.1.mpr through) rfl)

/-- The bytes of the parameters. -/
theorem depositWith_text (detail : String) :
    utf8Length ((Json.array (depositWith detail)).dumps false) =
      40 + stringWeight Char.utf8Size detail := by
  have one : weight Char.utf8Size (toString (1 : ℤ)).toList = 1 := by decide
  have asset : stringWeight Char.utf8Size "BTC" = 3 := by decide
  have business : stringWeight Char.utf8Size "deposit" = 7 := by decide
  have change : stringWeight Char.utf8Size "5" = 1 := by decide
  have key : stringWeight Char.utf8Size "k" = 1 := by decide
  have brackets : '['.utf8Size = 1 ∧ ']'.utf8Size = 1 ∧ '\x7b'.utf8Size = 1 ∧
      '\x7d'.utf8Size = 1 :=
    ⟨rfl, rfl, rfl, rfl⟩
  have signs : '"'.utf8Size = 1 ∧ ':'.utf8Size = 1 ∧ ','.utf8Size = 1 ∧ ' '.utf8Size = 1 :=
    ⟨rfl, rfl, rfl, rfl⟩
  unfold utf8Length
  rw [weight_dumps]
  simp only [depositWith, Json.weigh, Json.weighItems, Json.weighFields, Json.weighField,
    List.length_cons, List.length_nil, commas, one, asset, business, change, key,
    brackets, signs]
  omega

/-- The detail in the two buffers. -/
theorem depositWith_writes (detail : String) :
    (∃ log ∈ (afterDepositWith detail).operlog.drop smallStart.operlog.length,
      stringWeight escapedSize detail < escapeWrites log.detail) ∧
    ∃ row ∈ smallStart.world.detailsSince (afterDepositWith detail).world,
      stringWeight escapedSize detail < escapeWrites row.text := by
  have run := depositWith_accepted detail
  have logged : (Command.balanceUpdate 0 (depositWith detail)).logged =
      [.integer 1, .string "BTC", .string "deposit", .integer 1, .string "5",
        .object [("k", .string detail), ("id", .integer 1)]] := rfl
  constructor
  · rw [handle_logs run nofun]
    refine ⟨_, List.mem_singleton_self _, ?_⟩
    rw [escapeWrites_eq]
    unfold OperLog.detail operLogJson
    rw [weight_dumps, logged]
    simp only [Json.weigh, Json.weighItems, Json.weighFields, Json.weighField]
    omega
  · rcases update_logs (Option.some.inj run) nofun with ⟨_, _, _, _, _, row, logged', _, rows⟩
    rw [logged] at logged'
    injection logged' with _ logged'
    injection logged' with _ logged'
    injection logged' with _ logged'
    injection logged' with _ logged'
    injection logged' with _ logged'
    injection logged' with same _
    rw [rows, ← Json.object.inj same]
    refine ⟨_, List.mem_singleton_self _, ?_⟩
    rw [Detail.writes]
    unfold Detail.room Detail.json
    simp only [Json.weigh, Json.weighFields, Json.weighField]
    omega

/-- 2600 backslashes. -/
def backslashes : String :=
  String.ofList (List.replicate 2600 '\\')

theorem backslashes_weight (w : Char → ℕ) :
    stringWeight w backslashes = 2600 * weight w (jsonChar '\\') :=
  stringWeight_replicate w 2600 '\\'

/-- A request whose text, with the head, fits a package of 10240 bytes is accepted, and neither
buffer holds what is escaped of it. -/
theorem escape_overflows :
    rpcPkgHeadSize + utf8Length ((Json.array (depositWith backslashes)).dumps false) ≤ 10240 ∧
    smallStart.handle 0 10 (.balanceUpdate 0 (depositWith backslashes)) =
      some (.success, afterDepositWith backslashes) ∧
    (∃ log ∈ (afterDepositWith backslashes).operlog.drop smallStart.operlog.length,
      flushBufSize < escapeWrites log.detail) ∧
    ∃ row ∈ smallStart.world.detailsSince (afterDepositWith backslashes).world,
      escapeBufSize < escapeWrites row.text := by
  have plain : weight Char.utf8Size (jsonChar '\\') = 2 := by decide
  have escaped : weight escapedSize (jsonChar '\\') = 4 := by decide
  have writes := depositWith_writes backslashes
  rw [backslashes_weight, escaped] at writes
  rcases writes with ⟨⟨log, inLog, long⟩, row, inRows, long'⟩
  refine ⟨?_, depositWith_accepted backslashes, ⟨log, inLog, ?_⟩, row, inRows, ?_⟩
  · rw [depositWith_text, backslashes_weight, plain]
    decide
  · exact lt_trans (by decide) long
  · exact lt_trans (by decide) long'

end Small

end ViabtcServer.MatchEngine
