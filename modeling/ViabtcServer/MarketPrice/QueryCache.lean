import ViabtcServer.Container.ResultCache
import ViabtcServer.MarketPrice.Dirty
import ViabtcServer.MarketPrice.Query

/-!
# The cache of the market price server

`on_cmd_market_status`, `on_cmd_market_kline` and `on_cmd_market_status_today` share one
cache, whose keys are the number of the command followed by the body of the package. The
clock of the cache counts microseconds, the one of the queries seconds.
-/

namespace ViabtcServer.MarketPrice

open Decimal Container MatchEngine

/-- `json_loadb` of jansson. -/
class JsonLoads where
  jsonLoadb : List UInt8 → Option Json

export JsonLoads (jsonLoadb)

/-- `settings.cache_timeout`, in microseconds. -/
class CacheSettings where
  cacheTimeout : ℕ

/-! ## Keys -/

/-- What `%u` prints. -/
def decimalBytes (n : ℕ) : List UInt8 :=
  (Nat.toDigits 10 n).map fun digit => digit.toNat.toUInt8

/-- The commands whose answers are kept. -/
inductive CachedCommand
  | status
  | kline
  | statusToday
  deriving DecidableEq

/-- `CMD_MARKET_STATUS`, `CMD_MARKET_KLINE` and `CMD_MARKET_STATUS_TODAY`. -/
def CachedCommand.code : CachedCommand → ℕ
  | status => 301
  | kline => 302
  | statusToday => 305

/-- A package with one of these commands. -/
structure MarketRequest where
  command : CachedCommand
  body : List UInt8

/-- `key` of `process_cache`. -/
def MarketRequest.key (request : MarketRequest) : List UInt8 :=
  decimalBytes request.command.code ++ request.body

/-- The commands have three digits each, and are told apart by them. -/
theorem CachedCommand.digits (one other : CachedCommand) :
    (decimalBytes one.code).length = (decimalBytes other.code).length ∧
      (decimalBytes one.code = decimalBytes other.code → one = other) := by
  cases one <;> cases other <;> decide

/-- Different requests have different keys. -/
theorem MarketRequest.key_injective : Function.Injective MarketRequest.key := by
  intro one other same
  rcases CachedCommand.digits one.command other.command with ⟨three, apart⟩
  rcases List.append_inj same three with ⟨codes, bodies⟩
  cases one
  cases other
  rw [MarketRequest.mk.injEq]
  exact ⟨apart codes, bodies⟩

/-! ## Answers -/

/-- Why a package is not answered with a result. -/
inductive Refusal
  /-- The connection is closed. -/
  | decode
  | invalidArgument
  | internalError
  /-- The loop over the months is still running. -/
  | running
  deriving DecidableEq

section Answers

variable [Libmpdec] [DecimalText]

/-- The object of `get_market_status`. -/
def statusJson (period : ℤ) (status : MarketStatus) : Json :=
  .object [("period", .integer period), ("last", .string (mpdText status.last)),
    ("open", .string (mpdText status.open_)), ("close", .string (mpdText status.close)),
    ("high", .string (mpdText status.high)), ("low", .string (mpdText status.low)),
    ("volume", .string (mpdText status.volume)), ("deal", .string (mpdText status.deal))]

/-- The object of `get_market_status_today`. -/
def todayJson (status : TodayStatus) : Json :=
  .object [("open", .string (mpdText status.open_)), ("last", .string (mpdText status.last)),
    ("high", .string (mpdText status.high)), ("low", .string (mpdText status.low)),
    ("volume", .string (mpdText status.volume)), ("deal", .string (mpdText status.deal))]

variable [Settings] [LocalTime] [LocalHour]

omit [Libmpdec] [DecimalText] [LocalTime] [LocalHour] in
/-- What the handlers test before they look at the cache. -/
def checkQuery (s : State) (now : ℤ) (command : CachedCommand) (params : List Json) :
    Option Refusal :=
  let arity := match command with
    | .status => 2
    | .kline => 4
    | .statusToday => 1
  if params.length ≠ arity then some .invalidArgument
  else
    match jsonStringValue params[0]? with
    | none => some .invalidArgument
    | some market =>
        if (dictFind s.markets market).isNone then some .invalidArgument
        else
          match command with
          | .status =>
              let period := (jsonIntegerValue params[1]?).bmod (2 ^ 32)
              if period ≤ 0 ∨ period > Settings.secMax then some .invalidArgument else none
          | .kline =>
              let start := jsonIntegerValue params[1]?
              let stop := min (jsonIntegerValue params[2]?) now
              let interval := (jsonIntegerValue params[3]?).bmod (2 ^ 32)
              if start ≤ 0 ∨ stop ≤ 0 ∨ start > stop ∨ interval ≤ 0 then some .invalidArgument
              else none
          | .statusToday => none

/-- What the handlers do past the cache. -/
def answerQuery (fuel : ℕ) (s : State) (now : ℤ) (command : CachedCommand) (params : List Json) :
    Except Refusal Json :=
  match (jsonStringValue params[0]?).bind (dictFind s.markets) with
  | none => .error .internalError
  | some info =>
      match command with
      | .status =>
          let period := (jsonIntegerValue params[1]?).bmod (2 ^ 32)
          .ok (statusJson period (getMarketStatus info now period))
      | .kline =>
          match onCmdMarketKline fuel s now params with
          | some (.result json) => .ok json
          | some .invalidArgument => .error .invalidArgument
          | none => .error .running
      | .statusToday => .ok (todayJson (getMarketStatusToday info now))

variable [JsonLoads] [CacheSettings]

/-- The parameters of a package. -/
def MarketRequest.params (request : MarketRequest) : Option (List Json) :=
  match jsonLoadb request.body with
  | some (.array params) => some params
  | _ => none

/-- What a package is answered when nothing is stored for it. -/
def freshAnswer (fuel : ℕ) (s : State) (now : ℕ) (request : MarketRequest) :
    Except Refusal Json :=
  match request.params with
  | none => .error .decode
  | some params =>
      match checkQuery s (now / 1000000 : ℕ) request.command params with
      | some refusal => .error refusal
      | none => answerQuery fuel s (now / 1000000 : ℕ) request.command params

/-- The server as far as these commands go. -/
def marketServer (fuel : ℕ) : CachedServer State MarketRequest (List UInt8) Refusal Json where
  key := MarketRequest.key
  timeout := CacheSettings.cacheTimeout
  check s now request :=
    match request.params with
    | none => some .decode
    | some params => checkQuery s (now / 1000000 : ℕ) request.command params
  compute s now request :=
    match request.params with
    | none => .error .decode
    | some params => answerQuery fuel s (now / 1000000 : ℕ) request.command params

/-- Both parts of an answer. -/
theorem freshAnswer_eq (fuel : ℕ) (s : State) (now : ℕ) (request : MarketRequest) :
    freshAnswer fuel s now request =
      match (marketServer fuel).check s now request with
      | some refusal => .error refusal
      | none => (marketServer fuel).compute s now request := by
  unfold freshAnswer marketServer
  cases loaded : request.params with
  | none => simp only [loaded]
  | some params => simp only [loaded]

/-- Whatever happens to the markets between the packages, and whenever the cache is emptied:
a package is refused exactly for what it is at that moment, and a result is the one that
this very package had, in the state the server was in, at a moment no longer ago than the
time limit. -/
theorem queries_recent {fuel : ℕ} {next : State → State → Prop} {start world : State}
    {log : List (Served State MarketRequest Refusal Json)} {clock : ℕ}
    {cache : ResultCache (List UInt8) Json}
    (serves : Serves (marketServer fuel) next start log world clock cache)
    {before after : List (Served State MarketRequest Refusal Json)}
    {served : Served State MarketRequest Refusal Json} (split : log = before ++ served :: after) :
    (∀ refusal, served.reply = .error refusal →
      freshAnswer fuel served.world served.time served.request = .error refusal) ∧
    ∀ json, served.reply = .ok json → ∃ origin ∈ before ++ [served],
      origin.request = served.request ∧ origin.time ≤ served.time ∧
        served.time ≤ origin.time + CacheSettings.cacheTimeout ∧
        freshAnswer fuel origin.world origin.time served.request = .ok json := by
  have recent := serves.recent split
  constructor
  · intro refusal told
    rw [Served.Recent, told] at recent
    rw [freshAnswer_eq]
    rcases recent with checked | ⟨checked, computed⟩
    · rw [checked]
    · rw [checked]
      exact computed
  · intro json told
    rw [Served.Recent, told] at recent
    rcases recent with ⟨_, origin, known, checked, key, earlier, fresh, computed⟩
    have same : origin.request = served.request := MarketRequest.key_injective key
    refine ⟨origin, known, same, earlier, fresh, ?_⟩
    rw [← same, freshAnswer_eq, checked]
    exact computed

end Answers

/-! ## A price that is asked for twice -/

section Small

/-- The text of `["BTCCNY",60]`. -/
def smallBody : List UInt8 :=
  [91, 34, 66, 84, 67, 67, 78, 89, 34, 44, 54, 48, 93]

@[reducible]
def smallLoads : JsonLoads where
  jsonLoadb body := if body = smallBody then some (.array [.string "BTCCNY", .integer 60]) else none

@[reducible]
def smallHour : LocalHour where
  hour t := t / 3600 % 24

@[reducible]
def smallCache : CacheSettings where
  cacheTimeout := 450000

attribute [local instance] Libmpdec.reference smallText smallTime smallRetention smallLoads
  smallHour smallCache

def quietState : State :=
  ⟨dictReplace ∅ "BTCCNY" (createMarket "BTCCNY"), 0, 0⟩

/-- The state after the first deal. -/
def tradedState : State :=
  onDealsMessage quietState 61000000 (fun _ => 0) (some smallDeal) 1

def smallRequest : MarketRequest :=
  ⟨.status, smallBody⟩

def smallOnce : Served State MarketRequest Refusal Json :=
  ⟨61000000, quietState, smallRequest,
    ((marketServer 0).handle quietState 61000000 ∅ smallRequest).1⟩

def smallStored : ResultCache (List UInt8) Json :=
  ((marketServer 0).handle quietState 61000000 ∅ smallRequest).2

def smallTwice : Served State MarketRequest Refusal Json :=
  ⟨61300000, tradedState, smallRequest,
    ((marketServer 0).handle tradedState 61300000 smallStored smallRequest).1⟩

theorem small_serves : Serves (marketServer 0) (fun s s' => s = quietState ∧ s' = tradedState)
    quietState ([smallOnce] ++ [smallTwice]) tradedState 61300000
    ((marketServer 0).handle tradedState 61300000 smallStored smallRequest).2 := by
  have first : Serves (marketServer 0) (fun s s' => s = quietState ∧ s' = tradedState) quietState
      ([] ++ [smallOnce]) quietState 61000000 smallStored :=
    .request (.start 0) (Nat.zero_le _) rfl
  exact .request (first.move ⟨rfl, rfl⟩) (by decide) rfl

/-- Three tenths of a second later the answer is one that was computed since. -/
theorem queries_recent_small : ∃ json, smallTwice.reply = .ok json ∧
    ∃ origin ∈ [smallOnce] ++ [smallTwice], origin.time + 450000 ≥ 61300000 ∧
      freshAnswer 0 origin.world origin.time smallRequest = .ok json := by
  cases told : smallTwice.reply with
  | error refusal =>
      have answered : smallTwice.reply.isOk = true := by decide +kernel
      rw [told] at answered
      cases answered
  | ok json =>
      rcases (queries_recent small_serves
        (show [smallOnce] ++ [smallTwice] = [smallOnce] ++ smallTwice :: [] from rfl)).2 json told
        with ⟨origin, known, _, _, recent, computed⟩
      exact ⟨json, rfl, origin, known, recent, computed⟩

end Small

end ViabtcServer.MarketPrice
