import ViabtcServer.MarketPrice.QueryCache
import ViabtcServer.MatchEngine.Depth
import ViabtcServer.MatchEngine.Summary

/-!
# The cache of depths

`on_cmd_order_book_depth` keeps the depths it has worked out for a while. Commands change
the books meanwhile, so that a client may be told a depth that is out of date, but no longer
than the time limit of the cache.
-/

namespace ViabtcServer.MatchEngine

open Decimal Container
open MarketPrice (JsonLoads jsonLoadb CacheSettings decimalBytes Refusal)

/-! ## The handler with its cache -/

section Handler

variable [Libmpdec]

/-- The parameters `on_cmd_order_book_depth` reads before it looks at the cache. -/
structure DepthArgs where
  market : Market
  limit : ℕ
  interval : Mpd

def readDepthArgs (markets : Dict String Market) (params : List Json) :
    Except ArgError DepthArgs :=
  match params with
  | [market, limit, interval] => do
      let (_, m) ← getMarket markets market
      let limit ← jsonInteger limit
      if toUint64 limit > orderBookMaxLen then .error .invalid
      else
        let interval ← jsonDecimal m.moneyPrec interval
        if mpdCmp interval mpdZero < 0 then .error .invalid
        else pure ⟨m, toUint64 limit, interval⟩
  | _ => .error .invalid

variable [Divmod] [DecimalText]

/-- The depth that is worked out past the cache. -/
def DepthArgs.json (a : DepthArgs) (heap : Ref → Option Order) : Json :=
  if mpdCmp a.interval mpdZero = 0 then (getDepth a.market heap a.limit).json
  else (getDepthMerge a.market heap a.limit a.interval).json

/-- The handler reads its parameters and works out the depth. -/
theorem onCmdOrderBookDepth_eq (e : Engine) (params : List Json) :
    onCmdOrderBookDepth e params =
      (readDepthArgs e.markets params).map fun a => a.json e.world.heap := by
  match params with
  | [market, limit, interval] =>
      simp only [onCmdOrderBookDepth, readDepthArgs, bind, pure]
      cases getMarket e.markets market with
      | error error => rfl
      | ok found =>
          cases jsonInteger limit with
          | error error => rfl
          | ok size =>
              simp only [Except.bind]
              by_cases long : toUint64 size > orderBookMaxLen
              · rw [if_pos long, if_pos long]
                rfl
              · rw [if_neg long, if_neg long]
                cases jsonDecimal found.2.moneyPrec interval with
                | error error => rfl
                | ok step =>
                    simp only
                    by_cases neg : mpdCmp step mpdZero < 0
                    · rw [if_pos neg, if_pos neg]
                      rfl
                    · rw [if_neg neg, if_neg neg]
                      by_cases zero : mpdCmp step mpdZero = 0
                      · simp [zero, Except.map, Except.pure, DepthArgs.json]
                      · simp [zero, Except.map, Except.pure, DepthArgs.json]
  | [] => rfl
  | [_] => rfl
  | [_, _] => rfl
  | _ :: _ :: _ :: _ :: _ => rfl

variable [JsonLoads] [CacheSettings]

omit [Libmpdec] [Divmod] [DecimalText] [CacheSettings] in
/-- `json_loadb` of a body, and the test that it is an array. -/
def loadParams (body : List UInt8) : Option (List Json) :=
  match jsonLoadb body with
  | some (.array params) => some params
  | _ => none

/-- The server as far as packages with `CMD_ORDER_BOOK_DEPTH` go; a request is the body of
the package. -/
def depthServer : CachedServer Engine (List UInt8) (List UInt8) Refusal Json where
  key body := decimalBytes 206 ++ body
  timeout := CacheSettings.cacheTimeout
  check e _ body :=
    match loadParams body with
    | none => some .decode
    | some params =>
        match readDepthArgs e.markets params with
        | .error _ => some .invalidArgument
        | .ok _ => none
  compute e _ body :=
    match (loadParams body).map (readDepthArgs e.markets) with
    | some (.ok a) => .ok (a.json e.world.heap)
    | _ => .error .internalError

end Handler

/-! ## Depths in a run -/

section Runs

variable [Libmpdec] [Settings] [Divmod] [DecimalText] [JsonLoads] [CacheSettings]

/-- The engines that requests are answered in are those of the run. -/
theorem serves_passed {cond : Engine → Command → Prop} {e₀ e : Engine}
    {log : List (Served Engine (List UInt8) Refusal Json)} {clock : ℕ}
    {cache : ResultCache (List UInt8) Json}
    (serves : Container.Serves depthServer (LiveStep cond) e₀ log e clock cache) :
    LiveRun cond e₀ e ∧
      ∀ served ∈ log, LiveRun cond e₀ served.world ∧ LiveRun cond served.world e := by
  induction serves with
  | start => exact ⟨.refl, nofun⟩
  | move _ moved ih =>
      refine ⟨ih.1.tail moved, fun served mem => ?_⟩
      exact ⟨(ih.2 served mem).1, (ih.2 served mem).2.tail moved⟩
  | clear _ ih => exact ih
  | request _ _ _ ih =>
      refine ⟨ih.1, fun served mem => ?_⟩
      rcases List.mem_append.mp mem with mem | mem
      · exact ih.2 served mem
      · rw [List.mem_singleton.mp mem]
        exact ⟨ih.1, .refl⟩

/-- In every run of commands and requests for depths, a depth that a client is told is the
one `on_cmd_order_book_depth` works out for the parameters of the request from an engine the
run went through, no longer ago than the time limit of the cache. -/
theorem depths_recent {cond : Engine → Command → Prop} {e₀ e : Engine}
    {log : List (Served Engine (List UInt8) Refusal Json)} {clock : ℕ}
    {cache : ResultCache (List UInt8) Json}
    (serves : Container.Serves depthServer (LiveStep cond) e₀ log e clock cache)
    {before after : List (Served Engine (List UInt8) Refusal Json)}
    {served : Served Engine (List UInt8) Refusal Json} (split : log = before ++ served :: after)
    {json : Json} (told : served.reply = .ok json) :
    ∃ origin ∈ before ++ [served], LiveRun cond e₀ origin.world ∧
      LiveRun cond origin.world e ∧ origin.time ≤ served.time ∧
      served.time ≤ origin.time + CacheSettings.cacheTimeout ∧
      ∃ params, jsonLoadb served.request = some (.array params) ∧
        onCmdOrderBookDepth origin.world params = .ok json := by
  have recent := serves.recent split
  rw [Served.Recent, told] at recent
  rcases recent with ⟨_, origin, known, _, key, earlier, fresh, computed⟩
  have same : origin.request = served.request := List.append_cancel_left key
  have inLog : origin ∈ log := by
    rw [split]
    rcases List.mem_append.mp known with known | known
    · exact List.mem_append_left _ known
    · exact List.mem_append_right _ (List.mem_singleton.mp known ▸ List.mem_cons_self)
  rcases (serves_passed serves).2 origin inLog with ⟨reached, left⟩
  refine ⟨origin, known, reached, left, earlier, fresh, ?_⟩
  have run : depthServer.compute origin.world origin.time origin.request =
      match (loadParams origin.request).map (readDepthArgs origin.world.markets) with
      | some (.ok a) => .ok (a.json origin.world.world.heap)
      | _ => .error .internalError := rfl
  rw [run, same] at computed
  unfold loadParams at computed
  split at computed
  · rename_i a read
    split at read
    · rename_i params loaded
      refine ⟨params, loaded, ?_⟩
      rw [onCmdOrderBookDepth_eq, Option.some.inj read, Except.map, Except.ok.inj computed]
    · cases read
  · cases computed

end Runs

/-! ## A depth that is asked for twice -/

section Small

/-- The text of `["BTCCNY",10,"0"]`. -/
def depthBody : List UInt8 :=
  [91, 34, 66, 84, 67, 67, 78, 89, 34, 44, 49, 48, 44, 34, 48, 34, 93]

@[reducible]
def depthLoads : JsonLoads where
  jsonLoadb body :=
    if body = depthBody then some (.array [.string "BTCCNY", .integer 10, .string "0"]) else none

@[reducible]
def depthCache : CacheSettings where
  cacheTimeout := 450000

attribute [local instance] smallSettings Libmpdec.reference Divmod.reference sciPrinting depthLoads
  depthCache

/-- The rest of the bid is cancelled. -/
def cancelBid : Command :=
  .orderCancel [.integer 2, .string "BTCCNY", .integer 2]

theorem cancel_answered : (boundedEngine.handle 0 10 cancelBid).isSome = true := by
  decide +kernel

def cancelAnswer : Reply × Engine :=
  (boundedEngine.handle 0 10 cancelBid).get cancel_answered

def depthOnce : Served Engine (List UInt8) Refusal Json :=
  ⟨1000000, boundedEngine, depthBody, (depthServer.handle boundedEngine 1000000 ∅ depthBody).1⟩

def depthStored : ResultCache (List UInt8) Json :=
  (depthServer.handle boundedEngine 1000000 ∅ depthBody).2

def depthTwice : Served Engine (List UInt8) Refusal Json :=
  ⟨1300000, cancelAnswer.2, depthBody,
    (depthServer.handle cancelAnswer.2 1300000 depthStored depthBody).1⟩

theorem depth_serves : Container.Serves depthServer (LiveStep fun _ _ => True) boundedEngine
    ([depthOnce] ++ [depthTwice]) cancelAnswer.2 1300000
    (depthServer.handle cancelAnswer.2 1300000 depthStored depthBody).2 := by
  have first : Container.Serves depthServer (LiveStep fun _ _ => True) boundedEngine
      ([] ++ [depthOnce]) boundedEngine 1000000 depthStored :=
    .request (.start 0) (Nat.zero_le _) rfl
  have cancelled : boundedEngine.handle 0 10 cancelBid = some (cancelAnswer.1, cancelAnswer.2) :=
    (Option.some_get cancel_answered).symm
  exact .request (first.move (.command trivial cancelled)) (by decide) rfl

/-- Three tenths of a second later the answer is one that was worked out since. -/
theorem depths_recent_small : ∃ json, depthTwice.reply = .ok json ∧
    ∃ origin ∈ [depthOnce] ++ [depthTwice], origin.time + 450000 ≥ 1300000 ∧
      ∃ params, onCmdOrderBookDepth origin.world params = .ok json := by
  cases told : depthTwice.reply with
  | error refusal =>
      have answered : depthTwice.reply.isOk = true := by decide +kernel
      rw [told] at answered
      cases answered
  | ok json =>
      rcases depths_recent depth_serves
        (show [depthOnce] ++ [depthTwice] = [depthOnce] ++ depthTwice :: [] from rfl) told
        with ⟨origin, known, _, _, _, recent, params, _, computed⟩
      exact ⟨json, rfl, origin, known, recent, params, computed⟩

end Small

end ViabtcServer.MatchEngine
