import ViabtcServer.MarketPrice.Process

/-!
# Queries about a market

The candles, totals and deals the market price server answers with. A loop over
times is the list of the times it visits.
-/

namespace ViabtcServer.MarketPrice

open Decimal Container MatchEngine

/-! ## Settings -/

/-- The hour `localtime` gives. -/
class LocalHour where
  hour : ℤ → ℤ

/-- `get_timezone_offset`, the value of `settings.timezone`. -/
def getTimezoneOffset [LocalTime] [LocalHour] : ℤ :=
  if (LocalTime.date 0).2.2 = 1 then -LocalHour.hour 0 * 3600 else (24 - LocalHour.hour 0) * 3600

/-! ## Merging -/

/-- `kline_info_merge`. -/
def klineInfoMerge [Libmpdec] (info update : KlineInfo) : KlineInfo :=
  { info with
    close := update.close
    volume := mpdAdd info.volume update.volume
    deal := mpdAdd info.deal update.deal
    high := if mpdCmp update.high info.high > 0 then update.high else info.high
    low := if mpdCmp update.low info.low < 0 then update.low else info.low }

/-- The times from `start` on, `n` of them. -/
def ticks (start step : ℤ) (n : ℕ) : List ℤ :=
  (List.range n).map fun i : ℕ => start + i * step

/-- The times of `for (; start <= end; start += step)`. -/
def ticksTo (start stop step : ℤ) : List ℤ :=
  ticks start step ((stop - start) / step + 1).toNat

/-- The times of `for (; start < end; start += step)`. -/
def ticksBelow (start stop step : ℤ) : List ℤ :=
  ticksTo start (stop - 1) step

/-- `kinfo` after one more item: the first one gives the open. -/
def mergeItem [Libmpdec] (kinfo : Option KlineInfo) (item : KlineInfo) : Option KlineInfo :=
  some (klineInfoMerge (kinfo.getD (klineInfoNew item.open_)) item)

/-- The loops that merge what is stored at some times. -/
def mergeTimes [Libmpdec] (klines : Dict ℤ KlineInfo) (kinfo : Option KlineInfo)
    (times : List ℤ) : Option KlineInfo :=
  (times.filterMap (dictFind klines)).foldl mergeItem kinfo

/-- `get_last_kline`. -/
def getLastKline (klines : Dict ℤ KlineInfo) (start stop interval : ℤ) : Option KlineInfo :=
  (ticks start (-interval) ((start - stop) / interval + 1).toNat).findSome? (dictFind klines)

/-! ## Totals -/

/-- The fields of the answers about the state of a market. -/
structure MarketStatus where
  last : Mpd
  open_ : Mpd
  close : Mpd
  high : Mpd
  low : Mpd
  volume : Mpd
  deal : Mpd
  deriving DecidableEq

section Status

variable [Libmpdec]

/-- `start_min`. -/
def startMin (start : ℤ) : ℤ :=
  start.tdiv 60 * 60 + 60

/-- `get_market_status`. -/
def getMarketStatus (info : MarketInfo) (now period : ℤ) : MarketStatus :=
  let start := now - period
  let kinfo := mergeTimes (info.klines .sec) none (ticksBelow start (startMin start) 1)
  let kinfo := mergeTimes (info.klines .min) kinfo (ticksBelow (startMin start) now 60)
  let kinfo := kinfo.getD (klineInfoNew mpdZero)
  ⟨info.last, kinfo.open_, kinfo.close, kinfo.high, kinfo.low, kinfo.volume, kinfo.deal⟩

/-- The loops of `get_market_status_today` that add what is stored at some times. -/
def addTimes (klines : Dict ℤ KlineInfo) (total : Mpd × Mpd) (times : List ℤ) : Mpd × Mpd :=
  (times.filterMap (dictFind klines)).foldl
    (fun total item => (mpdAdd total.1 item.volume, mpdAdd total.2 item.deal)) total

/-- The answer of `get_market_status_today`; prices are zero before the first deal. -/
structure TodayStatus where
  open_ : Mpd
  last : Mpd
  high : Mpd
  low : Mpd
  volume : Mpd
  deal : Mpd
  deriving DecidableEq

/-- `get_market_status_today`. -/
def getMarketStatusToday [LocalTime] (info : MarketInfo) (now : ℤ) : TodayStatus :=
  let start := getDayStart now
  let klast := getLastKline (info.klines .day) (start - 86400) (start - 86400 * 30) 86400
  let prices := match dictFind (info.klines .day) start with
    | some today => (today.open_, today.close, today.high, today.low)
    | none =>
        let close := (klast.map KlineInfo.close).getD mpdZero
        (close, close, close, close)
  let start := now - 86400
  let total := addTimes (info.klines .sec) (mpdZero, mpdZero) (ticksBelow start (startMin start) 1)
  let total := addTimes (info.klines .min) total (ticksBelow (startMin start) now 60)
  ⟨prices.1, prices.2.1, prices.2.2.1, prices.2.2.2, total.1, total.2⟩

end Status

/-! ## Candles -/

section Candles

variable [Libmpdec]

/-- The loop of the `get_market_kline` functions: `slot` is what is merged at a start,
and a start with nothing is flat at the close of the candle before, if there is one. -/
def klineSeries (slot : ℤ → Option KlineInfo) :
    Option KlineInfo → List ℤ → List (ℤ × KlineInfo)
  | _, [] => []
  | klast, start :: starts =>
      match slot start, klast with
      | some kinfo, _ => (start, kinfo) :: klineSeries slot (some kinfo) starts
      | none, some klast =>
          (start, klineInfoNew klast.close) ::
            klineSeries slot (some (klineInfoNew klast.close)) starts
      | none, none => klineSeries slot none starts

/-- What is stored from `start` on in `n` steps. -/
def slotKline (klines : Dict ℤ KlineInfo) (step : ℤ) (n : ℕ) (start : ℤ) : Option KlineInfo :=
  mergeTimes klines none (ticks start step n)

/-- The end of the `get_market_kline` functions up to a week: the candle before the
first one, and the candles of `interval` from stored ones of `step`. -/
def klineRange (klines : Dict ℤ KlineInfo) (step bound start stop interval : ℤ) :
    List (ℤ × KlineInfo) :=
  klineSeries (slotKline klines step (interval / step).toNat)
    (getLastKline klines (start - step) bound step) (ticksTo start stop interval)

/-- `while ((base + interval) <= start) base += interval`. -/
def advance (base start interval : ℤ) : ℤ :=
  base + ((start - base) / interval).toNat * interval

variable [Settings]

/-- Where the candles of `get_market_kline_sec` begin. -/
def secStart (now start interval : ℤ) : ℤ :=
  (max start (now - Settings.secMax)).tdiv interval * interval

/-- `get_market_kline_sec`. -/
def getMarketKlineSec (info : MarketInfo) (now start stop interval : ℤ) : List (ℤ × KlineInfo) :=
  klineRange (info.klines .sec) 1 (now - Settings.secMax) (secStart now start interval) stop
    interval

/-- The first minute that is kept. -/
def minBound (now : ℤ) : ℤ :=
  now.tdiv 60 * 60 - Settings.minMax * 60

def minStart (now start interval : ℤ) : ℤ :=
  (max start (minBound now)).tdiv interval * interval

/-- `get_market_kline_min`. -/
def getMarketKlineMin (info : MarketInfo) (now start stop interval : ℤ) : List (ℤ × KlineInfo) :=
  klineRange (info.klines .min) 60 (minBound now) (minStart now start interval) stop interval

/-- The first hour that is kept. -/
def hourBound (now : ℤ) : ℤ :=
  now.tdiv 3600 * 3600 - Settings.hourMax * 3600

variable [LocalTime]

def hourStart (now start interval : ℤ) : ℤ :=
  let start := max start (hourBound now)
  advance (getDayStart start) start interval

/-- `get_market_kline_hour`. -/
def getMarketKlineHour (info : MarketInfo) (now start stop interval : ℤ) :
    List (ℤ × KlineInfo) :=
  klineRange (info.klines .hour) 3600 (hourBound now) (hourStart now start interval) stop interval

variable [LocalHour]

def dayStart (start interval : ℤ) : ℤ :=
  (start - getTimezoneOffset).tdiv interval * interval + getTimezoneOffset

/-- `get_market_kline_day`. -/
def getMarketKlineDay (info : MarketInfo) (start stop interval : ℤ) : List (ℤ × KlineInfo) :=
  let start := dayStart start interval
  klineRange (info.klines .day) 86400 (start - 86400 * 30) start stop interval

def weekStart (start interval : ℤ) : ℤ :=
  advance ((start - getTimezoneOffset).tdiv interval * interval - 3 * 86400 + getTimezoneOffset)
    start interval

/-- `get_market_kline_week`. -/
def getMarketKlineWeek (info : MarketInfo) (start stop interval : ℤ) : List (ℤ × KlineInfo) :=
  let start := weekStart start interval
  klineRange (info.klines .day) 86400 (start - 86400 * 30) start stop interval

end Candles

/-! ## Months -/

section Months

variable [Libmpdec] [LocalTime]

/-- `get_month_start`. -/
def getMonthStart (month : ℤ × ℤ) : ℤ :=
  LocalTime.mktime (month.1, month.2, 1)

/-- The month `get_next_month` goes on to; months count from zero. -/
def nextMonth (month : ℤ × ℤ) : ℤ × ℤ :=
  if month.2 = 11 then (month.1 + 1, 0) else (month.1, month.2 + 1)

/-- What is merged of a month: the days from its start to the next month or to `stop`. -/
def monthKline (klines : Dict ℤ KlineInfo) (stop monStart monNext : ℤ) : Option KlineInfo :=
  mergeTimes klines none (ticksTo monStart (min (monNext - 1) stop) 86400)

/-- The loop of `get_market_kline_month`; `none` when it takes more rounds than there
is fuel. A month with nothing before the first candle leaves `mon_start` as it is. -/
def monthLoop (klines : Dict ℤ KlineInfo) (stop : ℤ) :
    ℕ → ℤ → ℤ × ℤ → Option KlineInfo → Option (List (ℤ × KlineInfo))
  | 0, monStart, _, _ => if monStart ≤ stop then none else some []
  | fuel + 1, monStart, month, klast =>
      if monStart ≤ stop then
        let monNext := getMonthStart (nextMonth month)
        match monthKline klines stop monStart monNext, klast with
        | some kinfo, _ =>
            (monthLoop klines stop fuel monNext (nextMonth month) (some kinfo)).map
              ((monStart, kinfo) :: ·)
        | none, some klast =>
            let kinfo := klineInfoNew klast.close
            (monthLoop klines stop fuel monNext (nextMonth month) (some kinfo)).map
              ((monStart, kinfo) :: ·)
        | none, none => monthLoop klines stop fuel monStart (nextMonth month) none
      else some []

/-- `get_market_kline_month`. -/
def getMarketKlineMonth (fuel : ℕ) (info : MarketInfo) (start stop : ℤ) :
    Option (List (ℤ × KlineInfo)) :=
  let date := LocalTime.date start
  let month := (date.1, date.2.1)
  let monStart := getMonthStart month
  let kbefor := getLastKline (info.klines .day) (monStart - 86400) (start - 86400 * 30) 86400
  monthLoop (info.klines .day) stop fuel monStart month kbefor

end Months

/-! ## Deals -/

/-- `get_market_deals`: the newest deals after `last_id`, at most `limit`. -/
def getMarketDeals (info : MarketInfo) (limit : ℕ) (lastId : ℤ) : List DealJson :=
  (info.dealsJson.takeWhile fun deal => decide (lastId < deal.id)).take limit

/-! ## The command -/

/-- What a client is answered. -/
inductive QueryReply
  | invalidArgument
  | result (json : Json)

section Command

variable [DecimalText]

/-- `append_kinfo`. -/
def appendKinfo (market : String) (timestamp : ℤ) (kinfo : KlineInfo) : Json :=
  .array [.integer timestamp, .string (mpdText kinfo.open_), .string (mpdText kinfo.close),
    .string (mpdText kinfo.high), .string (mpdText kinfo.low), .string (mpdText kinfo.volume),
    .string (mpdText kinfo.deal), .string market]

def klineReply (market : String) (series : List (ℤ × KlineInfo)) : QueryReply :=
  .result (.array (series.map fun candle => appendKinfo market candle.1 candle.2))

variable [Libmpdec] [Settings] [LocalTime] [LocalHour]

/-- `on_cmd_market_kline` past the cache. -/
def onCmdMarketKline (fuel : ℕ) (s : State) (now : ℤ) (params : List Json) : Option QueryReply :=
  if params.length ≠ 4 then some .invalidArgument
  else
    match jsonStringValue params[0]? with
    | none => some .invalidArgument
    | some market =>
        match dictFind s.markets market with
        | none => some .invalidArgument
        | some info =>
            let start := jsonIntegerValue params[1]?
            let stop := min (jsonIntegerValue params[2]?) now
            let interval := (jsonIntegerValue params[3]?).bmod (2 ^ 32)
            if start ≤ 0 ∨ stop ≤ 0 ∨ stop < start ∨ interval ≤ 0 then some .invalidArgument
            else if interval < 60 then
              if 60 % interval ≠ 0 then some .invalidArgument
              else some (klineReply market (getMarketKlineSec info now start stop interval))
            else if interval < 3600 then
              if interval % 60 ≠ 0 ∨ 3600 % interval ≠ 0 then some .invalidArgument
              else some (klineReply market (getMarketKlineMin info now start stop interval))
            else if interval < 86400 then
              if interval % 3600 ≠ 0 ∨ 86400 % interval ≠ 0 then some .invalidArgument
              else some (klineReply market (getMarketKlineHour info now start stop interval))
            else if interval < 86400 * 7 then
              if interval % 86400 ≠ 0 then some .invalidArgument
              else some (klineReply market (getMarketKlineDay info start stop interval))
            else if interval = 86400 * 7 then
              some (klineReply market (getMarketKlineWeek info start stop interval))
            else if interval = 86400 * 30 then
              (getMarketKlineMonth fuel info start stop).map (klineReply market)
            else some .invalidArgument

end Command

/-! ## Times -/

section Times

variable {start stop step t : ℤ} {n : ℕ}

theorem mem_ticks : t ∈ ticks start step n ↔ ∃ i < n, t = start + i * step := by
  simp only [ticks, List.mem_map, List.mem_range]
  exact exists_congr fun i => and_congr_right fun _ => eq_comm

theorem ticks_sorted (pos : 0 < step) : (ticks start step n).Pairwise (· < ·) := by
  rw [ticks, List.pairwise_map]
  apply List.pairwise_lt_range.imp
  intro i j less
  have wide : (i : ℤ) * step < j * step := by
    apply Int.mul_lt_mul_of_pos_right _ pos
    exact_mod_cast less
  omega

/-- A loop visits the times from its start to its end that are whole steps away. -/
theorem mem_ticksTo (pos : 0 < step) :
    t ∈ ticksTo start stop step ↔ start ≤ t ∧ t ≤ stop ∧ step ∣ t - start := by
  rw [ticksTo, mem_ticks]
  constructor
  · rintro ⟨i, less, rfl⟩
    have bound : (i : ℤ) ≤ (stop - start) / step := by omega
    have nonneg : 0 ≤ (i : ℤ) * step := Int.mul_nonneg (Int.natCast_nonneg i) pos.le
    have room := Int.mul_le_mul_of_nonneg_right bound pos.le
    have most := Int.ediv_mul_le (stop - start) pos.ne'
    refine ⟨by omega, by omega, ?_⟩
    exact ⟨i, by rw [add_sub_cancel_left, Int.mul_comm]⟩
  · rintro ⟨above, below, k, same⟩
    have nonneg : 0 ≤ k := by
      by_contra neg
      have := Int.mul_neg_of_pos_of_neg pos (not_le.mp neg)
      omega
    have bound : k ≤ (stop - start) / step := by
      apply Int.le_ediv_of_mul_le pos
      rw [Int.mul_comm]
      omega
    refine ⟨k.toNat, by omega, ?_⟩
    rw [Int.toNat_of_nonneg nonneg, Int.mul_comm]
    omega

theorem ticksTo_sorted (pos : 0 < step) : (ticksTo start stop step).Pairwise (· < ·) :=
  ticks_sorted pos

end Times

end ViabtcServer.MarketPrice
