import ViabtcServer.Decimal.Alike

/-!
# K-lines

What the market price server knows of one interval of a market, and the text it
is kept as. A k-line is written as a JSON array of decimal strings; the array
stands for its text here.
-/

namespace ViabtcServer.MarketPrice

open Decimal

/-- `KLINE_SEC`, `KLINE_MIN`, `KLINE_HOUR` and `KLINE_DAY`. -/
inductive KlineType
  | sec
  | min
  | hour
  | day
  deriving DecidableEq, Repr

/-- `struct kline_info`. -/
structure KlineInfo where
  open_ : Mpd
  close : Mpd
  high : Mpd
  low : Mpd
  volume : Mpd
  deal : Mpd
  deriving DecidableEq

/-- `kline_info_new`. -/
def klineInfoNew (price : Mpd) : KlineInfo where
  open_ := price
  close := price
  high := price
  low := price
  volume := mpdZero
  deal := mpdZero

/-- `kline_info_update`. -/
def klineInfoUpdate [Libmpdec] (info : KlineInfo) (price amount : Mpd) : KlineInfo :=
  let deal := mpdMul price amount
  { info with
    close := price
    volume := mpdAdd info.volume amount
    deal := mpdAdd info.deal deal
    high := if mpdCmp price info.high > 0 then price else info.high
    low := if mpdCmp price info.low < 0 then price else info.low }

/-! ## Text -/

/-- `decimal` with precision zero: the value is taken as it is read. -/
def decimal [Libmpdec] (text : String) : Option Mpd :=
  mpdSetString text

/-- `rstripzero`: the zeros after a point go, and the point if nothing follows it. -/
def rstripzero (text : String) : String :=
  if text.toList.contains 'e' then text
  else if !text.toList.contains '.' then text
  else
    match text.toList.reverse.dropWhile (· = '0') with
    | '.' :: whole => String.ofList whole.reverse
    | rest => String.ofList rest.reverse

section Text

variable [DecimalText]

/-- The string `json_array_append_new_mpd` and `json_object_set_new_mpd` add. -/
def mpdText (value : Mpd) : String :=
  rstripzero (mpdToSci value)

/-- `kline_to_str`. -/
def klineToStr (info : KlineInfo) : List String :=
  [mpdText info.open_, mpdText info.close, mpdText info.high, mpdText info.low,
    mpdText info.volume, mpdText info.deal]

/-- `kline_from_str`; an array of five has no deal. -/
def klineFromStr [Libmpdec] : List String → Option KlineInfo
  | open_ :: close :: high :: low :: volume :: rest => do
      let open_ ← decimal open_
      let close ← decimal close
      let high ← decimal high
      let low ← decimal low
      let volume ← decimal volume
      let deal ← match rest with
        | [] => some mpdZero
        | deal :: _ => decimal deal
      some ⟨open_, close, high, low, volume, deal⟩
  | _ => none

end Text

end ViabtcServer.MarketPrice
