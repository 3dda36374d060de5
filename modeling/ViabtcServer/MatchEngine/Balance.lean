import ViabtcServer.MatchEngine.Core

/-!
# Balances

The operations on `dict_balance`. Each returns the pointer of the source as an
option, `none` for `NULL`, with the new ledger.
-/

namespace ViabtcServer.MatchEngine

open Decimal Container

/-- `init_balance`: the configured assets, none of them named twice. -/
def initBalance (assets : List AssetConf) : Option (Dict String AssetType) :=
  assets.foldlM (fun dict asset => dictAdd dict asset.name ⟨asset.precSave, asset.precShow⟩) ∅

section

variable [Settings]

/-- `get_asset_type`. -/
def getAssetType (asset : String) : Option AssetType :=
  (initBalance Settings.assets).bind fun dict => dictFind dict asset

def assetExist (asset : String) : Bool :=
  (getAssetType asset).isSome

/-- `asset_prec`: the precision balances are stored with. -/
def assetPrec (asset : String) : ℤ :=
  match getAssetType asset with
  | some type => type.precSave
  | none => -1

def assetPrecShow (asset : String) : ℤ :=
  match getAssetType asset with
  | some type => type.precShow
  | none => -1

end

def balanceGet (ledger : Ledger) (key : BalanceKey) : Option Mpd :=
  dictFind ledger.balances key

def balanceDel (ledger : Ledger) (key : BalanceKey) : Ledger :=
  { ledger with balances := dictDelete ledger.balances key }

/-- Overwrite the entry of `key`. -/
def Ledger.put (ledger : Ledger) (key : BalanceKey) (value : Mpd) : Ledger :=
  { ledger with balances := dictReplace ledger.balances key value }

variable [Libmpdec] [Settings]

def balanceSet (ledger : Ledger) (key : BalanceKey) (amount : Mpd) : Option Mpd × Ledger :=
  match getAssetType key.asset with
  | none => (none, ledger)
  | some type =>
      if mpdCmp amount mpdZero < 0 then (none, ledger)
      else if mpdCmp amount mpdZero = 0 then (some mpdZero, balanceDel ledger key)
      else
        -- found or added, the entry ends as `amount` rescaled
        let result := mpdRescale amount (-type.precSave)
        (some result, ledger.put key result)

def balanceAdd (ledger : Ledger) (key : BalanceKey) (amount : Mpd) : Option Mpd × Ledger :=
  match getAssetType key.asset with
  | none => (none, ledger)
  | some type =>
      if mpdCmp amount mpdZero < 0 then (none, ledger)
      else
        match balanceGet ledger key with
        | some entry =>
            let sum := mpdAdd entry amount
            let result := mpdRescale sum (-type.precSave)
            (some result, (ledger.observe sum (entry.value + amount.value)).put key result)
        | none => balanceSet ledger key amount

/-- Take `amount` from the entry of `key`, which holds `entry`: a result of
zero deletes the entry, any other is rescaled after the test. -/
def Ledger.deduct (ledger : Ledger) (type : AssetType) (key : BalanceKey) (entry amount : Mpd) :
    Mpd × Ledger :=
  let difference := mpdSub entry amount
  let ledger := ledger.observe difference (entry.value - amount.value)
  if mpdCmp difference mpdZero = 0 then (mpdZero, balanceDel ledger key)
  else
    let result := mpdRescale difference (-type.precSave)
    (result, ledger.put key result)

def balanceSub (ledger : Ledger) (key : BalanceKey) (amount : Mpd) : Option Mpd × Ledger :=
  match getAssetType key.asset with
  | none => (none, ledger)
  | some type =>
      if mpdCmp amount mpdZero < 0 then (none, ledger)
      else
        match balanceGet ledger key with
        | none => (none, ledger)
        | some entry =>
            if mpdCmp entry amount < 0 then (none, ledger)
            else
              let (result, ledger) := ledger.deduct type key entry amount
              (some result, ledger)

/-- Move `amount` between the two balances of a user: the common text of
`balance_freeze` and `balance_unfreeze`. The source entry is tested, then the
target credited, then the source charged. -/
def balanceMove (source target : BalanceType) (ledger : Ledger) (userId : ℕ) (asset : String)
    (amount : Mpd) : Option Mpd × Ledger :=
  match getAssetType asset with
  | none => (none, ledger)
  | some type =>
      if mpdCmp amount mpdZero < 0 then (none, ledger)
      else
        match balanceGet ledger ⟨userId, source, asset⟩ with
        | none => (none, ledger)
        | some entry =>
            if mpdCmp entry amount < 0 then (none, ledger)
            else
              match balanceAdd ledger ⟨userId, target, asset⟩ amount with
              | (none, ledger) => (none, ledger)
              | (some _, ledger) =>
                  let (result, ledger) := ledger.deduct type ⟨userId, source, asset⟩ entry amount
                  (some result, ledger)

def balanceFreeze : Ledger → ℕ → String → Mpd → Option Mpd × Ledger :=
  balanceMove .available .freeze

def balanceUnfreeze : Ledger → ℕ → String → Mpd → Option Mpd × Ledger :=
  balanceMove .freeze .available

/-- `balance_total`: available plus frozen. -/
def balanceTotal (ledger : Ledger) (userId : ℕ) (asset : String) : Mpd :=
  let balance := mpdZero
  let balance :=
    match balanceGet ledger ⟨userId, .available, asset⟩ with
    | some available => mpdAdd balance available
    | none => balance
  match balanceGet ledger ⟨userId, .freeze, asset⟩ with
  | some freeze => mpdAdd balance freeze
  | none => balance

/-- What `balance_status` reports. -/
structure BalanceStatus where
  total : Mpd := mpdZero
  availableCount : ℕ := 0
  available : Mpd := mpdZero
  freezeCount : ℕ := 0
  freeze : Mpd := mpdZero

/-- The turn of its loop on an entry of the asset. -/
def BalanceStatus.count (status : BalanceStatus) (type : BalanceType) (val : Mpd) :
    BalanceStatus :=
  let status := { status with total := mpdAdd status.total val }
  match type with
  | .available =>
      { status with
        availableCount := status.availableCount + 1
        available := mpdAdd status.available val }
  | .freeze =>
      { status with
        freezeCount := status.freezeCount + 1
        freeze := mpdAdd status.freeze val }

/-- `balance_status`: the sums over all entries of an asset. -/
def balanceStatus (ledger : Ledger) (asset : String) : BalanceStatus :=
  ledger.balances.entries.foldl (fun status entry =>
    if entry.1.asset = asset then status.count entry.1.type entry.2 else status) {}

end ViabtcServer.MatchEngine
