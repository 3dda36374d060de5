import ViabtcServer.Decimal.Capacity
import ViabtcServer.MatchEngine.Records

/-!
# Magnitudes

While the supply of an asset stays below half of what the context can hold with
the digits the asset is computed with, no balance call and no total of balances
is rounded.
-/

namespace ViabtcServer.MatchEngine

open Decimal Container

/-! ## Sums over accounts -/

section Sums

variable {f g : BalanceKey →₀ ℚ}

theorem assetSum_nonneg (asset : String) (nonneg : ∀ key, 0 ≤ f key) : 0 ≤ assetSum asset f := by
  unfold assetSum
  rw [Finsupp.liftAddHom_apply]
  apply Finset.sum_nonneg
  intro key _
  change 0 ≤ (if key.asset = asset then AddMonoidHom.id ℚ else 0 : ℚ →+ ℚ) (f key)
  by_cases same : key.asset = asset
  · rw [if_pos same]
    exact nonneg key
  · rw [if_neg same]
    exact le_rfl

theorem assetSum_mono (asset : String) (le : ∀ key, f key ≤ g key) :
    assetSum asset f ≤ assetSum asset g := by
  have nonneg := assetSum_nonneg asset (f := g - f) fun key => sub_nonneg.mpr (le key)
  rw [map_sub] at nonneg
  linarith

/-- What is frozen of an asset, over all users. -/
noncomputable def frozenSum (asset : String) : (BalanceKey →₀ ℚ) →+ ℚ :=
  (assetSum asset).comp (Finsupp.filterAddHom fun key => key.type = .freeze)

theorem frozenSum_apply (asset : String) (f : BalanceKey →₀ ℚ) : frozenSum asset f =
    assetSum asset (f.filter fun key => key.type = .freeze) := rfl

theorem frozenSum_available (asset : String) (user : ℕ) (asset' : String) (q : ℚ) :
    frozenSum asset (Finsupp.single ⟨user, .available, asset'⟩ q) = 0 := by
  rw [frozenSum_apply, Finsupp.filter_single_of_neg _ (by simp), map_zero]

theorem frozenSum_freeze (asset : String) (user : ℕ) (asset' : String) (q : ℚ) :
    frozenSum asset (Finsupp.single ⟨user, .freeze, asset'⟩ q) =
      if asset' = asset then q else 0 := by
  rw [frozenSum_apply, Finsupp.filter_single_of_pos _ (by simp), assetSum_single]

theorem filter_freeze_le (nonneg : ∀ key, 0 ≤ f key) (key : BalanceKey) :
    0 ≤ f.filter (fun key => key.type = .freeze) key ∧
      f.filter (fun key => key.type = .freeze) key ≤ f key := by
  rw [Finsupp.filter_apply]
  split
  · exact ⟨nonneg key, le_rfl⟩
  · exact ⟨le_rfl, nonneg key⟩

theorem frozenSum_nonneg (asset : String) (nonneg : ∀ key, 0 ≤ f key) :
    0 ≤ frozenSum asset f :=
  assetSum_nonneg asset fun key => (filter_freeze_le nonneg key).1

theorem single_le (nonneg : ∀ key, 0 ≤ f key) (key other : BalanceKey) :
    Finsupp.single key (f key) other ≤ f other := by
  by_cases same : other = key
  · rw [same, Finsupp.single_eq_same]
  · rw [Finsupp.single_eq_of_ne same]
    exact nonneg other

/-- One balance is at most the supply of its asset. -/
theorem le_assetSum (nonneg : ∀ key, 0 ≤ f key) (key : BalanceKey) :
    f key ≤ assetSum key.asset f := by
  have le := assetSum_mono key.asset (single_le nonneg key)
  rwa [assetSum_single, if_pos rfl] at le

/-- So are two balances together. -/
theorem add_le_assetSum (nonneg : ∀ key, 0 ≤ f key) (key key' : BalanceKey) (apart : key ≠ key')
    (same : key'.asset = key.asset) : f key + f key' ≤ assetSum key.asset f := by
  have le := assetSum_mono key.asset
    (f := Finsupp.single key (f key) + Finsupp.single key' (f key')) (g := f) fun other => by
      rw [Finsupp.add_apply]
      by_cases first : other = key
      · rw [first, Finsupp.single_eq_same, Finsupp.single_eq_of_ne apart, add_zero]
      · rw [Finsupp.single_eq_of_ne first, zero_add]
        exact single_le nonneg key' other
  rwa [map_add, assetSum_single, assetSum_single, if_pos rfl, if_pos same] at le

/-- An available balance and all that is frozen. -/
theorem add_frozenSum_le (nonneg : ∀ key, 0 ≤ f key) (user : ℕ) (asset : String) :
    f ⟨user, .available, asset⟩ + frozenSum asset f ≤ assetSum asset f := by
  have le := assetSum_mono asset
    (f := Finsupp.single ⟨user, .available, asset⟩ (f ⟨user, .available, asset⟩) +
      f.filter fun key => key.type = .freeze)
    (g := f) fun other => by
      rw [Finsupp.add_apply]
      by_cases own : other = ⟨user, .available, asset⟩
      · rw [own, Finsupp.single_eq_same, Finsupp.filter_apply_neg _ _ (by simp), add_zero]
      · rw [Finsupp.single_eq_of_ne own, zero_add]
        exact (filter_freeze_le nonneg other).2
  rwa [map_add, assetSum_single, if_pos rfl] at le

theorem le_frozenSum (nonneg : ∀ key, 0 ≤ f key) (user : ℕ) (asset : String) :
    f ⟨user, .freeze, asset⟩ ≤ frozenSum asset f := by
  have le := le_assetSum (f := f.filter fun key => key.type = .freeze)
    (fun key => (filter_freeze_le nonneg key).1) ⟨user, .freeze, asset⟩
  rwa [Finsupp.filter_apply_pos _ _ (by simp)] at le

end Sums

section Totals

variable [Settings] {l l' : Ledger} {asset : String} {user : ℕ}

theorem Ledger.Sound.accounts_nonneg (sound : l.Sound) (key : BalanceKey) :
    0 ≤ l.accounts key :=
  sound.holds_nonneg key

theorem Ledger.Sound.holds_le_total (sound : l.Sound) (key : BalanceKey) :
    l.holds key ≤ l.total key.asset := by
  rw [total_eq_assetSum]
  exact le_assetSum sound.accounts_nonneg key

theorem Ledger.Sound.owns_le_total (sound : l.Sound) (user : ℕ) (asset : String) :
    l.owns user asset ≤ l.total asset := by
  rw [total_eq_assetSum]
  exact add_le_assetSum sound.accounts_nonneg ⟨user, .available, asset⟩ ⟨user, .freeze, asset⟩
    (by simp) rfl

/-- What a posting adds to the supply of an asset. -/
theorem Ledger.Posts.total {amounts : BalanceKey →₀ ℚ} (posts : l.Posts l' amounts)
    (asset : String) : l'.total asset = l.total asset + assetSum asset amounts := by
  rw [total_eq_assetSum, total_eq_assetSum, posts.accounts, map_add]

end Totals

/-! ## Balance calls -/

section Calls

variable [Libmpdec] [Settings] {l : Ledger} {key : BalanceKey} {type : AssetType} {amount : Mpd}
  {d : ℤ}

/-- An addition whose true sum fits does not round. -/
theorem balanceAdd_fits (sound : l.Sound) (known : getAssetType key.asset = some type)
    (prec : type.precSave ≤ d) (finite : amount.isFinite) (nonneg : 0 ≤ amount.value)
    (grid : OnGrid (-d) amount.value) (small : l.holds key + amount.value < capacity d) :
    (balanceAdd l key amount).2.exact = l.exact := by
  unfold balanceAdd
  rw [known]
  simp only
  split
  · rfl
  cases found : balanceGet l key with
  | none => exact balanceSet_exact l key amount
  | some entry =>
      have ok := sound key entry found
      have entryGrid := sound.holds_onGrid key known
      rw [Ledger.holds_of_some found] at small entryGrid
      have sum := mpdAdd_fits ok.finite finite (InCapacity.of_nonneg
        ((entryGrid.mono (neg_le_neg prec)).add grid) (add_nonneg ok.nonneg nonneg) small)
      simp [Ledger.put, Ledger.observe, sum]

/-- A deduction whose true difference fits does not round. -/
theorem Ledger.deduct_fits (sound : l.Sound) (known : getAssetType key.asset = some type)
    (prec : type.precSave ≤ d) {entry : Mpd} (entryFinite : entry.isFinite)
    (holds : l.holds key = entry.value) (finite : amount.isFinite) (nonneg : 0 ≤ amount.value)
    (le : amount.value ≤ entry.value) (grid : OnGrid (-d) amount.value)
    (small : l.holds key < capacity d) (l' : Ledger) :
    (l'.deduct type key entry amount).2.exact = l'.exact := by
  have entryGrid := sound.holds_onGrid key known
  rw [holds] at entryGrid small
  have difference := mpdSub_fits entryFinite finite (InCapacity.of_nonneg
    ((entryGrid.mono (neg_le_neg prec)).sub grid) (sub_nonneg.mpr le) (by linarith))
  unfold deduct
  simp only
  split
  · simp [balanceDel, observe, difference]
  · simp [put, observe, difference]

theorem balanceSub_fits (sound : l.Sound) (known : getAssetType key.asset = some type)
    (prec : type.precSave ≤ d) (finite : amount.isFinite) (nonneg : 0 ≤ amount.value)
    (grid : OnGrid (-d) amount.value) (small : l.holds key < capacity d) :
    (balanceSub l key amount).2.exact = l.exact := by
  unfold balanceSub
  rw [known]
  simp only
  split
  · rfl
  split
  · rfl
  rename_i entry found
  split
  · rfl
  rename_i notLess
  have ok := sound key entry found
  rw [mpdCmp_lt_zero ok.finite finite, not_lt] at notLess
  exact Ledger.deduct_fits sound known prec ok.finite (Ledger.holds_of_some found) finite nonneg
    notLess grid small l

/-- Moving an amount between the two balances of a user does not round. -/
theorem balanceMove_fits (sound : l.Sound) {source target : BalanceType} {userId : ℕ}
    {asset : String} (known : getAssetType asset = some type) (prec : type.precSave ≤ d)
    (finite : amount.isFinite) (nonneg : 0 ≤ amount.value) (grid : OnGrid (-d) amount.value)
    (apart : source ≠ target) (small : l.total asset < capacity d) :
    (balanceMove source target l userId asset amount).2.exact = l.exact := by
  unfold balanceMove
  rw [known]
  simp only
  split
  · rfl
  split
  · rfl
  rename_i entry found
  split
  · rfl
  rename_i notLess
  have ok := sound _ entry found
  rw [mpdCmp_lt_zero ok.finite finite, not_lt] at notLess
  have holds : l.holds ⟨userId, source, asset⟩ = entry.value := Ledger.holds_of_some found
  have both := add_le_assetSum sound.accounts_nonneg ⟨userId, source, asset⟩
    ⟨userId, target, asset⟩ (by simpa using apart) rfl
  simp only [Ledger.accounts_apply, ← Ledger.total_eq_assetSum, holds] at both
  have targetNonneg := sound.holds_nonneg ⟨userId, target, asset⟩
  have added : (balanceAdd l ⟨userId, target, asset⟩ amount).2.exact = l.exact :=
    balanceAdd_fits sound known prec finite nonneg grid (by linarith)
  split
  · rename_i answer
    rwa [answer] at added
  · rename_i answer
    rw [answer] at added
    exact (Ledger.deduct_fits sound known prec ok.finite holds finite nonneg notLess grid
      (by linarith) _).trans added

/-- A total that fits is the true one. -/
theorem balanceTotal_value (sound : l.Sound) (user : ℕ) {asset : String}
    (known : getAssetType asset = some type) (prec : type.precSave ≤ d)
    (small : l.total asset < capacity d) :
    (balanceTotal l user asset).value = l.owns user asset := by
  have owns := sound.owns_le_total user asset
  have grid (type' : BalanceType) := sound.holds_onGrid ⟨user, type', asset⟩ known
  have fine (type' : BalanceType) := (grid type').mono (neg_le_neg prec)
  have nonneg (type' : BalanceType) := sound.holds_nonneg ⟨user, type', asset⟩
  have first : ∀ entry, balanceGet l ⟨user, .available, asset⟩ = some entry →
      (mpdAdd mpdZero entry).isFinite ∧
        (mpdAdd mpdZero entry).value = l.holds ⟨user, .available, asset⟩ := by
    intro entry found
    have ok := sound _ entry found
    have holds : l.holds ⟨user, .available, asset⟩ = entry.value := Ledger.holds_of_some found
    refine ⟨Libmpdec.add_finite mpdZero_isFinite ok.finite, ?_⟩
    have available := fine .available
    have frozen := nonneg .freeze
    unfold Ledger.owns at owns
    rw [holds] at available owns ⊢
    have sum := mpdAdd_fits mpdZero_isFinite ok.finite (d := d) (by
      rw [mpdZero_value, zero_add]
      exact InCapacity.of_nonneg available ok.nonneg (by linarith))
    rwa [mpdZero_value, zero_add] at sum
  have base : ∃ balance : Mpd, balance.isFinite ∧
      balance.value = l.holds ⟨user, .available, asset⟩ ∧
      balanceTotal l user asset =
        ((balanceGet l ⟨user, .freeze, asset⟩).map (mpdAdd balance)).getD balance := by
    unfold balanceTotal
    simp only
    cases found : balanceGet l ⟨user, .available, asset⟩ with
    | none =>
        refine ⟨mpdZero, rfl, by rw [Ledger.holds_of_none found, mpdZero_value], ?_⟩
        cases balanceGet l ⟨user, .freeze, asset⟩ <;> rfl
    | some entry =>
        refine ⟨_, (first entry found).1, (first entry found).2, ?_⟩
        cases balanceGet l ⟨user, .freeze, asset⟩ <;> rfl
  obtain ⟨balance, finite, value, total⟩ := base
  rw [total]
  unfold Ledger.owns at owns ⊢
  cases found : balanceGet l ⟨user, .freeze, asset⟩ with
  | none =>
      rw [Ledger.holds_of_none found, add_zero, ← value]
      rfl
  | some entry =>
      have ok := sound _ entry found
      have holds : l.holds ⟨user, .freeze, asset⟩ = entry.value := Ledger.holds_of_some found
      have available := fine .available
      have frozen := fine .freeze
      rw [holds] at frozen owns
      rw [← value] at available owns
      have sum := mpdAdd_fits finite ok.finite (InCapacity.of_nonneg (available.add frozen)
        (add_nonneg (value ▸ nonneg .available) ok.nonneg) (by linarith))
      rw [holds, ← value]
      exact sum

omit [Libmpdec] [Settings] in
/-- A row with a true total. -/
theorem World.emit_totals {w : World} {real : Bool} {t : Time} {user : ℕ}
    {asset business : String} {change balance : Mpd} {detail : Detail}
    (true_ : balance.value = w.ledger.owns user asset) :
    (w.emit real (.balanceHistory t user asset business change balance detail)).totals =
      w.totals := by
  cases real with
  | false => rfl
  | true =>
      change (w.totals && decide (balance.value = w.ledger.owns user asset)) = w.totals
      rw [decide_eq_true true_, Bool.and_true]

end Calls

/-! ## Settling -/

/-- The digits the assets of a market are computed with: those they are stored
with, and for the money those of the fee of an ask. -/
structure Covers [Settings] (digits : String → ℤ) (conf : MarketConf) : Prop where
  stock : assetPrec conf.stock ≤ digits conf.stock
  money : assetPrec conf.money ≤ digits conf.money
  fee : conf.stockPrec + conf.moneyPrec + conf.feePrec ≤ digits conf.money

section Settle

variable [Libmpdec] [Settings] {conf : MarketConf} {w : World} {order : Order} {side : Side}
  {source : BalanceType} {f : Fill} {real : Bool} {feeRate : Mpd} {digits : String → ℤ}

omit [Libmpdec] in
theorem Covers.gives (covers : Covers digits conf) (side : Side) :
    assetPrec (conf.gives side) ≤ digits (conf.gives side) := by
  cases side with
  | ask => exact covers.stock
  | bid => exact covers.money

omit [Libmpdec] in
theorem Covers.gets (covers : Covers digits conf) (side : Side) :
    assetPrec (conf.gets side) ≤ digits (conf.gets side) := by
  rw [conf.gets_eq]
  exact covers.gives side.opposite

theorem appendBalanceTrade_fits {asset : String} {type : AssetType} {d : ℤ} (real : Bool)
    (w : World) (order : Order) (change : Mpd) (detail : Detail) (sound : w.ledger.Sound)
    (known : getAssetType asset = some type) (prec : type.precSave ≤ d)
    (small : w.ledger.total asset < capacity d) :
    (appendBalanceTrade real w order asset change detail).totals = w.totals :=
  World.emit_totals (balanceTotal_value sound order.userId known prec small)

theorem settlePays_fits (real : Bool) (market : conf.Ok) (ok : f.Ok conf)
    (covers : Covers digits conf) (sound : w.ledger.Sound)
    (le : (f.pays side).value ≤ w.ledger.holds ⟨order.userId, source, conf.gives side⟩)
    (small : w.ledger.total (conf.gives side) < capacity (digits (conf.gives side)))
    (exact : w.ledger.exact = true) :
    (settlePays real conf w order side source f).ledger.exact = true ∧
      (settlePays real conf w order side source f).totals = w.totals := by
  obtain ⟨type, known⟩ := market.known side
  have prec := covers.gives side
  have paysDigits := ok.paysDigits side
  rw [assetPrec_of_some known] at prec paysDigits
  have holds := sound.holds_le_total ⟨order.userId, source, conf.gives side⟩
  have kept : (settlePays real conf w order side source f).ledger.exact = true := by
    rw [settlePays_ledger]
    exact (balanceSub_fits sound known prec (ok.paysFinite side) (ok.paysPos side).le
      (paysDigits.onGrid.mono (neg_le_neg prec)) (by linarith)).trans exact
  refine ⟨kept, ?_⟩
  have posts := (settlePays_posts market ok sound le kept).1
  have total := posts.total (conf.gives side)
  rw [assetSum_single, if_pos rfl] at total
  rw [settlePays_ledger] at posts total
  have pos := ok.paysPos side
  exact appendBalanceTrade_fits real (w.discard _) order _ _ posts.sound known prec
    (by rw [World.discard_ledger]; linarith)

theorem settleReceives_fits (real : Bool) (order : Order) (market : conf.Ok) (ok : f.Ok conf)
    (covers : Covers digits conf) (sound : w.ledger.Sound)
    (small : w.ledger.total (conf.gets side) + (f.receives side).value <
      capacity (digits (conf.gets side)))
    (exact : w.ledger.exact = true) :
    (settleReceives real conf w order side f).ledger.exact = true ∧
      (settleReceives real conf w order side f).totals = w.totals := by
  obtain ⟨type, known⟩ := market.known side.opposite
  have prec := covers.gets side
  have digits' := ok.paysDigits side.opposite
  have finite := ok.paysFinite side.opposite
  have pos := ok.paysPos side.opposite
  rw [← conf.gets_eq] at known digits'
  rw [← f.receives_eq] at digits' finite pos
  rw [assetPrec_of_some known] at prec digits'
  have holds := sound.holds_le_total ⟨order.userId, .available, conf.gets side⟩
  have kept : (settleReceives real conf w order side f).ledger.exact = true := by
    rw [settleReceives_ledger]
    exact (balanceAdd_fits sound known prec finite pos.le
      (digits'.onGrid.mono (neg_le_neg prec)) (by linarith)).trans exact
  refine ⟨kept, ?_⟩
  have posts := (settleReceives_posts market ok sound kept).1
  have total := posts.total (conf.gets side)
  rw [assetSum_single, if_pos rfl] at total
  rw [settleReceives_ledger] at posts total
  exact appendBalanceTrade_fits real (w.discard _) order _ _ posts.sound known prec
    (by rw [World.discard_ledger]; linarith)

theorem settleFee_fits (real : Bool) (feeRate : Mpd) (market : conf.Ok) (ok : f.Ok conf)
    (covers : Covers digits conf) (sound : w.ledger.Sound)
    (le : (f.fee side).value ≤ w.ledger.holds ⟨order.userId, .available, conf.gets side⟩)
    (grid : OnGrid (-digits (conf.gets side)) (f.fee side).value)
    (small : w.ledger.total (conf.gets side) < capacity (digits (conf.gets side)))
    (exact : w.ledger.exact = true) :
    (settleFee real conf w order side f feeRate).ledger.exact = true ∧
      (settleFee real conf w order side f feeRate).totals = w.totals := by
  obtain ⟨type, known⟩ := market.known side.opposite
  have prec := covers.gets side
  rw [← conf.gets_eq] at known
  rw [assetPrec_of_some known] at prec
  have holds := sound.holds_le_total ⟨order.userId, .available, conf.gets side⟩
  have nonneg := ok.feeNonneg side
  have kept : (settleFee real conf w order side f feeRate).ledger.exact = true := by
    unfold settleFee
    by_cases charged : mpdCmp (f.fee side) mpdZero > 0
    · simp only [if_pos charged]
      unfold appendBalanceTradeFee appendBalanceTrade
      rw [World.emit_ledger, World.discard_ledger]
      exact (balanceSub_fits sound known prec (ok.feeFinite side) nonneg grid
        (by linarith)).trans exact
    · rw [if_neg charged]
      exact exact
  refine ⟨kept, ?_⟩
  have posts := (settleFee_posts market ok sound le kept).1
  have total := posts.total (conf.gets side)
  rw [assetSum_single, if_pos rfl] at total
  have raised := nonneg.trans (le_raiseAt (-assetPrec (conf.gets side)) (f.fee side).value)
  unfold settleFee appendBalanceTradeFee at posts total ⊢
  by_cases charged : mpdCmp (f.fee side) mpdZero > 0
  · simp only [if_pos charged, appendBalanceTrade, World.emit_ledger] at posts total ⊢
    exact appendBalanceTrade_fits real (w.discard _) order _ _ posts.sound known prec
      (by linarith)
  · rw [if_neg charged]

/-- One party's movements do not round while the supply of what it pays and of
what it receives stays below the capacity. -/
theorem settle_fits (real : Bool) (feeRate : Mpd) (w : World) (order : Order) (market : conf.Ok)
    (ok : f.Ok conf) (covers : Covers digits conf) (sound : w.ledger.Sound)
    (le : (f.pays side).value ≤ w.ledger.holds ⟨order.userId, source, conf.gives side⟩)
    (grid : OnGrid (-digits (conf.gets side)) (f.fee side).value)
    (gives : w.ledger.total (conf.gives side) < capacity (digits (conf.gives side)))
    (gets : w.ledger.total (conf.gets side) + (f.receives side).value <
      capacity (digits (conf.gets side)))
    (exact : w.ledger.exact = true) :
    (settle real conf w order side source f feeRate).ledger.exact = true ∧
      (settle real conf w order side source f feeRate).totals = w.totals := by
  obtain ⟨paid, paidTotals⟩ := settlePays_fits real market ok covers sound le gives exact
  have pays := (settlePays_posts market ok sound le paid).1
  have paidTotal := pays.total (conf.gets side)
  rw [assetSum_single] at paidTotal
  have pos := ok.paysPos side
  have fewer : (settlePays real conf w order side source f).ledger.total (conf.gets side) ≤
      w.ledger.total (conf.gets side) := by
    rw [paidTotal]
    split <;> linarith
  obtain ⟨received, receivedTotals⟩ := settleReceives_fits real order market ok covers
    pays.sound (by linarith) paid
  have receives := (settleReceives_posts market ok pays.sound received).1
  have receivedTotal := receives.total (conf.gets side)
  rw [assetSum_single, if_pos rfl] at receivedTotal
  have covered := settle_covered ok pays receives
  obtain ⟨charged, chargedTotals⟩ := settleFee_fits real feeRate market ok
    covers receives.sound covered grid (by linarith) received
  exact ⟨charged, chargedTotals.trans (receivedTotals.trans paidTotals)⟩

end Settle

end ViabtcServer.MatchEngine
