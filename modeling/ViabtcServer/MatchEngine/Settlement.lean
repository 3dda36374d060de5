import ViabtcServer.MatchEngine.Account
import ViabtcServer.MatchEngine.Index

/-!
# Settling a fill

The balance movements of one fill. Each party pays from one balance, receives
into another and pays its fee from what it received; none of the three calls can
be refused, and together they post a fixed amount to the accounts.
-/

namespace ViabtcServer.MatchEngine

open Decimal Container

variable [Settings]

/-! ## Precisions -/

theorem assetPrec_of_some {asset : String} {type : AssetType}
    (known : getAssetType asset = some type) : assetPrec asset = type.precSave := by
  simp [assetPrec, known]

/-- What `market_create` checks. -/
structure MarketConf.Ok (conf : MarketConf) : Prop where
  stock : assetExist conf.stock
  money : assetExist conf.money
  dealPrec : conf.stockPrec + conf.moneyPrec ≤ assetPrec conf.money
  bidFeePrec : conf.stockPrec + conf.feePrec ≤ assetPrec conf.stock
  askFeePrec : conf.moneyPrec + conf.feePrec ≤ assetPrec conf.money

theorem marketCreate_ok {conf : MarketConf} {m : Market} (created : marketCreate conf = some m) :
    conf.Ok ∧ m = { conf with orders := ∅, users := ∅, asks := [], bids := [] } := by
  unfold marketCreate at created
  split at created
  · cases created
  split at created
  · cases created
  split at created
  · cases created
  split at created
  · cases created
  rename_i known deal bidFee askFee
  simp only [Bool.not_eq_eq_eq_not, Bool.not_true, Bool.or_eq_true, not_or,
    Bool.not_eq_false] at known
  exact ⟨⟨known.1, known.2, not_lt.mp deal, not_lt.mp bidFee, not_lt.mp askFee⟩,
    (Option.some.inj created).symm⟩

theorem MarketConf.Ok.known {conf : MarketConf} (ok : conf.Ok) (side : Side) :
    ∃ type, getAssetType (conf.gives side) = some type := by
  cases side with
  | ask => exact Option.isSome_iff_exists.mp ok.stock
  | bid => exact Option.isSome_iff_exists.mp ok.money

omit [Settings] in
theorem MarketConf.gets_eq (conf : MarketConf) (side : Side) :
    conf.gets side = conf.gives side.opposite := by
  cases side <;> rfl

omit [Settings] in
theorem Fill.receives_eq (f : Fill) (side : Side) : f.receives side = f.pays side.opposite := by
  cases side <;> rfl

omit [Settings] in
@[simp]
theorem Side.opposite_opposite (side : Side) : side.opposite.opposite = side := by
  cases side <;> rfl

omit [Settings] in
theorem Side.eq_opposite_of_ne {side other : Side} (differ : side ≠ other) :
    side = other.opposite := by
  cases side <;> cases other <;> first | rfl | exact absurd rfl differ

/-! ## Sound fills -/

/-- Both parties pay a positive amount their asset can be stored with, and no
fee exceeds what its payer receives. -/
structure Fill.Ok (conf : MarketConf) (f : Fill) : Prop where
  paysFinite : ∀ side, (f.pays side).isFinite
  paysPos : ∀ side, 0 < (f.pays side).value
  paysDigits : ∀ side, FracDigits (assetPrec (conf.gives side)) (f.pays side).value
  feeFinite : ∀ side, (f.fee side).isFinite
  feeNonneg : ∀ side, 0 ≤ (f.fee side).value
  fee_le : ∀ side, (f.fee side).value ≤ (f.receives side).value
  bidFeeDigits : FracDigits (assetPrec conf.stock) f.bidFee.value

/-- What one party's movements post: it pays, receives, and is charged its fee
rounded up to the digits of the asset received. -/
noncomputable def settlement (conf : MarketConf) (userId : ℕ) (side : Side) (source : BalanceType)
    (f : Fill) : BalanceKey →₀ ℚ :=
  Finsupp.single ⟨userId, source, conf.gives side⟩ (-(f.pays side).value) +
    Finsupp.single ⟨userId, .available, conf.gets side⟩
      ((f.receives side).value - raiseAt (-assetPrec (conf.gets side)) (f.fee side).value)

section Settle

variable [Libmpdec] {conf : MarketConf} {w : World} {order : Order} {side : Side}
  {source : BalanceType} {f : Fill} {real : Bool} {feeRate : Mpd}

theorem settlePays_sameOrders (real : Bool) (conf : MarketConf) (w : World) (order : Order)
    (side : Side) (source : BalanceType) (f : Fill) :
    w.SameOrders (settlePays real conf w order side source f) :=
  (w.discard_sameOrders _).trans (World.emit_sameOrders _ _ _)

theorem settleReceives_sameOrders (real : Bool) (conf : MarketConf) (w : World) (order : Order)
    (side : Side) (f : Fill) : w.SameOrders (settleReceives real conf w order side f) :=
  (w.discard_sameOrders _).trans (World.emit_sameOrders _ _ _)

theorem settleFee_sameOrders (real : Bool) (conf : MarketConf) (w : World) (order : Order)
    (side : Side) (f : Fill) (feeRate : Mpd) :
    w.SameOrders (settleFee real conf w order side f feeRate) := by
  unfold settleFee
  split
  · exact (w.discard_sameOrders _).trans (World.emit_sameOrders _ _ _)
  · exact .refl w

/-- Settling writes no order. -/
theorem settle_sameOrders (real : Bool) (conf : MarketConf) (w : World) (order : Order)
    (side : Side) (source : BalanceType) (f : Fill) (feeRate : Mpd) :
    w.SameOrders (settle real conf w order side source f feeRate) :=
  (settlePays_sameOrders real conf w order side source f).trans <|
    (settleReceives_sameOrders real conf _ order side f).trans <|
      settleFee_sameOrders real conf _ order side f feeRate

theorem settlePays_ledger : (settlePays real conf w order side source f).ledger =
    (balanceSub w.ledger ⟨order.userId, source, conf.gives side⟩ (f.pays side)).2 :=
  World.emit_ledger _ _ _

theorem settleReceives_ledger : (settleReceives real conf w order side f).ledger =
    (balanceAdd w.ledger ⟨order.userId, .available, conf.gets side⟩ (f.receives side)).2 :=
  World.emit_ledger _ _ _

theorem settleFee_exact
    (exact : (settleFee real conf w order side f feeRate).ledger.exact = true) :
    w.ledger.exact = true := by
  unfold settleFee at exact
  split at exact
  · simp only [appendBalanceTradeFee, appendBalanceTrade, World.emit_ledger,
      World.discard_ledger] at exact
    exact balanceSub_exact exact
  · exact exact

theorem settle_exact
    (exact : (settle real conf w order side source f feeRate).ledger.exact = true) :
    w.ledger.exact = true := by
  have received := settleFee_exact exact
  rw [settleReceives_ledger] at received
  have paid := balanceAdd_exact received
  rw [settlePays_ledger] at paid
  exact balanceSub_exact paid

omit [Settings] [Libmpdec] in
/-- A call that answers is not counted as ignored. -/
theorem World.discard_answered {call : Option Mpd × Ledger} {result : Mpd} {l : Ledger}
    (answered : call = (some result, l)) :
    (w.discard call).ledger = l ∧ (w.discard call).ignored = w.ignored := by
  subst answered
  exact ⟨rfl, rfl⟩

theorem settlePays_posts (market : conf.Ok) (ok : f.Ok conf) (sound : w.ledger.Sound)
    (le : (f.pays side).value ≤ w.ledger.holds ⟨order.userId, source, conf.gives side⟩)
    (exact : (settlePays real conf w order side source f).ledger.exact = true) :
    w.ledger.Posts (settlePays real conf w order side source f).ledger
        (Finsupp.single ⟨order.userId, source, conf.gives side⟩ (-(f.pays side).value)) ∧
      (settlePays real conf w order side source f).ignored = w.ignored := by
  obtain ⟨type, known⟩ := market.known side
  have digits := ok.paysDigits side
  rw [assetPrec_of_some known] at digits
  obtain ⟨result, l, call, posts⟩ := balanceSub_posts sound
    ⟨order.userId, source, conf.gives side⟩ known digits.nonneg (ok.paysFinite side)
    (ok.paysPos side) le
  rw [digits.raiseAt_eq] at posts
  have ledger : (settlePays real conf w order side source f).ledger = l := by
    rw [settlePays_ledger, call]
  rw [ledger] at exact ⊢
  exact ⟨posts exact, (World.emit_ignored _ _ _).trans (World.discard_answered call).2⟩

theorem settleReceives_posts (market : conf.Ok) (ok : f.Ok conf) (sound : w.ledger.Sound)
    (exact : (settleReceives real conf w order side f).ledger.exact = true) :
    w.ledger.Posts (settleReceives real conf w order side f).ledger
        (Finsupp.single ⟨order.userId, .available, conf.gets side⟩ (f.receives side).value) ∧
      (settleReceives real conf w order side f).ignored = w.ignored := by
  obtain ⟨type, known⟩ := market.known side.opposite
  have digits := ok.paysDigits side.opposite
  have finite := ok.paysFinite side.opposite
  have pos := ok.paysPos side.opposite
  rw [← conf.gets_eq] at known digits
  rw [← f.receives_eq] at digits finite pos
  rw [assetPrec_of_some known] at digits
  obtain ⟨result, l, call, posts⟩ := balanceAdd_posts sound
    ⟨order.userId, .available, conf.gets side⟩ known digits.nonneg finite pos.le
  rw [digits.truncateAt_eq] at posts
  have ledger : (settleReceives real conf w order side f).ledger = l := by
    rw [settleReceives_ledger, call]
  rw [ledger] at exact ⊢
  exact ⟨posts exact, (World.emit_ignored _ _ _).trans (World.discard_answered call).2⟩

theorem settleFee_posts (market : conf.Ok) (ok : f.Ok conf) (sound : w.ledger.Sound)
    (le : (f.fee side).value ≤ w.ledger.holds ⟨order.userId, .available, conf.gets side⟩)
    (exact : (settleFee real conf w order side f feeRate).ledger.exact = true) :
    w.ledger.Posts (settleFee real conf w order side f feeRate).ledger
        (Finsupp.single ⟨order.userId, .available, conf.gets side⟩
          (-raiseAt (-assetPrec (conf.gets side)) (f.fee side).value)) ∧
      (settleFee real conf w order side f feeRate).ignored = w.ignored := by
  have sign := mpdCmp_gt_zero (ok.feeFinite side) mpdZero_isFinite
  rw [mpdZero_value] at sign
  unfold settleFee at exact ⊢
  by_cases charged : mpdCmp (f.fee side) mpdZero > 0
  · simp only [if_pos charged] at exact ⊢
    obtain ⟨type, known⟩ := market.known side.opposite
    rw [← conf.gets_eq] at known
    have prec := (ok.paysDigits side.opposite).nonneg
    rw [← conf.gets_eq, assetPrec_of_some known] at prec
    obtain ⟨result, l, call, posts⟩ := balanceSub_posts sound
      ⟨order.userId, .available, conf.gets side⟩ known prec (ok.feeFinite side)
      (sign.mp charged) le
    have answered := World.discard_answered (w := w) call
    simp only [appendBalanceTradeFee, appendBalanceTrade, World.emit_ledger, World.emit_ignored]
      at exact ⊢
    rw [answered.1] at exact ⊢
    rw [assetPrec_of_some known]
    exact ⟨posts exact, answered.2⟩
  · rw [if_neg charged]
    have zero : (f.fee side).value = 0 :=
      le_antisymm (not_lt.mp (sign.not.mp charged)) (ok.feeNonneg side)
    rw [zero, raiseAt_of_onGrid (OnGrid.zero _), neg_zero, Finsupp.single_zero]
    exact ⟨sound.posts, rfl⟩

omit [Libmpdec] in
/-- What was received is still there when the fee is due. -/
theorem settle_covered {paid received : World} (ok : f.Ok conf)
    (pays : w.ledger.Posts paid.ledger
      (Finsupp.single ⟨order.userId, source, conf.gives side⟩ (-(f.pays side).value)))
    (receives : paid.ledger.Posts received.ledger
      (Finsupp.single ⟨order.userId, .available, conf.gets side⟩ (f.receives side).value)) :
    (f.fee side).value ≤ received.ledger.holds ⟨order.userId, .available, conf.gets side⟩ := by
  rw [receives.holds, Finsupp.single_eq_same]
  have nonneg := pays.sound.holds_nonneg ⟨order.userId, .available, conf.gets side⟩
  linarith [ok.fee_le side]

/-- One party's movements all succeed and post its settlement. -/
theorem settle_posts (market : conf.Ok) (ok : f.Ok conf) (w : World) (order : Order)
    (sound : w.ledger.Sound)
    (le : (f.pays side).value ≤ w.ledger.holds ⟨order.userId, source, conf.gives side⟩)
    (exact : (settle real conf w order side source f feeRate).ledger.exact = true) :
    w.ledger.Posts (settle real conf w order side source f feeRate).ledger
        (settlement conf order.userId side source f) ∧
      (settle real conf w order side source f feeRate).ignored = w.ignored := by
  have received := settleFee_exact exact
  have paid : (settlePays real conf w order side source f).ledger.exact = true := by
    rw [settleReceives_ledger] at received
    exact balanceAdd_exact received
  obtain ⟨pays, paysIgnored⟩ := settlePays_posts market ok sound le paid
  obtain ⟨receives, receivesIgnored⟩ := settleReceives_posts market ok pays.sound received
  have covered := settle_covered ok pays receives
  obtain ⟨fee, feeIgnored⟩ := settleFee_posts market ok receives.sound covered exact
  refine ⟨?_, feeIgnored.trans (receivesIgnored.trans paysIgnored)⟩
  have all := (pays.trans receives).trans fee
  unfold settlement
  rwa [add_assoc, ← Finsupp.single_add, ← sub_eq_add_neg] at all

end Settle

end ViabtcServer.MatchEngine
