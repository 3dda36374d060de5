import ViabtcServer.MatchEngine.Loop

/-!
# The four rules

How each of the four loops chooses the amount of a fill, whatever its rounding:
the amount is positive, at most what the maker has, and costs the taker at most
what it has left. The search of a market bid never needs a second look, since
quotient and product are both rounded down.
-/

namespace ViabtcServer.MatchEngine

open Decimal Container

variable [Libmpdec]

/-! ## Observing -/

/-- `w'` differs from `w` only in what was observed about rounding. -/
structure World.Observed (w w' : World) : Prop extends World.SameOrders w w' where
  balances : w'.ledger.balances = w.ledger.balances
  exact : w'.ledger.exact = true → w.ledger.exact = true
  ignored : w'.ignored = w.ignored
  out : w'.out = w.out
  totals : w'.totals = w.totals

omit [Libmpdec] in
theorem World.Observed.refl (w : World) : w.Observed w :=
  ⟨.refl w, rfl, id, rfl, rfl, rfl⟩

omit [Libmpdec] in
theorem World.Observed.trans {w w' w'' : World} (one : w.Observed w') (two : w'.Observed w'') :
    w.Observed w'' :=
  ⟨one.toSameOrders.trans two.toSameOrders, two.balances.trans one.balances,
    one.exact ∘ two.exact, two.ignored.trans one.ignored, two.out.trans one.out,
    two.totals.trans one.totals⟩

omit [Libmpdec] in
theorem World.observe_observed (w : World) (result : Mpd) (expected : ℚ) :
    w.Observed (w.observe result expected) := by
  refine ⟨w.observe_sameOrders result expected, rfl, ?_, rfl, rfl, rfl⟩
  intro exact
  rw [observe_ledger, Ledger.exact_observe] at exact
  exact exact.1

omit [Libmpdec] in
theorem World.Observed.holds {w w' : World} (same : w.Observed w') (key : BalanceKey) :
    w'.ledger.holds key = w.ledger.holds key := by
  unfold Ledger.holds
  rw [same.balances]

omit [Libmpdec] in
theorem World.Observed.accounts {w w' : World} (same : w.Observed w') :
    w'.ledger.accounts = w.ledger.accounts :=
  Finsupp.ext same.holds

omit [Libmpdec] in
theorem World.Observed.sound [Settings] {w w' : World} (same : w.Observed w')
    (sound : w.ledger.Sound) : w'.ledger.Sound := by
  intro key entry found
  rw [same.balances] at found
  exact sound key entry found

/-! ## Choosing an amount -/

/-- What is left of a taker is a number, possibly zero. -/
structure TakerSane (taker : Order) : Prop where
  finite : taker.left.isFinite
  nonneg : 0 ≤ taker.left.value

/-- A maker has a price and something left. -/
structure MakerSane (maker : Order) : Prop where
  priceFinite : maker.price.isFinite
  pricePos : 0 < maker.price.value
  leftFinite : maker.left.isFinite
  leftPos : 0 < maker.left.value

theorem TakerSane.pos {taker : Order} (sane : TakerSane taker)
    (unfinished : mpdCmp taker.left mpdZero ≠ 0) : 0 < taker.left.value := by
  rw [ne_eq, mpdCmp_eq_zero sane.finite mpdZero_isFinite, mpdZero_value] at unfinished
  exact lt_of_le_of_ne sane.nonneg (Ne.symm unfinished)

/-- A rule chooses sane amounts: positive, at most what the maker has, and at
most what the taker can spend. -/
structure MatchRule.Sane (rule : MatchRule) : Prop where
  observes : ∀ {fuel st maker w choice}, rule.volume fuel st maker = some (w, choice) →
    st.world.Observed w
  volume : ∀ {fuel st maker}, TakerSane st.taker → MakerSane maker →
    ∃ choice, rule.volume (fuel + 1) st maker = some choice
  chooses : ∀ {fuel st maker w amount}, TakerSane st.taker → MakerSane maker →
    mpdCmp st.taker.left mpdZero ≠ 0 → rule.volume fuel st maker = some (w, some amount) →
    amount.isFinite ∧ 0 < amount.value ∧ amount.value ≤ maker.left.value
  spends : ∀ {fuel st maker w amount}, TakerSane st.taker → MakerSane maker →
    mpdCmp st.taker.left mpdZero ≠ 0 → rule.volume fuel st maker = some (w, some amount) →
    ∀ {f : Fill}, f.amount = amount → f.deal = mpdMul maker.price amount →
      (rule.spends f).isFinite ∧ 0 ≤ (rule.spends f).value ∧
        (rule.spends f).value ≤ st.taker.left.value

/-! ### The smaller rest -/

theorem minLeft_spec {taker maker : Order} (takerSane : TakerSane taker)
    (makerSane : MakerSane maker) :
    (minLeft taker maker = taker.left ∨ minLeft taker maker = maker.left) ∧
      (minLeft taker maker).isFinite ∧
      (minLeft taker maker).value = min taker.left.value maker.left.value := by
  unfold minLeft
  split
  · rename_i less
    rw [mpdCmp_lt_zero takerSane.finite makerSane.leftFinite] at less
    exact ⟨Or.inl rfl, takerSane.finite, (min_eq_left less.le).symm⟩
  · rename_i notLess
    rw [mpdCmp_lt_zero takerSane.finite makerSane.leftFinite, not_lt] at notLess
    exact ⟨Or.inr rfl, makerSane.leftFinite, (min_eq_right notLess).symm⟩

/-- A rule that takes the smaller rest and counts it in stock is sane. -/
theorem sane_of_restVolume {rule : MatchRule} (volume : rule.volume = restVolume)
    (spends : rule.spends = Fill.amount) : rule.Sane where
  observes {fuel st maker w choice} chosen := by
    rw [volume, restVolume] at chosen
    obtain ⟨rfl, _⟩ := Prod.mk.inj (Option.some.inj chosen)
    exact .refl _
  volume {fuel st maker} _ _ := by
    rw [volume]
    exact ⟨_, rfl⟩
  chooses {fuel st maker w amount} taker maker unfinished chosen := by
    rw [volume, restVolume] at chosen
    obtain ⟨_, same⟩ := Prod.mk.inj (Option.some.inj chosen)
    obtain rfl := Option.some.inj same
    obtain ⟨_, finite, value⟩ := minLeft_spec taker maker
    refine ⟨finite, ?_, ?_⟩
    · rw [value]
      exact lt_min (taker.pos unfinished) maker.leftPos
    · rw [value]
      exact min_le_right _ _
  spends {fuel st maker w amount} taker maker _ chosen f same _ := by
    rw [volume, restVolume] at chosen
    obtain ⟨_, chosen⟩ := Prod.mk.inj (Option.some.inj chosen)
    obtain rfl := Option.some.inj chosen
    obtain ⟨_, finite, value⟩ := minLeft_spec taker maker
    rw [spends, same]
    exact ⟨finite, value ▸ le_min taker.nonneg maker.leftPos.le, value ▸ min_le_left _ _⟩

theorem limitAskRule_sane : limitAskRule.Sane := sane_of_restVolume rfl rfl

theorem limitBidRule_sane : limitBidRule.Sane := sane_of_restVolume rfl rfl

theorem marketAskRule_sane : marketAskRule.Sane := sane_of_restVolume rfl rfl

/-! ### What the money pays -/

theorem lowerAmount_observed {prec : ℤ} {left price : Mpd} :
    ∀ {fuel : ℕ} {w w' : World} {amount amount' : Mpd},
      lowerAmount prec left price fuel w amount = some (w', amount') → w.Observed w'
  | 0, _, _, _, _ => nofun
  | fuel + 1, w, w', amount, amount' => by
      intro run
      simp only [lowerAmount] at run
      split at run
      · exact ((w.observe_observed _ _).trans (World.observe_observed _ _ _)).trans
          (lowerAmount_observed run)
      · obtain ⟨rfl, _⟩ := Prod.mk.inj (Option.some.inj run)
        exact w.observe_observed _ _

/-- An amount the money pays for is accepted at the first look. -/
theorem lowerAmount_stops (prec : ℤ) {left price amount : Mpd} (fuel : ℕ) (w : World)
    (leftFinite : left.isFinite) (priceFinite : price.isFinite) (finite : amount.isFinite)
    (pricePos : 0 < price.value) (nonneg : 0 ≤ amount.value)
    (le : amount.value * price.value ≤ left.value) :
    lowerAmount prec left price (fuel + 1) w amount =
      some (w.observe (mpdMul amount price) (amount.value * price.value), amount) := by
  have product := Libmpdec.mul_rounds finite priceFinite
  have accepted : ¬ mpdCmp (mpdMul amount price) left > 0 := by
    rw [gt_iff_lt, mpdCmp_gt_zero (Libmpdec.mul_finite finite priceFinite) leftFinite, not_lt]
    exact (product.le (mul_nonneg nonneg pricePos.le)).trans le
  simp only [lowerAmount, if_neg accepted]

/-- The amount `execute_market_bid_order` settles on. -/
def moneyAmount (prec : ℤ) (taker maker : Order) : Mpd :=
  let quotient := mpdRescale (mpdDiv taker.left maker.price) (-prec)
  if mpdCmp quotient maker.left > 0 then maker.left else quotient

section Money

variable (prec : ℤ) {taker maker : Order}

theorem quotient_spec (takerSane : TakerSane taker) (makerSane : MakerSane maker) :
    (mpdRescale (mpdDiv taker.left maker.price) (-prec)).isFinite ∧
      0 ≤ (mpdRescale (mpdDiv taker.left maker.price) (-prec)).value ∧
      (mpdRescale (mpdDiv taker.left maker.price) (-prec)).value * maker.price.value ≤
        taker.left.value := by
  have nonzero := makerSane.pricePos.ne'
  have finite := Libmpdec.div_finite takerSane.finite makerSane.priceFinite nonzero
  have rounds := Libmpdec.div_rounds takerSane.finite makerSane.priceFinite nonzero
  have nonneg : 0 ≤ taker.left.value / maker.price.value :=
    div_nonneg takerSane.nonneg makerSane.pricePos.le
  have quotientNonneg := rounds.nonneg nonneg
  refine ⟨rescale_isFinite _ finite, ?_, ?_⟩
  · rw [Libmpdec.rescale_value _ finite]
    exact truncateAt_nonneg quotientNonneg
  · rw [Libmpdec.rescale_value _ finite, ← le_div_iff₀ makerSane.pricePos]
    exact (truncateAt_le quotientNonneg).trans (rounds.le nonneg)

theorem moneyAmount_spec (takerSane : TakerSane taker) (makerSane : MakerSane maker) :
    (moneyAmount prec taker maker).isFinite ∧ 0 ≤ (moneyAmount prec taker maker).value ∧
      (moneyAmount prec taker maker).value ≤ maker.left.value ∧
      (moneyAmount prec taker maker).value * maker.price.value ≤ taker.left.value := by
  obtain ⟨finite, nonneg, le⟩ := quotient_spec prec takerSane makerSane
  unfold moneyAmount
  simp only
  split
  · rename_i greater
    rw [gt_iff_lt, mpdCmp_gt_zero finite makerSane.leftFinite] at greater
    exact ⟨makerSane.leftFinite, makerSane.leftPos.le, le_rfl,
      (mul_le_mul_of_nonneg_right greater.le makerSane.pricePos.le).trans le⟩
  · rename_i notGreater
    rw [gt_iff_lt, mpdCmp_gt_zero finite makerSane.leftFinite, not_lt] at notGreater
    exact ⟨finite, nonneg, notGreater, le⟩

end Money

theorem moneyVolume_eq (fuel : ℕ) {st : LoopState} {maker : Order}
    (takerSane : TakerSane st.taker) (makerSane : MakerSane maker) :
    ∃ result expected, moneyVolume (fuel + 1) st maker =
      some (st.world.observe result expected,
        if mpdCmp (moneyAmount st.market.stockPrec st.taker maker) mpdZero = 0 then none
        else some (moneyAmount st.market.stockPrec st.taker maker)) := by
  obtain ⟨finite, nonneg, le⟩ := quotient_spec st.market.stockPrec takerSane makerSane
  have stops := lowerAmount_stops st.market.stockPrec fuel st.world
    takerSane.finite makerSane.priceFinite finite makerSane.pricePos nonneg le
  refine ⟨mpdMul (mpdRescale (mpdDiv st.taker.left maker.price) (-st.market.stockPrec)) maker.price,
    (mpdRescale (mpdDiv st.taker.left maker.price) (-st.market.stockPrec)).value *
      maker.price.value, ?_⟩
  simp only [moneyVolume, stops]
  change (if mpdCmp (moneyAmount st.market.stockPrec st.taker maker) mpdZero = 0 then _
    else some (_, some (moneyAmount st.market.stockPrec st.taker maker))) = _
  split <;> rfl

theorem moneyVolume_some {fuel : ℕ} {st : LoopState} {maker : Order} {w : World} {amount : Mpd}
    (takerSane : TakerSane st.taker) (makerSane : MakerSane maker)
    (chosen : moneyVolume fuel st maker = some (w, some amount)) :
    amount = moneyAmount st.market.stockPrec st.taker maker ∧ mpdCmp amount mpdZero ≠ 0 := by
  cases fuel with
  | zero => simp [moneyVolume, lowerAmount] at chosen
  | succ fuel =>
      obtain ⟨result, expected, volume⟩ := moneyVolume_eq fuel takerSane makerSane
      rw [volume] at chosen
      obtain ⟨_, choice⟩ := Prod.mk.inj (Option.some.inj chosen)
      split at choice
      · cases choice
      · rename_i nonzero
        obtain rfl := Option.some.inj choice
        exact ⟨rfl, nonzero⟩

theorem marketBidRule_sane : marketBidRule.Sane where
  observes {fuel st maker w choice} chosen := by
    simp only [marketBidRule, moneyVolume] at chosen
    split at chosen
    · cases chosen
    · rename_i lowered
      have observed := lowerAmount_observed lowered
      split at chosen
      all_goals
        split at chosen
        all_goals
          obtain ⟨rfl, _⟩ := Prod.mk.inj (Option.some.inj chosen)
          exact observed
  volume {fuel st maker} taker maker := by
    obtain ⟨result, expected, volume⟩ := moneyVolume_eq fuel taker maker
    exact ⟨_, volume⟩
  chooses {fuel st maker w amount} taker maker _ chosen := by
    obtain ⟨rfl, nonzero⟩ := moneyVolume_some taker maker chosen
    obtain ⟨finite, nonneg, le, _⟩ := moneyAmount_spec st.market.stockPrec taker maker
    rw [ne_eq, mpdCmp_eq_zero finite mpdZero_isFinite, mpdZero_value] at nonzero
    exact ⟨finite, lt_of_le_of_ne nonneg (Ne.symm nonzero), le⟩
  spends {fuel st maker w amount} taker maker _ chosen f _ deal := by
    obtain ⟨rfl, _⟩ := moneyVolume_some taker maker chosen
    obtain ⟨finite, nonneg, _, le⟩ := moneyAmount_spec st.market.stockPrec taker maker
    change f.deal.isFinite = true ∧ 0 ≤ f.deal.value ∧ f.deal.value ≤ _
    rw [deal]
    have rounds := Libmpdec.mul_rounds maker.priceFinite finite
    have product := mul_nonneg maker.pricePos.le nonneg
    refine ⟨Libmpdec.mul_finite maker.priceFinite finite, rounds.nonneg product, ?_⟩
    refine (rounds.le product).trans ?_
    rwa [mul_comm]

end ViabtcServer.MatchEngine
