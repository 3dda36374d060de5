import ViabtcServer.Auction.Purchase
import ViabtcServer.MatchEngine.Depth
import ViabtcServer.MatchEngine.MarketOrder

/-!
# What a market bid spends

`execute_market_bid_order` buys from the asks in match order, of each the most that the
money left pays in units of the stock, and stops where it pays for no unit. The fills are
those of a buyer who walks the asks of the book.
-/

namespace ViabtcServer.MatchEngine

open Decimal Container

/-! ## What money pays -/

section Affords

variable {prec : ℤ} {money : ℚ} {maker : Order}

/-- The most that money pays at the price of a maker, in units of the stock. -/
def affords (prec : ℤ) (money : ℚ) (maker : Order) : ℚ :=
  truncateAt (-prec) (money / maker.price.value)

theorem affords_isGreatest (prec : ℤ) (nonneg : 0 ≤ money) (positive : 0 < maker.price.value) :
    IsGreatest {amount | OnGrid (-prec) amount ∧ amount * maker.price.value ≤ money}
      (affords prec money maker) := by
  have quotient : 0 ≤ money / maker.price.value := div_nonneg nonneg positive.le
  constructor
  · exact ⟨truncateAt_onGrid _ _, (le_div_iff₀ positive).mp (truncateAt_le quotient)⟩
  · rintro amount ⟨grid, le⟩
    exact le_truncateAt quotient grid ((le_div_iff₀ positive).mpr le)

/-- One unit more would be too much. -/
theorem lt_affords_add (prec : ℤ) (nonneg : 0 ≤ money) (positive : 0 < maker.price.value) :
    money - maker.price.value * affords prec money maker < maker.price.value * 10 ^ (-prec) := by
  have quotient : 0 ≤ money / maker.price.value := div_nonneg nonneg positive.le
  have less : money / maker.price.value < affords prec money maker + 10 ^ (-prec) :=
    lt_truncateAt_add quotient
  rw [div_lt_iff₀ positive] at less
  linarith

/-- 34 digits write what is left of a number cut to `prec` digits after the point. -/
def CutFits (prec : ℤ) (q : ℚ) : Prop :=
  mpdEtiny ≤ -prec ∧ -prec ≤ mpdEtop ∧ |truncate (q / 10 ^ (-prec))| < 10 ^ mpdPrec

instance (prec : ℤ) (q : ℚ) : Decidable (CutFits prec q) :=
  inferInstanceAs (Decidable (_ ∧ _ ∧ _))

theorem CutFits.sigDigits {q : ℚ} (fits : CutFits prec q) :
    SigDigits mpdCtx (truncateAt (-prec) q) :=
  ⟨_, _, fits.2.2, fits.1, fits.2.1, rfl⟩

/-- The quotients fit 34 digits at the digits of the stock. -/
def MoneyFits (prec : ℤ) (money : ℚ) (asks : List Order) : Prop :=
  ∀ ask ∈ asks, CutFits prec (money / ask.price.value)

theorem truncate_mono {q r : ℚ} (nonneg : 0 ≤ q) (le : q ≤ r) : truncate q ≤ truncate r := by
  rw [truncate_of_nonneg nonneg, truncate_of_nonneg (nonneg.trans le)]
  exact Int.floor_mono le

/-- Less money has smaller quotients. -/
theorem MoneyFits.mono {less : ℚ} {asks : List Order} (fits : MoneyFits prec money asks)
    (nonneg : 0 ≤ less) (le : less ≤ money) (prices : ∀ ask ∈ asks, 0 < ask.price.value) :
    MoneyFits prec less asks := by
  intro ask mem
  have unit : (0 : ℚ) < 10 ^ (-prec) := zpow_pos (by norm_num) _
  have positive := prices ask mem
  have quotient : 0 ≤ less / ask.price.value / 10 ^ (-prec) :=
    div_nonneg (div_nonneg nonneg positive.le) unit.le
  have smaller : less / ask.price.value / 10 ^ (-prec) ≤ money / ask.price.value / 10 ^ (-prec) :=
    div_le_div_of_nonneg_right (div_le_div_of_nonneg_right le positive.le) unit.le
  rcases fits ask mem with ⟨low, high, bound⟩
  refine ⟨low, high, ?_⟩
  rw [abs_of_nonneg (truncate_nonneg (quotient.trans smaller))] at bound
  rw [abs_of_nonneg (truncate_nonneg quotient)]
  exact (truncate_mono quotient smaller).trans_lt bound

variable [Libmpdec]

/-- The loop settles on the most the money pays, or on all the maker has. -/
theorem moneyAmount_value {taker : Order} (takerSane : TakerSane taker)
    (makerSane : MakerSane maker)
    (fits : CutFits prec (taker.left.value / maker.price.value)) :
    (moneyAmount prec taker maker).value =
      min maker.left.value (affords prec taker.left.value maker) := by
  have nonzero := makerSane.pricePos.ne'
  have finite := Libmpdec.div_finite takerSane.finite makerSane.priceFinite nonzero
  have rounds := Libmpdec.div_rounds takerSane.finite makerSane.priceFinite nonzero
  have quotient : (mpdRescale (mpdDiv taker.left maker.price) (-prec)).value =
      affords prec taker.left.value maker := by
    rw [Libmpdec.rescale_value _ finite]
    exact rounds.truncateAt_eq (div_nonneg takerSane.nonneg makerSane.pricePos.le)
      fits.sigDigits
  have rescaled := rescale_isFinite (-prec) finite
  unfold moneyAmount
  simp only
  split
  · rename_i greater
    rw [gt_iff_lt, mpdCmp_gt_zero rescaled makerSane.leftFinite, quotient] at greater
    exact (min_eq_left greater.le).symm
  · rename_i notGreater
    rw [gt_iff_lt, mpdCmp_gt_zero rescaled makerSane.leftFinite, not_lt, quotient] at notGreater
    rw [quotient, min_eq_right notGreater]

end Affords

/-! ## One fill -/

section Fills

variable [Libmpdec] [Settings] {real : Bool} {now : Time} {st : LoopState} {node : Ref}
  {maker : Order} {amount : Mpd}

/-- The amounts of a fill of a market bid, while nothing rounds. -/
structure Bought (now : Time) (st : LoopState) (maker : Order) (amount : Mpd) : Prop where
  deal : (mpdMul maker.price amount).value = maker.price.value * amount.value
  taker : (st.takerAfter now marketBidRule maker amount).left.value =
    st.taker.left.value - maker.price.value * amount.value
  maker : (st.makerAfter now marketBidRule maker amount).left.value =
    maker.left.value - amount.value

theorem bought_of_exact
    (exact : (matchFill real now marketBidRule st node maker amount).world.ledger.exact = true) :
    Bought now st maker amount := by
  rcases fillMaker_exact (matchFill_exact exact) with ⟨paid, makerLeft, _⟩
  rcases fillTaker_exact paid with ⟨opened, takerLeft⟩
  rw [openedWorld_ledger] at opened
  simp only [World.observeFill, World.observe_ledger, Ledger.exact_observe] at opened
  have deal : (mpdMul maker.price amount).value = maker.price.value * amount.value :=
    opened.1.1.2
  constructor
  · exact deal
  · rw [← deal]
    exact takerLeft
  · exact makerLeft

end Fills

/-! ## The loop -/

/-- The money that fills take from a market bid. -/
def paid (fills : List Fill) : ℚ :=
  (fills.map fun f => f.deal.value).sum

theorem paid_append (fills : List Fill) (f : Fill) :
    paid (fills ++ [f]) = paid fills + f.deal.value := by
  unfold paid
  rw [List.map_append, List.sum_append]
  simp

section Loop

variable [Libmpdec] {start st : LoopState} {rest : List Ref} {node : Ref}
  {maker : Order} {amount : Mpd} {real : Bool} {now : Time} {fuel : ℕ} {w : World}

/-- The purchases ahead of an iterator with money left. -/
def purchasesAhead (start : LoopState) (money : ℚ) (rest : List Ref) : List (Order × ℚ) :=
  Auction.purchases (fun maker : Order => maker.price.value) (fun maker => maker.left.value)
    (affords start.market.stockPrec) money (rest.filterMap start.world.heap)

/-- The fills since the start are those of the buyer, up to the purchases still ahead. -/
def MadeFills (start st : LoopState) (ahead : List (Order × ℚ)) : Prop :=
  ∃ fills, st.world.fills = start.world.fills ++ fills ∧
    (∀ f ∈ fills, f.takerSide = .bid ∧ f.deal.value = f.price.value * f.amount.value) ∧
    fills.map Fill.trade ++ ahead.map (makeTrade .bid start.taker) =
      (purchasesAhead start start.taker.left.value start.market.asks).map
        (makeTrade .bid start.taker) ∧
    st.taker.left.value = start.taker.left.value - paid fills

/-- The money left pays for no unit of the ask. -/
def TooLittle (start st : LoopState) (ask : Order) : Prop :=
  st.taker.left.value < ask.price.value * 10 ^ (-start.market.stockPrec)

/-- A loop that began in `start` and has come to `rest`. -/
structure MoneyWalk (start : LoopState) (rest : List Ref) (st : LoopState) : Prop where
  position : At marketBidRule rest st
  taker : TakerSane st.taker
  terms : start.taker.SameTerms st.taker
  conf : st.market.toMarketConf = start.market.toMarketConf
  within : st.taker.left.value ≤ start.taker.left.value
  ahead : ∀ x ∈ rest, st.world.heap x = start.world.heap x
  makers : ∀ x ∈ rest, ∀ maker, start.world.heap x = some maker → MakerSane maker
  fits : MoneyFits start.market.stockPrec start.taker.left.value (rest.filterMap start.world.heap)
  made : st.world.ledger.exact = true →
    MadeFills start st (purchasesAhead start st.taker.left.value rest)
  behind : st.world.ledger.exact = true → ∀ x ∈ st.market.asks, x ∉ rest →
    ∃ ask, st.world.heap x = some ask ∧ TooLittle start st ask

/-- What holds when the loop has ended: nothing more can be bought. -/
structure MoneySpent (start st : LoopState) : Prop where
  made : MadeFills start st []
  left : ∀ x ∈ st.market.asks, ∃ ask, st.world.heap x = some ask ∧ TooLittle start st ask

theorem MoneyWalk.fits_head (walk : MoneyWalk start (node :: rest) st)
    (found : start.world.heap node = some maker) :
    CutFits start.market.stockPrec (st.taker.left.value / maker.price.value) := by
  have mem : maker ∈ (node :: rest).filterMap start.world.heap :=
    List.mem_filterMap.mpr ⟨node, List.mem_cons_self, found⟩
  apply walk.fits.mono walk.taker.nonneg walk.within _ maker mem
  intro ask mem
  rcases List.mem_filterMap.mp mem with ⟨x, inside, found⟩
  exact (walk.makers x inside ask found).pricePos

/-- The search for an amount only observes. -/
theorem MoneyWalk.observed (walk : MoneyWalk start rest st) (same : st.world.Observed w) :
    MoneyWalk start rest { st with world := w } where
  position := walk.position.world same.toSameOrders
  taker := walk.taker
  terms := walk.terms
  conf := walk.conf
  within := walk.within
  ahead x mem := by
    change w.heap x = _
    rw [same.heap]
    exact walk.ahead x mem
  makers := walk.makers
  fits := walk.fits
  made exact := by
    rcases walk.made (same.exact exact) with ⟨fills, made, rest_⟩
    exact ⟨fills, same.fills.trans made, rest_⟩
  behind exact x mem out := by
    change ∃ ask, w.heap x = some ask ∧ _
    rw [same.heap]
    exact walk.behind (same.exact exact) x mem out

variable [Settings]

omit [Settings] in
/-- Of the asks ahead none is cheaper than the next one. -/
theorem MoneyWalk.cheapest (walk : MoneyWalk start (node :: rest) st)
    (rests : st.market.Rests st.world.heap node maker) {x : Ref} {ask : Order} (mem : x ∈ rest)
    (found : st.world.heap x = some ask) : maker.price.value ≤ ask.price.value := by
  rcases walk.position.suffix with ⟨done, book⟩
  have inside : ∀ y ∈ node :: rest, y ∈ st.market.book .ask := by
    intro y mem
    change y ∈ st.market.book marketBidRule.side.opposite
    rw [book]
    exact List.mem_append_right _ mem
  have sorted := walk.position.inv.sorted .ask
  change SortedBy _ (st.market.book marketBidRule.side.opposite) at sorted
  rw [book] at sorted
  have before := (List.pairwise_cons.mp (List.pairwise_append.mp sorted).2.1).1 x mem
  rcases walk.position.inv.listed (inside node List.mem_cons_self) with ⟨one, own⟩
  rcases walk.position.inv.listed (inside x (List.mem_cons_of_mem _ mem)) with ⟨other, its⟩
  obtain rfl : maker = one := rests.eq own.found
  obtain rfl : ask = other := Option.some.inj (found.symm.trans its.found)
  rw [priorityAt_of_some own.found, priorityAt_of_some found] at before
  unfold Order.priority at before
  rw [own.side, its.side, Prod.Lex.toLex_lt_toLex] at before
  rcases before with less | ⟨same, _⟩
  · exact less.le
  · exact same.le

/-- A turn of the loop makes the next purchase. -/
theorem MoneyWalk.made_fill (walk : MoneyWalk start (node :: rest) st)
    (found : start.world.heap node = some maker)
    (value : amount.value =
      min maker.left.value (affords start.market.stockPrec st.taker.left.value maker))
    (nonzero : amount.value ≠ 0)
    (filled : Filled st (matchFill real now marketBidRule st node maker amount) node
      (st.makerAfter now marketBidRule maker amount) (st.fill marketBidRule maker amount))
    (exact : (matchFill real now marketBidRule st node maker amount).world.ledger.exact = true) :
    MadeFills start (matchFill real now marketBidRule st node maker amount)
      (purchasesAhead start (st.takerAfter now marketBidRule maker amount).left.value rest) := by
  have bought := bought_of_exact exact
  rcases walk.made (matchFill_exact_before exact) with ⟨fills, made, each, whole, left⟩
  have next : purchasesAhead start st.taker.left.value (node :: rest) = (maker, amount.value) ::
      purchasesAhead start (st.takerAfter now marketBidRule maker amount).left.value rest := by
    unfold purchasesAhead
    rw [List.filterMap_cons_some found, Auction.purchases_cons (value ▸ nonzero), ← value,
      bought.taker]
  have trade : (st.fill marketBidRule maker amount).trade =
      makeTrade .bid start.taker (maker, amount.value) := by
    unfold LoopState.fill makeFill Fill.trade makeTrade
    rw [← walk.terms.id]
    rfl
  refine ⟨fills ++ [st.fill marketBidRule maker amount], ?_, ?_, ?_, ?_⟩
  · rw [filled.fills, made, List.append_assoc]
  · intro f mem
    rcases List.mem_append.mp mem with earlier | here
    · exact each f earlier
    · rw [List.mem_singleton.mp here]
      exact ⟨makeFill_takerSide, bought.deal⟩
  · rw [← whole, next, List.map_append, List.append_assoc, List.map_cons, trade]
    rfl
  · have taken : (st.fill marketBidRule maker amount).deal.value =
        maker.price.value * amount.value := bought.deal
    rw [paid_append, taken]
    change (st.takerAfter now marketBidRule maker amount).left.value = _
    rw [bought.taker, left]
    ring

/-- Behind the iterator nothing is left that the money pays for: a maker that stays in the
book was bought from for all the money could pay. -/
theorem MoneyWalk.behind_fill (walk : MoneyWalk start (node :: rest) st)
    (positive : 0 < maker.price.value)
    (value : amount.value =
      min maker.left.value (affords start.market.stockPrec st.taker.left.value maker))
    (nonneg : 0 ≤ amount.value)
    (filled : Filled st (matchFill real now marketBidRule st node maker amount) node
      (st.makerAfter now marketBidRule maker amount) (st.fill marketBidRule maker amount))
    (leftFinite : (st.makerAfter now marketBidRule maker amount).left.isFinite)
    (exact : (matchFill real now marketBidRule st node maker amount).world.ledger.exact = true) :
    ∀ x ∈ (matchFill real now marketBidRule st node maker amount).market.asks, x ∉ rest →
      ∃ ask, (matchFill real now marketBidRule st node maker amount).world.heap x = some ask ∧
        TooLittle start (matchFill real now marketBidRule st node maker amount) ask := by
  have bought := bought_of_exact exact
  have left : (matchFill real now marketBidRule st node maker amount).taker.left.value =
      st.taker.left.value - maker.price.value * amount.value := bought.taker
  intro x mem out
  unfold TooLittle
  rw [left]
  by_cases same : x = node
  · subst same
    rcases filled.book with ⟨_, erased⟩ | ⟨unfinished, _, stored⟩
    · have nodup := walk.position.inv.nodup .ask
      have gone := erased .ask
      change x ∈ (matchFill real now marketBidRule st x maker amount).market.book .ask at mem
      rw [gone] at mem
      exact absurd mem nodup.not_mem_erase
    · -- the maker has something left, so it was the money that limited the amount
      rw [ne_eq, mpdCmp_eq_zero leftFinite mpdZero_isFinite, mpdZero_value, bought.maker,
        sub_eq_zero] at unfinished
      have all : amount.value = affords start.market.stockPrec st.taker.left.value maker := by
        rcases min_choice maker.left.value
          (affords start.market.stockPrec st.taker.left.value maker) with whole | most
        · exact absurd (value.trans whole).symm unfinished
        · exact value.trans most
      refine ⟨_, stored, ?_⟩
      rw [all]
      exact lt_affords_add _ walk.taker.nonneg positive
  · have before : x ∈ st.market.asks := by
      change x ∈ (matchFill real now marketBidRule st node maker amount).market.book .ask at mem
      rcases filled.book with ⟨_, erased⟩ | ⟨_, unchanged, _⟩
      · rw [erased .ask] at mem
        exact List.mem_of_mem_erase mem
      · rw [unchanged] at mem
        exact mem
    have away : x ∉ node :: rest := by
      rw [List.mem_cons, not_or]
      exact ⟨same, out⟩
    rcases walk.behind (matchFill_exact_before exact) x before away with ⟨ask, live, less⟩
    refine ⟨ask, (filled.heap x same).trans live, lt_of_le_of_lt ?_ less⟩
    linarith [mul_nonneg positive.le nonneg]

theorem MoneyWalk.fill (walk : MoneyWalk start (node :: rest) st)
    (meets : Meets marketBidRule st node maker)
    (chosen : moneyVolume fuel st maker = some (w, some amount)) :
    MoneyWalk start rest
      (matchFill real now marketBidRule { st with world := w } node maker amount) := by
  have found : start.world.heap node = some maker :=
    (walk.ahead node List.mem_cons_self).symm.trans meets.rests.1
  have sane := walk.makers node List.mem_cons_self maker found
  have observed := marketBidRule_sane.observes chosen
  have seen := walk.observed observed
  rcases walk.position.fill real now amount meets observed with ⟨filled, position⟩
  rcases moneyVolume_some walk.taker sane chosen with ⟨settled, unequal⟩
  rcases moneyAmount_spec st.market.stockPrec walk.taker sane with ⟨finite, nonneg, _, _⟩
  rw [← settled] at finite nonneg
  have value : amount.value =
      min maker.left.value (affords start.market.stockPrec st.taker.left.value maker) := by
    rw [settled, walk.conf]
    exact moneyAmount_value walk.taker sane (walk.fits_head found)
  have nonzero : amount.value ≠ 0 := by
    rwa [ne_eq, mpdCmp_eq_zero finite mpdZero_isFinite, mpdZero_value] at unequal
  rcases marketBidRule_sane.spends walk.taker sane meets.unfinished chosen
    (f := LoopState.fill { st with world := w } marketBidRule maker amount) makeFill_amount
    makeFill_deal with ⟨spentFinite, spentNonneg, spentLe⟩
  have spent : (LoopState.takerAfter { st with world := w } now marketBidRule maker
      amount).left.value ≤ st.taker.left.value := by
    have rounded := (Libmpdec.sub_rounds walk.taker.finite spentFinite).le (sub_nonneg.mpr spentLe)
    exact rounded.trans (sub_le_self _ spentNonneg)
  constructor
  · exact position
  · exact takerAfter_sane now marketBidRule_sane walk.taker sane meets.unfinished chosen
  · exact walk.terms.trans (LoopState.sameTerms_takerAfter _ now marketBidRule maker _)
  · exact filled.conf.trans walk.conf
  · exact spent.trans walk.within
  · intro x mem
    rw [filled.heap x (walk.position.ahead x mem)]
    exact seen.ahead x (List.mem_cons_of_mem node mem)
  · intro x mem
    exact walk.makers x (List.mem_cons_of_mem node mem)
  · intro ask mem
    apply walk.fits ask
    rw [List.filterMap_cons_some found]
    exact List.mem_cons_of_mem _ mem
  · intro exact
    exact seen.made_fill found value nonzero filled exact
  · intro exact
    exact seen.behind_fill sane.pricePos value nonneg filled
      (Libmpdec.sub_finite sane.leftFinite finite) exact

omit [Settings] in
/-- The loop came to the end of the book, or to its last money. -/
theorem MoneyWalk.ends (walk : MoneyWalk start rest st) (ends : Ends marketBidRule rest st)
    (exact : st.world.ledger.exact = true) : MoneySpent start st := by
  rcases ends with rfl | spent | ⟨_, _, _, _, _, _, stop⟩
  · exact ⟨walk.made exact, fun x mem => walk.behind exact x mem List.not_mem_nil⟩
  · rw [mpdCmp_eq_zero walk.taker.finite mpdZero_isFinite, mpdZero_value] at spent
    have nothing : purchasesAhead start st.taker.left.value rest = [] := by
      unfold purchasesAhead
      rw [spent]
      cases ahead : rest.filterMap start.world.heap with
      | nil => rfl
      | cons maker later =>
          apply Auction.purchases_stop
          rcases List.mem_filterMap.mp (ahead ▸ List.mem_cons_self :
            maker ∈ rest.filterMap start.world.heap) with ⟨x, inside, found⟩
          have zero : affords start.market.stockPrec 0 maker = 0 := by
            unfold affords
            rw [zero_div, truncateAt_zero]
          rw [zero, min_eq_right (walk.makers x inside maker found).leftPos.le]
    have made := walk.made exact
    rw [nothing] at made
    refine ⟨made, fun x mem => ?_⟩
    by_cases inside : x ∈ rest
    · rcases walk.position.inv.listed (show x ∈ st.market.book .ask from mem) with ⟨ask, listed⟩
      refine ⟨ask, listed.found, ?_⟩
      have sane := walk.makers x inside ask ((walk.ahead x inside).symm.trans listed.found)
      unfold TooLittle
      rw [spent]
      exact mul_pos sane.pricePos (zpow_pos (by norm_num) _)
    · exact walk.behind exact x mem inside
  · cases stop

omit [Settings] in
/-- The money pays for no unit of the next maker, and so for none of those behind it. -/
theorem MoneyWalk.dry (walk : MoneyWalk start (node :: rest) st)
    (meets : Meets marketBidRule st node maker)
    (none_ : moneyVolume fuel st maker = some (w, none)) (exact : w.ledger.exact = true) :
    MoneySpent start { st with world := w } := by
  have found : start.world.heap node = some maker :=
    (walk.ahead node List.mem_cons_self).symm.trans meets.rests.1
  have sane := walk.makers node List.mem_cons_self maker found
  have seen := walk.observed (marketBidRule_sane.observes none_)
  have zero : min maker.left.value (affords start.market.stockPrec st.taker.left.value maker) =
      0 := by
    have value := moneyAmount_value walk.taker sane (walk.fits_head found)
    rcases moneyAmount_spec st.market.stockPrec walk.taker sane with ⟨finite, _⟩
    cases fuel with
    | zero => simp [moneyVolume, lowerAmount] at none_
    | succ fuel =>
        rcases moneyVolume_eq fuel walk.taker sane with ⟨_, _, volume⟩
        rw [volume] at none_
        have choice := (Prod.mk.inj (Option.some.inj none_)).2
        split at choice
        · rename_i equal
          rw [mpdCmp_eq_zero finite mpdZero_isFinite, mpdZero_value, walk.conf, value] at equal
          exact equal
        · cases choice
  have nothing : purchasesAhead start st.taker.left.value (node :: rest) = [] := by
    unfold purchasesAhead
    rw [List.filterMap_cons_some found]
    exact Auction.purchases_stop zero
  have made := seen.made exact
  change MadeFills start _ (purchasesAhead start st.taker.left.value (node :: rest)) at made
  rw [nothing] at made
  have poor : TooLittle start { st with world := w } maker := by
    have most : affords start.market.stockPrec st.taker.left.value maker = 0 := by
      rcases min_choice maker.left.value
        (affords start.market.stockPrec st.taker.left.value maker) with whole | most
      · exact absurd (whole.symm.trans zero) sane.leftPos.ne'
      · exact most.symm.trans zero
    have less := lt_affords_add start.market.stockPrec walk.taker.nonneg sane.pricePos
    rwa [most, mul_zero, sub_zero] at less
  refine ⟨made, fun x mem => ?_⟩
  by_cases inside : x ∈ node :: rest
  · rcases List.mem_cons.mp inside with rfl | later
    · exact ⟨maker, seen.ahead x List.mem_cons_self |>.trans found, poor⟩
    · rcases seen.position.inv.listed (show x ∈ st.market.book .ask from mem) with ⟨ask, listed⟩
      have rests : ({ st with world := w } : LoopState).market.Rests w.heap node maker :=
        ⟨(seen.ahead node List.mem_cons_self).trans found, meets.rests.2⟩
      have dearer := seen.cheapest rests later listed.found
      refine ⟨ask, listed.found, lt_of_lt_of_le poor ?_⟩
      exact mul_le_mul_of_nonneg_right dearer (zpow_pos (by norm_num) _).le
  · exact seen.behind exact x mem inside

/-- The loop of a market bid returns with the fills of the buyer, and with too little money
for any ask that is left. -/
theorem execute_spends (inv : BookInv st.market st.world.heap) (taker : TakerSane st.taker)
    (makers : ∀ {ref o}, st.market.Rests st.world.heap ref o → MakerSane o)
    (fits : MoneyFits st.market.stockPrec st.taker.left.value
      (st.market.walk st.world.heap .ask))
    (bound : st.market.asks.length < fuel) :
    ∃ st', execute real now fuel marketBidRule st = some st' ∧
      (st'.world.ledger.exact = true → MoneySpent st st') := by
  rcases execute_returns marketBidRule_sane inv taker makers bound with ⟨st', run⟩
  refine ⟨st', run, ?_⟩
  have begins : MoneyWalk st (st.market.book marketBidRule.side.opposite) st := by
    constructor
    · exact .start inv
    · exact taker
    · exact .refl _
    · rfl
    · exact le_rfl
    · exact fun _ _ => rfl
    · intro x mem maker found
      rcases inv.rests_of_mem mem with ⟨o, rests, _⟩
      have same : o = maker := rests.eq found
      exact same ▸ makers rests
    · exact fits
    · exact fun _ => ⟨[], (List.append_nil _).symm, fun _ mem => absurd mem List.not_mem_nil, rfl,
        (sub_zero _).symm⟩
    · exact fun _ x mem out => absurd mem out
  apply matchLoop_rule real now marketBidRule (MoneyWalk st)
    (fun st₁ => st₁.world.ledger.exact = true → MoneySpent st st₁) MoneyWalk.position _ _ _ fuel
    begins run
  · intro rest st₁ walk ends exact
    exact walk.ends ends exact
  · intro node rest st₁ maker fuel w walk meets none_ exact
    exact walk.dry meets none_ exact
  · intro node rest st₁ maker fuel w amount walk meets chosen
    exact walk.fill meets chosen

end Loop

/-! ## The command -/

section Command

variable [Libmpdec] {m : Market} {heap : Ref → Option Order} {money : ℚ} {taker : Order}
  {fills : List Fill} {bought : List (Order × ℚ)}

/-- The fills of a market bid: it buys from the asks in order of price and id, from each
what the money left pays, or all there is, and never pays more than it has. -/
structure BidFills (m : Market) (heap : Ref → Option Order) (money : ℚ) (fills : List Fill) :
    Prop where
  order : fills.map Fill.makerId <+:
    (Auction.queue Order.priority (m.resting heap .ask)).map Order.id
  once : (fills.map Fill.makerId).Nodup
  amounts : ∀ before f after, fills = before ++ f :: after → ∃ ref maker most,
    m.Rests heap ref maker ∧ maker.side = .ask ∧ f.makerId = maker.id ∧ f.price = maker.price ∧
      IsGreatest {amount | OnGrid (-m.stockPrec) amount ∧
        amount * maker.price.value ≤ money - paid before} most ∧
      f.amount.value = min maker.left.value most ∧ 0 < f.amount.value
  deals : ∀ f ∈ fills, f.deal.value = f.price.value * f.amount.value
  total : paid fills ≤ money

omit [Libmpdec] in
/-- Fills cost what the purchases cost. -/
theorem paid_eq_cost (each : ∀ f ∈ fills, f.deal.value = f.price.value * f.amount.value)
    (same : fills.map Fill.trade = bought.map (makeTrade .bid taker)) :
    paid fills = Auction.cost (fun maker : Order => maker.price.value) bought := by
  have products := congrArg (List.map fun t : Trade => t.price.value * t.amount) same
  rw [List.map_map, List.map_map] at products
  unfold paid Auction.cost
  congr 1
  refine Eq.trans ?_ products
  exact List.map_congr_left each

omit [Libmpdec] in
/-- What a buyer who walks the asks takes. -/
theorem BidFills.of_purchases (index : IndexInv m heap)
    (makers : ∀ {ref o}, m.Rests heap ref o → MakerSane o) (nonneg : 0 ≤ money)
    (each : ∀ f ∈ fills, f.takerSide = .bid ∧ f.deal.value = f.price.value * f.amount.value)
    (same : fills.map Fill.trade =
      (Auction.purchases (fun maker : Order => maker.price.value) (fun maker => maker.left.value)
        (affords m.stockPrec) money (m.walk heap .ask)).map (makeTrade .bid taker)) :
    BidFills m heap money fills := by
  have inv := index.toBookInv
  have live : ∀ maker ∈ m.walk heap .ask, ∃ ref, m.Rests heap ref maker ∧ maker.side = .ask :=
    fun maker mem => inv.mem_orders.mp mem
  have sane : ∀ maker ∈ m.walk heap .ask, MakerSane maker := by
    intro maker mem
    rcases live maker mem with ⟨ref, rests, _⟩
    exact makers rests
  have within {money : ℚ} (nonneg : 0 ≤ money) {taken : List (Order × ℚ)}
      (first : taken <+: Auction.purchases (fun maker : Order => maker.price.value)
        (fun maker => maker.left.value) (affords m.stockPrec) money (m.walk heap .ask)) :
      Auction.cost (fun maker : Order => maker.price.value) taken ≤ money := by
    apply Auction.cost_le nonneg _ _ first
    · exact fun maker mem => (sane maker mem).pricePos.le
    · intro money nonneg maker mem
      have most := (affords_isGreatest m.stockPrec nonneg (sane maker mem).pricePos).1.2
      rwa [mul_comm] at most
  have ids : fills.map Fill.makerId <+: (m.walk heap .ask).map Order.id := by
    have parties := congrArg (List.map Trade.askId) same
    rw [List.map_map, List.map_map] at parties
    have own : fills.map Fill.makerId = fills.map (Trade.askId ∘ Fill.trade) := by
      apply List.map_congr_left
      intro f mem
      unfold Fill.makerId
      rw [(each f mem).1]
      rfl
    have met : (Auction.purchases (fun maker : Order => maker.price.value)
        (fun maker => maker.left.value) (affords m.stockPrec) money (m.walk heap .ask)).map
          Prod.fst <+: m.walk heap .ask := Auction.purchases_prefix _ _
    have taken := met.map Order.id
    rw [List.map_map] at taken
    rw [own, parties]
    exact taken
  constructor
  · rw [index.queue_eq]
    exact ids
  · apply List.Nodup.sublist ids.sublist
    apply List.Nodup.map_on _ _
    · intro one mem other mem' equal
      rcases live one mem with ⟨ref, rests, _⟩
      rcases live other mem' with ⟨ref', rests', _⟩
      obtain rfl := inv.unique rests rests' equal
      exact rests.eq rests'.1
    · apply (inv.orders_sorted .ask).imp
      rintro one _ less rfl
      exact lt_irrefl _ less
  · rintro before f after rfl
    rw [List.map_append, List.map_cons] at same
    rcases List.map_eq_append_iff.mp same.symm with ⟨earlier, others, split, first, later⟩
    rcases List.map_eq_cons_iff.mp later with ⟨⟨maker, amount⟩, remaining, rfl, this, _⟩
    rcases StockLoop.trade_maker (each f (by simp)).1 this with ⟨id, price, value⟩
    rcases Auction.purchases_amount split with ⟨chosen, nonzero⟩
    have queued : maker ∈ m.walk heap .ask := by
      apply (Auction.purchases_prefix money (m.walk heap .ask)).subset
      rw [split]
      simp
    rcases live maker queued with ⟨ref, rests, side⟩
    have positive := sane maker queued
    have spent := paid_eq_cost (fun g mem => (each g (List.mem_append_left _ mem)).2) first.symm
    have left : 0 ≤ money - paid before := by
      rw [spent]
      exact sub_nonneg.mpr (within nonneg (split ▸ List.prefix_append _ _))
    rw [← spent] at chosen
    have most := affords_isGreatest m.stockPrec left positive.pricePos
    refine ⟨ref, maker, _, rests, side, id, price, most, value.trans chosen, ?_⟩
    rw [value, chosen]
    rw [chosen] at nonzero
    apply lt_of_le_of_ne _ nonzero.symm
    apply le_min positive.leftPos.le
    exact truncateAt_nonneg (div_nonneg left positive.pricePos.le)
  · exact fun f mem => (each f mem).2
  · rw [paid_eq_cost (fun f mem => (each f mem).2) same]
    exact within nonneg (List.prefix_refl _)

variable [Settings] {w : World} {userId fuel : ℕ} {amount takerFee : Mpd} {source : String}
  {real : Bool} {now : Time}

/-- A market bid returns. If it is admitted, it buys as much as it can and pays no more than
it has, and no ask is left of which the rest of the money pays a unit. -/
theorem market_bid_spends (index : IndexInv m w.heap)
    (makers : ∀ {ref o}, m.Rests w.heap ref o → MakerSane o)
    (terms : MarketTerms m.toMarketConf amount takerFee)
    (quotients : MoneyFits m.stockPrec amount.value (m.walk w.heap .ask))
    (bound : m.asks.length < fuel) :
    ∃ outcome, marketPutMarketOrder real now fuel m w userId .bid amount takerFee source =
        some outcome ∧
      (outcome.ret = 0 → outcome.world.ledger.exact = true →
        ∃ fills, outcome.world.fills = w.fills ++ fills ∧
          BidFills m w.heap amount.value fills ∧
          ∀ ref ask, outcome.market.Rests outcome.world.heap ref ask → ask.side = .ask →
            amount.value - paid fills < ask.price.value * 10 ^ (-m.stockPrec)) := by
  unfold marketPutMarketOrder
  split
  · exact ⟨_, rfl, fun admitted => by cases admitted⟩
  split
  · exact ⟨_, rfl, fun admitted => by cases admitted⟩
  rename_i node head
  have mem : node ∈ m.book .ask := List.mem_of_mem_head? head
  rcases index.toBookInv.listed mem with ⟨best, listed⟩
  rw [listed.found]
  simp only
  split
  · exact ⟨_, rfl, fun admitted => by cases admitted⟩
  have observed := marketRequire_observed w m .bid best
  have starts : Starts m w (marketStart now m w best userId .bid amount takerFee source) :=
    orderStart_starts observed (congrArg (· + 1) observed.orderIdStart)
  have taker : TakerSane (marketStart now m w best userId .bid amount takerFee source).taker :=
    ⟨terms.amountFinite, terms.amountPos.le⟩
  have same : (marketStart now m w best userId .bid amount takerFee source).world.heap = w.heap :=
    starts.heap
  have spends : ∃ st', execute real now fuel marketBidRule
        (marketStart now m w best userId .bid amount takerFee source) = some st' ∧
      (st'.world.ledger.exact = true →
        MoneySpent (marketStart now m w best userId .bid amount takerFee source) st') :=
    execute_spends (same ▸ index.toBookInv) taker (fun rests => makers (same ▸ rests))
      (same ▸ quotients) bound
  rcases spends with ⟨st', run, spent⟩
  refine ⟨finishMarket real st', ?_, ?_⟩
  · change (execute real now fuel marketBidRule
      (marketStart now m w best userId .bid amount takerFee source)).map (finishMarket real) = _
    rw [run]
    rfl
  · intro _ exact
    rcases finishMarket_world real st' with ⟨one, two, world⟩
    rw [world] at exact ⊢
    rw [World.emit_ledger, World.emit_ledger] at exact
    rcases spent exact with ⟨⟨fills, made, each, whole, left⟩, rest⟩
    refine ⟨fills, ?_, ?_, ?_⟩
    · rw [(World.emit_sameOrders _ real two).fills, (World.emit_sameOrders _ real one).fills, made,
        starts.fills]
    · apply BidFills.of_purchases index makers terms.amountPos.le each
      rw [List.map_nil, List.append_nil] at whole
      unfold purchasesAhead at whole
      rw [same] at whole
      exact whole
    · intro ref ask rests side
      rw [World.emit_heap, World.emit_heap] at rests
      have mem : ref ∈ st'.market.asks := by
        have inside := rests.2
        rwa [side] at inside
      rcases rest ref mem with ⟨other, found, less⟩
      obtain rfl : ask = other := rests.eq found
      unfold TooLittle at less
      rw [left] at less
      exact less

end Command

section Small

attribute [local instance] smallSettings Libmpdec.reference

/-- What a bid for fifteen does in a book with an ask for two units at ten. -/
def smallMarketBid : Option Outcome :=
  marketPutMarketOrder true 0 10 smallMarket smallBefore.world 2 .bid (Mpd.ofInt 15)
    (Mpd.ofScaled 1 (-3)) "web"

theorem smallMarketBid_terms :
    MarketTerms smallMarket.toMarketConf (Mpd.ofInt 15) (Mpd.ofScaled 1 (-3)) where
  amountFinite := rfl
  amountPos := by decide +kernel
  amountDigits := fracDigits_iff.mpr ⟨by decide +kernel, by decide +kernel⟩
  takerFee := ⟨rfl, by decide +kernel, by decide +kernel,
    fracDigits_iff.mpr ⟨by decide +kernel, by decide +kernel⟩⟩

theorem market_bid_spends_small : ∃ outcome, smallMarketBid = some outcome ∧
    ∃ fills, outcome.world.fills = smallBefore.world.fills ++ fills ∧
      BidFills smallMarket smallBefore.world.heap 15 fills ∧
      ∀ ref ask, outcome.market.Rests outcome.world.heap ref ask → ask.side = .ask →
        15 - paid fills < ask.price.value * 10 ^ (-smallMarket.stockPrec) := by
  have inv := (smallBefore_run.kept (engineStart_inv smallStart_eq).1).inv
  have found : dictFind smallBefore.markets "BTCCNY" = some smallMarket :=
    (Option.some_get _).symm
  have market := inv.market found
  have returns : ∃ outcome, smallMarketBid = some outcome ∧
      (outcome.ret = 0 → outcome.world.ledger.exact = true →
        ∃ fills, outcome.world.fills = smallBefore.world.fills ++ fills ∧
          BidFills smallMarket smallBefore.world.heap (Mpd.ofInt 15).value fills ∧
          ∀ ref ask, outcome.market.Rests outcome.world.heap ref ask → ask.side = .ask →
            (Mpd.ofInt 15).value - paid fills <
              ask.price.value * 10 ^ (-smallMarket.stockPrec)) := by
    apply market_bid_spends market.index (fun rests => (market.resting rests).sane)
      smallMarketBid_terms
    · unfold MoneyFits
      decide +kernel
    · decide +kernel
  rcases returns with ⟨outcome, run, spends⟩
  have answer : smallMarketBid.map (fun outcome => (outcome.ret, outcome.world.ledger.exact)) =
      some (0, true) := by
    decide +kernel
  rw [run] at answer
  rcases Prod.mk.inj (Option.some.inj answer) with ⟨ret, exact⟩
  rcases spends ret exact with ⟨fills, made, bought, rest⟩
  have fifteen : (Mpd.ofInt 15).value = 15 := by decide +kernel
  rw [fifteen] at bought rest
  exact ⟨outcome, run, fills, made, bought, rest⟩

end Small

end ViabtcServer.MatchEngine
