import ViabtcServer.Accounting.Statement
import ViabtcServer.MatchEngine.Conservation

/-!
# The balance history

The rows of balance history of one user and one asset are a statement of
account: while nothing rounds, every movement of the user's total has its row,
unless a fee has more digits than its asset is stored with.
-/

namespace ViabtcServer.MatchEngine

open Decimal Container Accounting

/-! ## Rows -/

/-- The row that an output writes for a user and an asset, if it writes one. -/
def Output.row (user : ℕ) (asset : String) : Output → Option (Row ℚ)
  | .balanceHistory _ userId other _ change balance _ =>
      if userId = user ∧ other = asset then some ⟨change.value, balance.value⟩ else none
  | _ => none

/-- The balance history of a user and an asset, oldest row first. -/
def World.statement (w : World) (user : ℕ) (asset : String) : List (Row ℚ) :=
  w.out.filterMap (Output.row user asset)

/-- No balance row is written on the way from `w` to `w'`. -/
structure World.Silent (w w' : World) : Prop where
  statement : ∀ user asset, w'.statement user asset = w.statement user asset
  totals : w'.totals = w.totals

/-- The rows written on the way from `w` to `w'`, all with true totals, lead from
what every user owned to what it owns now. -/
def World.Records (w w' : World) : Prop :=
  w'.totals = true → w.totals = true ∧ ∀ user asset, ∃ new,
    w'.statement user asset = w.statement user asset ++ new ∧
      Statement (w.ledger.owns user asset) new (w'.ledger.owns user asset)

section Rows

variable {w w' w'' : World} {l l' : Ledger}

theorem World.Silent.refl (w : World) : w.Silent w :=
  ⟨fun _ _ => rfl, rfl⟩

theorem World.Silent.trans (one : w.Silent w') (two : w'.Silent w'') : w.Silent w'' :=
  ⟨fun user asset => (two.statement user asset).trans (one.statement user asset),
    two.totals.trans one.totals⟩

theorem World.Records.trans (one : w.Records w') (two : w'.Records w'') : w.Records w'' := by
  intro totals
  rcases two totals with ⟨between, second⟩
  rcases one between with ⟨before, first⟩
  constructor
  · exact before
  · intro user asset
    rcases first user asset with ⟨new, rows, leads⟩
    rcases second user asset with ⟨new', rows', leads'⟩
    refine ⟨new ++ new', ?_, leads.append leads'⟩
    rw [rows', rows, List.append_assoc]

theorem Ledger.owns_of_accounts (same : l'.accounts = l.accounts) (user : ℕ) (asset : String) :
    l'.owns user asset = l.owns user asset := by
  unfold Ledger.owns
  rw [← accounts_apply, ← accounts_apply, same]
  rfl

/-- Posting to one balance moves the total of its user and asset. -/
theorem Ledger.owns_of_post {user : ℕ} {type : BalanceType} {asset : String} {q : ℚ}
    (posts : l'.accounts = l.accounts + Finsupp.single ⟨user, type, asset⟩ q) (user' : ℕ)
    (asset' : String) : l'.owns user' asset' =
      l.owns user' asset' + if user = user' ∧ asset = asset' then q else 0 := by
  have holds (key : BalanceKey) : l'.holds key =
      l.holds key + Finsupp.single (⟨user, type, asset⟩ : BalanceKey) q key := by
    rw [← accounts_apply, posts]
    rfl
  unfold Ledger.owns
  rw [holds, holds]
  by_cases own : user = user' ∧ asset = asset'
  · rcases own with ⟨rfl, rfl⟩
    rw [if_pos ⟨rfl, rfl⟩]
    cases type with
    | available =>
        rw [Finsupp.single_eq_same,
          single_type_ne (show BalanceType.freeze ≠ .available by decide)]
        ring
    | freeze =>
        rw [Finsupp.single_eq_same,
          single_type_ne (show BalanceType.available ≠ .freeze by decide)]
        ring
  · have apart (type' : BalanceType) :
        (⟨user', type', asset'⟩ : BalanceKey) ≠ ⟨user, type, asset⟩ := by
      intro key
      injection key with sameUser _ sameAsset
      exact own ⟨sameUser.symm, sameAsset.symm⟩
    rw [if_neg own, Finsupp.single_eq_of_ne (apart _), Finsupp.single_eq_of_ne (apart _)]
    ring

/-- Where every user owns what it owned, nothing has to be written. -/
theorem World.Silent.records (silent : w.Silent w')
    (owns : ∀ user asset, w'.ledger.owns user asset = w.ledger.owns user asset) :
    w.Records w' := by
  intro totals
  constructor
  · rw [← silent.totals]
    exact totals
  · intro user asset
    refine ⟨[], ?_, (owns user asset).symm⟩
    rw [silent.statement, List.append_nil]

theorem World.Records.refl (w : World) : w.Records w :=
  (World.Silent.refl w).records fun _ _ => rfl

theorem World.observe_silent (w : World) (result : Mpd) (expected : ℚ) :
    w.Silent (w.observe result expected) :=
  ⟨fun _ _ => rfl, rfl⟩

theorem World.discard_silent (w : World) (call : Option Mpd × Ledger) :
    w.Silent (w.discard call) :=
  ⟨fun _ _ => rfl, rfl⟩

theorem World.store_silent (w : World) (ref : Ref) (order : Order) :
    w.Silent (w.store ref order) :=
  ⟨fun _ _ => rfl, rfl⟩

theorem World.Observed.records (same : w.Observed w') : w.Records w' := by
  apply World.Silent.records
  · refine ⟨fun user asset => ?_, same.totals⟩
    unfold World.statement
    rw [same.out]
  · exact Ledger.owns_of_accounts same.accounts

/-- Output other than balance history. -/
theorem World.emit_silent (w : World) (real : Bool) {output : Output}
    (row : ∀ user asset, output.row user asset = none)
    (plain : ∀ l, output.totalTrue l = true) : w.Silent (w.emit real output) := by
  cases real with
  | false => exact .refl w
  | true =>
      constructor
      · intro user asset
        change (w.out ++ [output]).filterMap _ = _
        rw [List.filterMap_append, List.filterMap_cons, row, List.filterMap_nil, List.append_nil]
        rfl
      · change (w.totals && output.totalTrue w.ledger) = w.totals
        rw [plain, Bool.and_true]

/-- A posting with its row. -/
theorem World.Records.post {user : ℕ} {type : BalanceType} {asset business : String} {t : Time}
    {change balance : Mpd} {detail : Detail} (silent : w.Silent w')
    (posts : w'.ledger.accounts =
      w.ledger.accounts + Finsupp.single ⟨user, type, asset⟩ change.value) :
    w.Records
      (w'.emit true (.balanceHistory t user asset business change balance detail)) := by
  intro totals
  change (w'.totals && decide (balance.value = w'.ledger.owns user asset)) = true at totals
  rw [Bool.and_eq_true, decide_eq_true_eq, silent.totals] at totals
  constructor
  · exact totals.1
  · intro user' asset'
    have moved := Ledger.owns_of_post posts user' asset'
    have rows : (w'.emit true
        (.balanceHistory t user asset business change balance detail)).statement user' asset' =
        w.statement user' asset' ++
          (if user = user' ∧ asset = asset' then [⟨change.value, balance.value⟩] else []) := by
      rw [← silent.statement]
      change (w'.out ++ [_]).filterMap _ = _
      rw [List.filterMap_append, List.filterMap_cons, List.filterMap_nil]
      unfold Output.row
      by_cases own : user = user' ∧ asset = asset'
      · simp only [if_pos own]
        rfl
      · simp only [if_neg own]
        rfl
    refine ⟨_, rows, ?_⟩
    rw [World.emit_ledger, moved]
    by_cases own : user = user' ∧ asset = asset'
    · rw [if_pos own, if_pos own]
      rw [if_pos own] at moved
      rcases own with ⟨rfl, rfl⟩
      have balanced := totals.2.trans moved
      exact ⟨balanced, balanced⟩
    · rw [if_neg own, if_neg own, add_zero]
      exact rfl

end Rows

/-! ## Settling -/

/-- The fee of an ask has at most the digits its money is stored with. -/
def Fill.FeeFits [Settings] (conf : MarketConf) (f : Fill) : Prop :=
  FracDigits (assetPrec conf.money) f.askFee.value

section Settle

variable [Settings] {conf : MarketConf} {f : Fill}

theorem Fill.FeeFits.raiseAt_eq (fits : f.FeeFits conf) (ok : f.Ok conf) (side : Side) :
    raiseAt (-assetPrec (conf.gets side)) (f.fee side).value = (f.fee side).value := by
  cases side with
  | ask => exact FracDigits.raiseAt_eq fits
  | bid => exact ok.bidFeeDigits.raiseAt_eq

variable [Libmpdec] {w : World} {order : Order} {side : Side} {source : BalanceType}
  {feeRate : Mpd}

theorem settlePays_records (market : conf.Ok) (ok : f.Ok conf) (sound : w.ledger.Sound)
    (le : (f.pays side).value ≤ w.ledger.holds ⟨order.userId, source, conf.gives side⟩)
    (exact : (settlePays true conf w order side source f).ledger.exact = true) :
    w.Records (settlePays true conf w order side source f) := by
  have posts := (settlePays_posts market ok sound le exact).1.accounts
  unfold settlePays appendBalanceTradeSub appendBalanceTrade at posts ⊢
  apply World.Records.post (w.discard_silent _)
  rw [World.emit_ledger] at posts
  rw [posts, Mpd.value_negate]

theorem settleReceives_records (market : conf.Ok) (ok : f.Ok conf) (sound : w.ledger.Sound)
    (exact : (settleReceives true conf w order side f).ledger.exact = true) :
    w.Records (settleReceives true conf w order side f) := by
  have posts := (settleReceives_posts market ok sound exact).1.accounts
  unfold settleReceives appendBalanceTradeAdd appendBalanceTrade at posts ⊢
  apply World.Records.post (w.discard_silent _)
  rw [World.emit_ledger] at posts
  exact posts

/-- What is charged is the fee in the row, unless it had to be rounded up. -/
theorem settleFee_records (market : conf.Ok) (ok : f.Ok conf) (fits : f.FeeFits conf)
    (sound : w.ledger.Sound)
    (le : (f.fee side).value ≤ w.ledger.holds ⟨order.userId, .available, conf.gets side⟩)
    (exact : (settleFee true conf w order side f feeRate).ledger.exact = true) :
    w.Records (settleFee true conf w order side f feeRate) := by
  have posts := (settleFee_posts market ok sound le exact).1.accounts
  rw [fits.raiseAt_eq ok] at posts
  unfold settleFee appendBalanceTradeFee appendBalanceTrade at posts ⊢
  by_cases charged : mpdCmp (f.fee side) mpdZero > 0
  · simp only [if_pos charged] at posts ⊢
    apply World.Records.post (w.discard_silent _)
    rw [World.emit_ledger] at posts
    rw [posts, Mpd.value_negate]
  · rw [if_neg charged]
    exact .refl w

/-- One party's movements all have their rows. -/
theorem settle_records (market : conf.Ok) (ok : f.Ok conf) (fits : f.FeeFits conf) (w : World)
    (order : Order) (sound : w.ledger.Sound)
    (le : (f.pays side).value ≤ w.ledger.holds ⟨order.userId, source, conf.gives side⟩)
    (exact : (settle true conf w order side source f feeRate).ledger.exact = true) :
    w.Records (settle true conf w order side source f feeRate) := by
  have received := settleFee_exact exact
  have paid : (settlePays true conf w order side source f).ledger.exact = true := by
    rw [settleReceives_ledger] at received
    exact balanceAdd_exact received
  have pays := (settlePays_posts market ok sound le paid).1
  have receives := (settleReceives_posts market ok pays.sound received).1
  have covered := settle_covered ok pays receives
  exact (settlePays_records market ok sound le paid).trans <|
    (settleReceives_records market ok pays.sound received).trans <|
      settleFee_records market ok fits receives.sound covered exact

end Settle

/-! ## One fill -/

section Fills

variable [Libmpdec] {w : World} {node : Ref} {maker taker : Order} {now : Time}
  {rule : MatchRule} {st st' : LoopState} {amount : Mpd} {conf : MarketConf} {f : Fill}
  {fuel : ℕ}

omit [Libmpdec] in
theorem World.observeFill_exact {rates : Mpd × Mpd}
    (exact : (w.observeFill f rates).ledger.exact = true) :
    f.deal.value = f.price.value * f.amount.value ∧
      f.askFee.value = f.deal.value * rates.1.value ∧
      f.bidFee.value = f.amount.value * rates.2.value := by
  simp only [observeFill, observe_ledger, Ledger.exact_observe] at exact
  exact ⟨exact.1.1.2, exact.1.2, exact.2⟩

theorem openedWorld_silent (real : Bool) (now : Time) (rule : MatchRule) (st : LoopState)
    (maker : Order) (amount : Mpd) :
    st.world.Silent (openedWorld real now rule st maker amount) := by
  have opened : st.world.Silent
      { st.world.observeFill (st.fill rule maker amount) (feeRates rule.side st.taker maker) with
        dealsIdStart := (st.fill rule maker amount).dealId
        fills := st.world.fills ++ [st.fill rule maker amount] } :=
    ⟨fun _ _ => rfl, rfl⟩
  apply opened.trans
  exact (World.emit_silent _ real (fun _ _ => rfl) fun _ => rfl).trans
    (World.emit_silent _ real (fun _ _ => rfl) fun _ => rfl)

theorem World.observeRecord_silent (w : World) (order : Order) (side : Side) (f : Fill)
    (spent : Mpd) : w.Silent (w.observeRecord order side f spent) :=
  ⟨fun _ _ => rfl, rfl⟩

variable [Settings]

theorem fillTaker_records (rule : MatchRule) (taker : Order) (market : conf.Ok) (ok : f.Ok conf)
    (fits : f.FeeFits conf) (sound : w.ledger.Sound)
    (le : (f.pays rule.side).value ≤
      w.ledger.holds ⟨taker.userId, .available, conf.gives rule.side⟩)
    (exact : (fillTaker true now rule conf w taker f).2.ledger.exact = true) :
    w.Records (fillTaker true now rule conf w taker f).2 := by
  have recorded : w.Records (w.observeRecord taker rule.side f (rule.spends f)) :=
    (w.observeRecord_silent _ _ _ _).records fun _ _ => rfl
  exact recorded.trans <| settle_records market ok fits _
    (taker.record now rule.side f (rule.spends f)) sound le exact

theorem fillMaker_records (side : Side) (maker : Order) (market : conf.Ok) (ok : f.Ok conf)
    (fits : f.FeeFits conf) (sound : w.ledger.Sound)
    (le : (f.pays side).value ≤ w.ledger.holds ⟨maker.userId, .freeze, conf.gives side⟩)
    (exact : (fillMaker true now side conf w node maker f).ledger.exact = true) :
    w.Records (fillMaker true now side conf w node maker f) := by
  have stored : w.Records
      (((w.observeRecord maker side f f.amount).observe (mpdSub maker.freeze (f.pays side))
        (maker.freeze.value - (f.pays side).value)).store node (makerAfter maker now side f)) := by
    apply World.Silent.records
    · exact ((w.observeRecord_silent _ _ _ _).trans (World.observe_silent _ _ _)).trans
        (World.store_silent _ _ _)
    · exact fun _ _ => rfl
  exact stored.trans <| settle_records market ok fits _ (makerAfter maker now side f) sound le exact

theorem tradedWorld_records (pay : Payable st rule maker amount) (sound : st.world.ledger.Sound)
    (fits : (st.fill rule maker amount).FeeFits st.market.toMarketConf)
    (exact : (tradedWorld true now rule st node maker amount).ledger.exact = true) :
    st.world.Records (tradedWorld true now rule st node maker amount) := by
  have paidExact := (fillMaker_exact exact).1
  have ok := (pay.fill_ok (tradedWorld_opened exact)).1
  have opened := openedWorld_posts true now rule sound maker amount
  have openedHolds (key : BalanceKey) :
      (openedWorld true now rule st maker amount).ledger.holds key = st.world.ledger.holds key := by
    rw [opened.holds, Finsupp.zero_apply, add_zero]
  have takerPays := pay.takerPays
  rw [← openedHolds] at takerPays
  have paid := (fillTaker_posts rule st.taker pay.market ok opened.sound takerPays paidExact).1
  have first := (openedWorld_silent true now rule st maker amount).records
    (Ledger.owns_of_accounts (opened.accounts.trans (add_zero _)))
  apply first.trans
  apply (fillTaker_records rule st.taker pay.market ok fits opened.sound takerPays
    paidExact).trans
  apply fillMaker_records rule.side.opposite maker pay.market ok fits paid.sound _ exact
  rw [paid.holds, settlement_freeze, add_zero, openedHolds]
  exact (pay.maker_pays_le (tradedWorld_opened exact)).trans (pay.side ▸ pay.makerPays)

theorem orderFinish_silent (real : Bool) (m : Market) (w : World) (ref : Ref) :
    w.Silent (orderFinish real m w ref).2.2 := by
  have removed (m : Market) (w : World) (order : Order) :
      w.Silent (orderRemove real m w order ref).2 :=
    (World.emit_silent w _ (fun _ _ => rfl) fun _ => rfl).trans ⟨fun _ _ => rfl, rfl⟩
  simp only [orderFinish]
  split
  · exact .refl w
  · split
    · split
      · exact w.discard_silent _
      · exact (w.discard_silent _).trans (removed _ _ _)
    · exact removed _ _ _

theorem closeMaker_silent (real : Bool) (m : Market) (w : World) (node : Ref) (maker : Order) :
    w.Silent (closeMaker real m w node maker).2 := by
  simp only [closeMaker]
  split
  · exact (World.emit_silent w real (fun _ _ => rfl) fun _ => rfl).trans
      (orderFinish_silent real m _ node)
  · exact World.emit_silent w real (fun _ _ => rfl) fun _ => rfl

/-- All movements of a fill have their rows. -/
theorem matchFill_records (pay : Payable st rule maker amount) (sound : st.world.ledger.Sound)
    (inv : IndexInv st.market st.world.heap) (rests : st.market.Rests st.world.heap node maker)
    (fits : (st.fill rule maker amount).FeeFits st.market.toMarketConf)
    (exact : (matchFill true now rule st node maker amount).world.ledger.exact = true) :
    st.world.Records (matchFill true now rule st node maker amount).world := by
  have tradedExact := matchFill_exact exact
  have settled := (matchFill_settled pay sound inv rests exact).posts.accounts
  have traded := (pay.traded_posts sound tradedExact).1.accounts
  apply (tradedWorld_records pay sound fits tradedExact).trans
  apply (closeMaker_silent true st.market _ node _).records
  exact Ledger.owns_of_accounts (settled.trans traded.symm)

end Fills

/-! ## Orders -/

/-- The fee rate of the ask when a taker of `side` meets a maker. -/
def askRate (side : Side) (takerFee : Mpd) (maker : Order) : Mpd :=
  match side with
  | .ask => takerFee
  | .bid => maker.makerFee

theorem feeRates_fst (side : Side) (taker maker : Order) :
    (feeRates side taker maker).1 = askRate side taker.takerFee maker := by
  cases side <;> rfl

/-- The ask's fee of a fill with this maker fits the money, whatever amount of
stock is traded: its price and the fee rate leave room for the digits of the
stock. -/
def FeesFit [Settings] (conf : MarketConf) (side : Side) (takerFee : Mpd) (maker : Order) : Prop :=
  FracDigits (assetPrec conf.money - conf.stockPrec)
    (maker.price.value * (askRate side takerFee maker).value)

section Orders

variable [Libmpdec] [Settings] {w : World} {m : Market} {node : Ref} {maker : Order} {now : Time}
  {rule : MatchRule} {st st' : LoopState} {amount : Mpd} {ok : MarketConf → Order → Prop}
  {need : Order → ℚ} {held : ℕ → String → ℚ} {fuel : ℕ}

theorem Payable.feeFits (pay : Payable st rule maker amount)
    (fits : FeesFit st.market.toMarketConf rule.side st.taker.takerFee maker)
    (exact : (tradedWorld true now rule st node maker amount).ledger.exact = true) :
    (st.fill rule maker amount).FeeFits st.market.toMarketConf := by
  have observed := World.observeFill_exact
    (openedWorld_ledger ▸ tradedWorld_opened exact)
  have product : (st.fill rule maker amount).askFee.value =
      maker.price.value * (askRate rule.side st.taker.takerFee maker).value * amount.value := by
    rw [observed.2.1, observed.1, feeRates_fst]
    simp only [LoopState.fill, makeFill_price, makeFill_amount]
    ring
  unfold Fill.FeeFits
  rw [product]
  apply (FracDigits.mul fits pay.digits).mono
  rw [sub_add_cancel]

/-- All movements of a loop have their rows. -/
theorem execute_records (fair : rule.Fair ok need)
    (heldNonneg : ∀ user asset, 0 ≤ held user asset) (trading : Trading rule ok need held st)
    (fits : ∀ {ref maker}, st.market.Rests st.world.heap ref maker →
      maker.side = rule.side.opposite →
        FeesFit st.market.toMarketConf rule.side st.taker.takerFee maker)
    (run : execute true now fuel rule st = some st') (exact : st'.world.ledger.exact = true) :
    st.world.Records st'.world := by
  have all := matchLoop_rule true now rule
    (fun rest st₁ => At rule rest st₁ ∧ (∀ x ∈ rest, st₁.world.heap x = st.world.heap x) ∧
      (st₁.world.ledger.exact = true → Trading rule ok need held st₁ ∧ Progress rule st st₁ ∧
        st.world.Records st₁.world))
    (fun st₁ => st₁.world.ledger.exact = true → st.world.Records st₁.world)
    (fun holds => holds.1) (fun holds _ exact => (holds.2.2 exact).2.2) ?_ ?_ fuel
    ⟨.start trading.index.toBookInv, fun _ _ => rfl, fun _ =>
      ⟨trading, .refl rule st, .refl st.world⟩⟩ run
  · exact all exact
  · intro node rest st₁ maker fuel w holds meets chosen exact
    have observed := fair.observes chosen
    exact (holds.2.2 (observed.exact exact)).2.2.trans observed.records
  · intro node rest st₁ maker fuel w amount holds meets chosen
    have observed := fair.observes chosen
    have ⟨filled, position⟩ := holds.1.fill true now amount meets observed
    refine ⟨position, ?_, fun exact => ?_⟩
    · -- the orders ahead have not been touched
      intro x mem
      rw [filled.heap x (holds.1.ahead x mem)]
      exact (congrFun observed.heap x).trans (holds.2.1 x (List.mem_cons_of_mem node mem))
    · obtain ⟨trading₁, progress, records⟩ :=
        holds.2.2 (observed.exact (matchFill_exact_before exact))
      obtain ⟨trading₂, progress₂⟩ := trading₁.fill fair heldNonneg meets chosen exact
      have tradedExact := matchFill_exact exact
      have pay := (trading₁.payable_of_traded fair heldNonneg meets chosen tradedExact).1
      have before := trading₁.observed observed
      have rests : Market.Rests st₁.market w.heap node maker :=
        observed.heap.symm ▸ meets.rests
      have original : st.market.Rests st.world.heap node maker :=
        ⟨(holds.2.1 node List.mem_cons_self).symm.trans meets.rests.1,
          progress.book _ _ meets.rests.2⟩
      have feesFit : FeesFit st₁.market.toMarketConf rule.side st₁.taker.takerFee maker := by
        rw [progress.conf, progress.taker.takerFee]
        exact fits original meets.side
      refine ⟨trading₂, progress.trans progress₂, ?_⟩
      exact (records.trans observed.records).trans
        (matchFill_records pay before.sound before.index rests (pay.feeFits feesFit tradedExact)
          exact)

theorem orderPut_silent (m : Market) (w : World) (order : Order) :
    w.Silent (orderPut m w order).2.2 := by
  have frozen (w : World) : w.Silent (w.observeFreeze order) := by
    unfold World.observeFreeze
    cases order.side
    · exact .refl w
    · exact w.observe_silent _ _
  have placed : w.Silent { w.store w.nextRef order with nextRef := w.nextRef + 1 } :=
    ⟨fun _ _ => rfl, rfl⟩
  simp only [orderPut]
  split
  · exact placed
  split
  · exact placed
  split
  · exact placed
  split
  · exact placed
  exact placed.trans <| (frozen _).trans <| (World.store_silent _ _ _).trans
    (World.discard_silent _ _)

theorem orderPut_fills (m : Market) (w : World) (order : Order) :
    (orderPut m w order).2.2.fills = w.fills := by
  simp only [orderPut]
  split
  · rfl
  split
  · rfl
  split
  · rfl
  split
  · rfl
  exact (World.observeFreeze_sameOrders _ order).fills

omit [Libmpdec] in
/-- What an order freezes is not counted in its user's total. -/
theorem OrderPosts.owns {conf : MarketConf} {user : ℕ} {w w₁ w' : World}
    (posts : OrderPosts conf rule user w w') (posts₁ : OrderPosts conf rule user w w₁)
    (fills : w'.fills = w₁.fills) (other : ℕ) (asset : String) :
    w'.ledger.owns other asset = w₁.ledger.owns other asset := by
  obtain ⟨new, moved, made, _, accounts⟩ := posts
  obtain ⟨new₁, moved₁, made₁, _, accounts₁⟩ := posts₁
  obtain rfl : new = new₁ := List.append_cancel_left (made.symm.trans (fills.trans made₁))
  have back : w'.ledger.accounts = w₁.ledger.accounts +
      (Finsupp.single ⟨user, .available, conf.gives rule.side⟩ (moved₁ - moved) -
        Finsupp.single ⟨user, .freeze, conf.gives rule.side⟩ (moved₁ - moved)) := by
    rw [accounts, accounts₁, Finsupp.single_sub, Finsupp.single_sub]
    abel
  exact holds_of_moved back other asset

theorem restOrFinish_silent (real : Bool) (st : LoopState) :
    st.world.Silent (restOrFinish real st).world := by
  have emitted (w : World) (event : OrderEvent) (order : Order) (stock money : String) :
      w.Silent (w.emit real (.orderMessage event order stock money)) :=
    w.emit_silent real (fun _ _ => rfl) fun _ => rfl
  simp only [restOrFinish]
  split
  · exact (st.world.emit_silent real (fun _ _ => rfl) fun _ => rfl).trans (emitted _ _ _ _ _)
  · exact (emitted _ _ _ _ _).trans (orderPut_silent _ _ _)

theorem restOrFinish_fills (real : Bool) (st : LoopState) :
    (restOrFinish real st).world.fills = st.world.fills := by
  simp only [restOrFinish]
  split
  · exact (World.emit_sameOrders _ _ _).fills.trans (World.emit_sameOrders _ _ _).fills
  · exact (orderPut_fills _ _ _).trans (World.emit_sameOrders _ _ _).fills

end Orders

/-! ## Commands -/

section Commands

variable [Libmpdec] [Settings] {e e' : Engine} {now : Time} {fuel : ℕ} {params : List Json}
  {reply : Reply}

/-- A limit order writes the rows of its fills; putting it to rest needs none. -/
theorem EngineInv.limit_records (inv : EngineInv e) {a : LimitArgs} {tooLong : String → Bool}
    {st' : LoopState} (read : readLimitArgs tooLong e.markets params = .ok a) (wf : a.WellFormed)
    (fits : ∀ {ref maker}, a.market.Rests e.world.heap ref maker →
      maker.side = a.side.opposite → FeesFit a.market.toMarketConf a.side a.takerFee maker)
    (put : a.put true now fuel e.world = some (restOrFinish true st'))
    (executed : execute true now fuel (limitRule a.side) (a.start now e.world) = some st')
    (exact : (restOrFinish true st').world.ledger.exact = true) :
    e.world.Records (restOrFinish true st').world := by
  obtain ⟨found, terms⟩ := wf.terms read
  have posts := (inv.limit read wf put exact).2.2
  rcases marketPutLimitOrder_cases put with ⟨code, codes, refused⟩ | ⟨covered, _⟩
  · have ret := restOrFinish_ret true st'
    rw [refused] at ret
    obtain rfl : code = 0 := ret
    exact absurd codes (by decide)
  have marketInv := inv.market found
  have observed := e.world.observeRequire_observed a.side a.amount a.price
  have resultExact := restOrFinish_exact exact
  obtain ⟨ok, need, fair, takes, _, needs⟩ := limitRule_fair a.side
  have start := limitStart_trading_of_run fair takes needs marketInv inv.sound
    (inv.backed_beside found) terms covered executed resultExact
  have progress := (execute_trading fair (inv.heldBeside_nonneg a.name) start executed
    resultExact).2
  have started : e.world.Records (a.start now e.world).world :=
    observed.records.trans <| World.Silent.records ⟨fun _ _ => rfl, rfl⟩ fun _ _ => rfl
  have matched : (a.start now e.world).world.Records st'.world := by
    apply execute_records fair (inv.heldBeside_nonneg a.name) start _ executed resultExact
    intro ref maker rests side
    rw [limitRule_side] at side ⊢
    refine fits ⟨?_, rests.2⟩ side
    rw [← observed.heap]
    exact rests.1
  have starts : Starts a.market e.world (a.start now e.world) :=
    orderStart_starts observed (congrArg (· + 1) observed.orderIdStart)
  have filled := progress.orderPosts starts
  apply (started.trans matched).trans
  apply (restOrFinish_silent true st').records
  exact posts.owns filled (restOrFinish_fills true st')

/-- So does a market order. -/
theorem EngineInv.marketOrder_records (inv : EngineInv e) {a : MarketArgs}
    {tooLong : String → Bool} {best : Order} {st' : LoopState}
    (read : readMarketArgs tooLong e.markets params = .ok a) (wf : a.WellFormed)
    (fits : ∀ {ref maker}, a.market.Rests e.world.heap ref maker →
      maker.side = a.side.opposite → FeesFit a.market.toMarketConf a.side a.takerFee maker)
    (put : a.put true now fuel e.world = some (finishMarket true st'))
    (executed : execute true now fuel (marketRule a.side) (a.start now e.world best) = some st')
    (exact : (finishMarket true st').world.ledger.exact = true) :
    e.world.Records (finishMarket true st').world := by
  obtain ⟨found, terms⟩ := wf.terms read
  rcases marketPutMarketOrder_cases put with ⟨code, codes, refused⟩ | ⟨covered, _⟩
  · have ret : (finishMarket true st').ret = 0 := rfl
    rw [refused] at ret
    obtain rfl : code = 0 := ret
    exact absurd codes (by decide)
  have marketInv := inv.market found
  have observed := marketRequire_observed e.world a.market a.side best
  have resultExact : st'.world.ledger.exact = true := by simpa [finishMarket] using exact
  obtain ⟨ok, fair, takes⟩ := marketRule_fair a.side
  have start : Trading (marketRule a.side) ok (fun taker => taker.left.value)
      (e.heldBeside a.name) (a.start now e.world best) :=
    marketStart_trading best takes marketInv inv.sound (inv.backed_beside found) terms covered
  have started : e.world.Records (a.start now e.world best).world :=
    observed.records.trans <| World.Silent.records ⟨fun _ _ => rfl, rfl⟩ fun _ _ => rfl
  have matched : (a.start now e.world best).world.Records st'.world := by
    apply execute_records fair (inv.heldBeside_nonneg a.name) start _ executed resultExact
    intro ref maker rests side
    rw [marketRule_side] at side ⊢
    refine fits ⟨?_, rests.2⟩ side
    rw [← observed.heap]
    exact rests.1
  apply (started.trans matched).trans
  apply World.Silent.records
  · exact (World.emit_silent _ true (fun _ _ => rfl) fun _ => rfl).trans
      (World.emit_silent _ true (fun _ _ => rfl) fun _ => rfl)
  · intro user asset
    simp [finishMarket]

/-- A cancel moves an amount between the two balances of a user and writes no
row. -/
theorem EngineInv.cancel_records (inv : EngineInv e) {a : CancelArgs} {ref : Ref} {order : Order}
    (read : readCancelArgs e.markets params = .ok a)
    (found : marketGetOrder a.market e.world a.orderId = some (ref, order))
    (exact : (marketCancelOrder true a.market e.world ref order).world.ledger.exact = true) :
    e.world.Records (marketCancelOrder true a.market e.world ref order).world := by
  have accounts := (inv.cancel read found exact).2.2
  apply World.Silent.records
  · exact (World.emit_silent _ true (fun _ _ => rfl) fun _ => rfl).trans
      (orderFinish_silent true _ _ _)
  · exact holds_of_moved accounts

/-- The world a balance update leaves, with its row and its message. -/
theorem updateUserBalance_written {padding : ℕ} {a : UpdateArgs}
    (updated : updateUserBalance true now padding e a = (0, e')) :
    ∃ result ledger detail, a.call e.world.ledger = (some result, ledger) ∧
      e'.world = ({ e.world with ledger := ledger }.emit true
        (.balanceHistory now a.userId a.asset a.business a.change
          (balanceTotal ledger a.userId a.asset) detail)).emit true
        (.balanceMessage now a.userId a.asset a.business a.change) := by
  simp only [updateUserBalance] at updated
  split at updated
  · simp at updated
  have call : (if mpdCmp a.change mpdZero ≥ 0 then
      balanceAdd e.world.ledger ⟨a.userId, .available, a.asset⟩ (mpdAbs a.change)
    else balanceSub e.world.ledger ⟨a.userId, .available, a.asset⟩ (mpdAbs a.change)) =
      a.call e.world.ledger := rfl
  rw [call] at updated
  split at updated
  · simp at updated
  · rename_i result ledger answered
    rw [← (Prod.mk.inj updated).2]
    exact ⟨result, ledger, _, answered, rfl⟩

/-- A balance update writes its change. -/
theorem EngineInv.update_records (inv : EngineInv e) {padding : ℕ} {a : UpdateArgs}
    {change : Json} {prec : ℤ} (read : jsonDecimal prec change = .ok a.change) (wf : a.WellFormed)
    (updated : updateUserBalance true now padding e a = (0, e'))
    (exact : e'.world.ledger.exact = true) : e.world.Records e'.world := by
  obtain ⟨result, ledger, detail, call, world⟩ := updateUserBalance_written updated
  rw [world, World.emit_ledger, World.emit_ledger] at exact
  obtain ⟨q, posts, same⟩ := a.call_posts wf inv.sound call exact
  rw [same (jsonDecimal_sigDigits read wf.changeFinite)] at posts
  have silent : e.world.Silent { e.world with ledger := ledger } := ⟨fun _ _ => rfl, rfl⟩
  rw [world]
  apply (World.Records.post silent posts.accounts).trans
  apply (World.emit_silent _ true (fun _ _ => rfl) fun _ => rfl).records
  intro user asset
  rw [World.emit_ledger]

/-- No fee an ask may be charged by this command has more digits than its money
is stored with. -/
def Command.FeesFit (e : Engine) : Command → Prop
  | .orderPutLimit params => ∀ a, readLimitArgs liveTooLong e.markets params = .ok a →
      ∀ ref maker, a.market.Rests e.world.heap ref maker → maker.side = a.side.opposite →
        MatchEngine.FeesFit a.market.toMarketConf a.side a.takerFee maker
  | .orderPutMarket params => ∀ a, readMarketArgs liveTooLong e.markets params = .ok a →
      ∀ ref maker, a.market.Rests e.world.heap ref maker → maker.side = a.side.opposite →
        MatchEngine.FeesFit a.market.toMarketConf a.side a.takerFee maker
  | .balanceUpdate _ _ => True
  | .orderCancel _ => True

/-- While nothing rounds, every movement of a command has its row. -/
theorem handle_records {command : Command} (inv : EngineInv e) (wellFormed : command.WellFormed e)
    (fits : command.FeesFit e) (run : e.handle now fuel command = some (reply, e'))
    (exact : e'.world.ledger.exact = true) : e.world.Records e'.world := by
  cases command with
  | balanceUpdate padding params =>
      rcases onCmdBalanceUpdate_cases (Option.some.inj run) with
        ⟨_, rfl⟩ |
          ⟨user, business, businessId, change, detail, a, e₁, rfl, _, read, updated, _, rfl⟩
      · exact .refl _
      · obtain ⟨_, _, _, _, _, _, _, _, changeRead, _⟩ := readUpdateArgs_eq_ok.mp read
        have records : e.world.Records e₁.world :=
          inv.update_records changeRead (wellFormed a read) updated exact
        exact records
  | orderPutLimit params =>
      rcases onCmdOrderPutLimit_cases run with ⟨_, rfl⟩ | ⟨a, st', read, put, executed, _, rfl⟩
      · exact .refl _
      · exact inv.limit_records read (wellFormed a read)
          (fun rests side => fits a read _ _ rests side) put executed exact
  | orderPutMarket params =>
      rcases onCmdOrderPutMarket_cases run with
        ⟨_, rfl⟩ | ⟨a, best, st', read, put, executed, _, rfl⟩
      · exact .refl _
      · exact inv.marketOrder_records read (wellFormed a read)
          (fun rests side => fits a read _ _ rests side) put executed exact
  | orderCancel params =>
      rcases onCmdOrderCancel_cases (Option.some.inj run) with
        ⟨_, rfl⟩ | ⟨a, ref, order, read, found, _, _, rfl⟩
      · exact .refl _
      · exact inv.cancel_records read found exact

end Commands

end ViabtcServer.MatchEngine
