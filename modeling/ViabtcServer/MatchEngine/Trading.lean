import ViabtcServer.MatchEngine.Matching

/-!
# The trading invariant

What holds at every turn of a matching loop while nothing rounds: the indexes
are in step, frozen balances are what the resting orders of this market freeze
plus what is held for others, and the taker's available balance covers what it
may still have to pay. From it no balance call of the loop can fail.
-/

namespace ViabtcServer.MatchEngine

open Decimal Container

variable [Libmpdec] [Settings] {rule : MatchRule} {ok : MarketConf → Order → Prop}
  {need : Order → ℚ} {held : ℕ → String → ℚ} {st st' st'' : LoopState} {node : Ref}
  {maker : Order} {real : Bool} {now : Time} {fuel : ℕ} {w : World} {amount : Mpd}

/-- The invariant of a loop. `held` is what others hold frozen. -/
structure Trading (rule : MatchRule) (ok : MarketConf → Order → Prop) (need : Order → ℚ)
    (held : ℕ → String → ℚ) (st : LoopState) : Prop where
  market : st.market.toMarketConf.Ok
  taker : ok st.market.toMarketConf st.taker
  takerFee : FeeOk st.market.toMarketConf st.taker.takerFee
  index : IndexInv st.market st.world.heap
  resting : ∀ {ref o}, st.market.Rests st.world.heap ref o → o.Resting st.market.toMarketConf
  sound : st.world.ledger.Sound
  backed : ∀ user asset, st.world.ledger.holds ⟨user, .freeze, asset⟩ =
    held user asset + st.market.frozen st.world.heap user asset
  cover : need st.taker ≤
    st.world.ledger.holds ⟨st.taker.userId, .available, st.market.gives rule.side⟩

/-- The terms an order was placed on agree. -/
structure Order.SameTerms (o o' : Order) : Prop extends Order.SameKey o o' where
  amount : o'.amount = o.amount
  takerFee : o'.takerFee = o.takerFee
  makerFee : o'.makerFee = o.makerFee

omit [Libmpdec] [Settings] in
theorem Order.SameTerms.refl (o : Order) : o.SameTerms o :=
  ⟨.refl o, rfl, rfl, rfl⟩

omit [Libmpdec] [Settings] in
theorem Order.SameTerms.trans {o o' o'' : Order} (one : o.SameTerms o') (two : o'.SameTerms o'') :
    o.SameTerms o'' :=
  ⟨one.toSameKey.trans two.toSameKey, two.amount.trans one.amount,
    two.takerFee.trans one.takerFee, two.makerFee.trans one.makerFee⟩

/-- A fill of the loop, made by its taker. -/
structure FillBy (rule : MatchRule) (conf : MarketConf) (user : ℕ) (f : Fill) : Prop where
  takerSide : f.takerSide = rule.side
  taker : f.user rule.side = user
  ok : f.Ok conf

/-- What turns of a loop change: the taker's progress, the makers that were
traded with, and the accounts, by what the new fills post. -/
structure Progress (rule : MatchRule) (st st' : LoopState) : Prop where
  conf : st'.market.toMarketConf = st.market.toMarketConf
  taker : st.taker.SameTerms st'.taker
  left_le : st'.taker.left.value ≤ st.taker.left.value
  nextRef : st'.world.nextRef = st.world.nextRef
  orderIdStart : st'.world.orderIdStart = st.world.orderIdStart
  ignored : st'.world.ignored = st.world.ignored
  book : ∀ side, ∀ x ∈ st'.market.book side, x ∈ st.market.book side
  heap : ∀ x, (∀ side, x ∉ st.market.book side) → st'.world.heap x = st.world.heap x
  rests : ∀ {x o'}, st'.market.Rests st'.world.heap x o' →
    ∃ o, st.market.Rests st.world.heap x o ∧ o.SameKey o'
  posts : ∃ new, st'.world.fills = st.world.fills ++ new ∧
    st'.world.ledger.accounts =
      st.world.ledger.accounts + (new.map (Fill.posted st.market.toMarketConf)).sum ∧
    ∀ f ∈ new, FillBy rule st.market.toMarketConf st.taker.userId f

omit [Libmpdec] in
theorem Progress.refl (rule : MatchRule) (st : LoopState) : Progress rule st st where
  conf := rfl
  taker := .refl _
  left_le := le_rfl
  nextRef := rfl
  orderIdStart := rfl
  ignored := rfl
  book _ _ mem := mem
  heap _ _ := rfl
  rests {x o} rests := ⟨o, rests, .refl o⟩
  posts := ⟨[], by simp, by simp, by simp⟩

omit [Libmpdec] in
theorem Progress.trans (one : Progress rule st st') (two : Progress rule st' st'') :
    Progress rule st st'' where
  conf := two.conf.trans one.conf
  taker := one.taker.trans two.taker
  left_le := two.left_le.trans one.left_le
  nextRef := two.nextRef.trans one.nextRef
  orderIdStart := two.orderIdStart.trans one.orderIdStart
  ignored := two.ignored.trans one.ignored
  book side x mem := one.book side x (two.book side x mem)
  heap x absent :=
    (two.heap x fun side mem => absent side (one.book side x mem)).trans (one.heap x absent)
  rests {x o''} rests := by
    obtain ⟨o', rests', keep'⟩ := two.rests rests
    obtain ⟨o, rests, keep⟩ := one.rests rests'
    exact ⟨o, rests, keep.trans keep'⟩
  posts := by
    obtain ⟨new, fills, accounts, by_⟩ := one.posts
    obtain ⟨new', fills', accounts', by'⟩ := two.posts
    rw [one.conf, one.taker.userId] at by'
    rw [one.conf] at accounts'
    refine ⟨new ++ new', ?_, ?_, ?_⟩
    · rw [fills', fills, List.append_assoc]
    · rw [accounts', accounts, List.map_append, List.sum_append, add_assoc]
    · intro f mem
      rcases List.mem_append.mp mem with mem | mem
      · exact by_ f mem
      · exact by' f mem

omit [Libmpdec] in
theorem Progress.observed (rule : MatchRule) (same : st.world.Observed w) :
    Progress rule st { st with world := w } where
  conf := rfl
  taker := .refl _
  left_le := le_rfl
  nextRef := same.nextRef
  orderIdStart := same.orderIdStart
  ignored := same.ignored
  book _ _ mem := mem
  heap x _ := congrFun same.heap x
  rests {x o} rests := ⟨o, ⟨(congrFun same.heap x).symm.trans rests.1, rests.2⟩, .refl o⟩
  posts := ⟨[], by simp [same.fills], by simp [same.accounts], by simp⟩

omit [Libmpdec] in
/-- Observing changes nothing the invariant speaks of. -/
theorem Trading.observed (trading : Trading rule ok need held st) (same : st.world.Observed w) :
    Trading rule ok need held { st with world := w } := by
  refine ⟨trading.market, trading.taker, trading.takerFee, same.heap.symm ▸ trading.index, ?_,
    same.sound trading.sound, ?_, ?_⟩
  · intro ref o rests
    exact trading.resting (same.heap ▸ rests)
  · intro user asset
    simp only [same.holds, same.heap, trading.backed]
  · rw [same.holds]
    exact trading.cover

omit [Settings] in
theorem LoopState.sameTerms_takerAfter (st : LoopState) (now : Time) (rule : MatchRule)
    (maker : Order) (amount : Mpd) : st.taker.SameTerms (st.takerAfter now rule maker amount) :=
  ⟨⟨rfl, rfl, rfl, rfl, rfl, rfl⟩, rfl, rfl, rfl⟩

/-- A loop keeps the terms of its taker. -/
theorem execute_sameTerms (sane : rule.Sane) (inv : BookInv st.market st.world.heap)
    (run : execute real now fuel rule st = some st') : st.taker.SameTerms st'.taker := by
  apply execute_keeps sane (fun st₁ => st.taker.SameTerms st₁.taker) _ _ inv (.refl _) run
  · intro st₁ w same _
    exact same
  · intro st₁ node maker amount same _
    exact same.trans (st₁.sameTerms_takerAfter now rule maker amount)

omit [Libmpdec] in
/-- Neither does output. -/
theorem Trading.emit (trading : Trading rule ok need held st) (real : Bool) (output : Output) :
    Trading rule ok need held { st with world := st.world.emit real output } := by
  obtain ⟨market, taker, takerFee, index, resting, sound, backed, cover⟩ := trading
  cases real <;> exact ⟨market, taker, takerFee, index, resting, sound, backed, cover⟩

omit [Libmpdec] in
theorem Progress.emit (progress : Progress rule st st') (real : Bool) (output : Output) :
    Progress rule st { st' with world := st'.world.emit real output } := by
  obtain ⟨conf, taker, left, nextRef, orderId, ignored, book, heap, rests, posts⟩ := progress
  cases real <;>
    exact ⟨conf, taker, left, nextRef, orderId, ignored, book, heap, rests, posts⟩

/-- The next fill can be paid for, and leaves the taker covered. -/
theorem Trading.payable (fair : rule.Fair ok need) (heldNonneg : ∀ user asset, 0 ≤ held user asset)
    (trading : Trading rule ok need held st) (meets : Meets rule st node maker)
    (chosen : rule.volume fuel st maker = some (w, some amount))
    (opened : (openedWorld real now rule { st with world := w } maker amount).ledger.exact = true)
    (left : (mpdSub st.taker.left
        (rule.spends (LoopState.fill { st with world := w } rule maker amount))).value =
      st.taker.left.value -
        (rule.spends (LoopState.fill { st with world := w } rule maker amount)).value) :
    Payable { st with world := w } rule maker amount ∧
      TakerSane (LoopState.takerAfter { st with world := w } now rule maker amount) ∧
      (LoopState.takerAfter { st with world := w } now rule maker amount).left.value ≤
        st.taker.left.value ∧
      ok st.market.toMarketConf
        (LoopState.takerAfter { st with world := w } now rule maker amount) ∧
      need (LoopState.takerAfter { st with world := w } now rule maker amount) +
        ((LoopState.fill { st with world := w } rule maker amount).pays rule.side).value ≤
          need st.taker := by
  have observed := fair.observes chosen
  have takerSane := fair.taker trading.taker
  have resting := trading.resting meets.rests
  obtain ⟨finite, pos, le_left⟩ := fair.chooses takerSane resting.sane meets.unfinished chosen
  have digits := fair.digits trading.taker resting chosen
  obtain ⟨fillOk, deal⟩ := makeFill_ok trading.market trading.takerFee resting finite pos digits
    (openedWorld_ledger ▸ opened)
  have after := takerAfter_sane now fair.toSane takerSane resting.sane meets.unfinished
    chosen
  obtain ⟨_, spent, spends⟩ := fair.spends takerSane resting.sane meets.unfinished chosen
    (f := LoopState.fill { st with world := w } rule maker amount) makeFill_amount makeFill_deal
  have amountEq : (LoopState.fill { st with world := w } rule maker amount).amount = amount :=
    makeFill_amount
  obtain ⟨ok', lowers⟩ := fair.step
    (LoopState.takerAfter { st with world := w } now rule maker amount)
    (f := LoopState.fill { st with world := w } rule maker amount)
    trading.taker resting meets.acceptable (amountEq.symm ▸ digits) (amountEq.symm ▸ pos.le)
    (by rw [amountEq, ← deal]; exact congrArg Mpd.value makeFill_deal) spends after.finite left rfl
  refine ⟨?_, after, ?_, ok', lowers⟩
  · refine ⟨trading.market, trading.takerFee, resting, meets.side, finite, pos, le_left, digits,
      ?_, ?_⟩
    · rw [observed.holds]
      have nonneg := fair.need_nonneg ok'
      linarith [trading.cover]
    · rw [observed.holds, trading.backed]
      have part := Market.freeze_le_frozen trading.index
        (fun rests => (trading.resting rests).freeze_pos.le) meets.rests
      linarith [heldNonneg maker.userId (st.market.gives maker.side)]
  · change (mpdSub st.taker.left _).value ≤ _
    rw [left]
    exact sub_le_self _ spent

theorem Trading.payable_of_traded (fair : rule.Fair ok need)
    (heldNonneg : ∀ user asset, 0 ≤ held user asset) (trading : Trading rule ok need held st)
    (meets : Meets rule st node maker)
    (chosen : rule.volume fuel st maker = some (w, some amount))
    (exact : (tradedWorld real now rule { st with world := w } node maker amount).ledger.exact
      = true) :
    Payable { st with world := w } rule maker amount ∧
      TakerSane (LoopState.takerAfter { st with world := w } now rule maker amount) ∧
      (LoopState.takerAfter { st with world := w } now rule maker amount).left.value ≤
        st.taker.left.value ∧
      ok st.market.toMarketConf
        (LoopState.takerAfter { st with world := w } now rule maker amount) ∧
      need (LoopState.takerAfter { st with world := w } now rule maker amount) +
        ((LoopState.fill { st with world := w } rule maker amount).pays rule.side).value ≤
          need st.taker :=
  trading.payable fair heldNonneg meets chosen (tradedWorld_opened exact)
    (fillTaker_exact (fillMaker_exact exact).1).2

/-- One fill keeps the invariant. -/
theorem Trading.fill (fair : rule.Fair ok need) (heldNonneg : ∀ user asset, 0 ≤ held user asset)
    (trading : Trading rule ok need held st) (meets : Meets rule st node maker)
    (chosen : rule.volume fuel st maker = some (w, some amount))
    (exact : (matchFill real now rule { st with world := w } node maker amount).world.ledger.exact
      = true) :
    Trading rule ok need held (matchFill real now rule { st with world := w } node maker amount) ∧
      Progress rule st (matchFill real now rule { st with world := w } node maker amount) := by
  have tradedExact := matchFill_exact exact
  obtain ⟨pay, _, left_le, ok', lowers⟩ :=
    trading.payable_of_traded fair heldNonneg meets chosen tradedExact
  have observed := fair.observes chosen
  have before := trading.observed observed
  have rests : Market.Rests st.market w.heap node maker := observed.heap.symm ▸ meets.rests
  have filled := matchFill_filled real now rule amount before.index.toBookInv rests
  have settled := matchFill_settled pay before.sound before.index rests exact
  have fillOk := (pay.fill_ok (tradedWorld_opened tradedExact)).1
  have conf : (matchFill real now rule { st with world := w } node maker amount).market.toMarketConf
      = st.market.toMarketConf := filled.conf
  have terms := LoopState.sameTerms_takerAfter { st with world := w } now rule maker amount
  have keep := LoopState.sameKey_makerAfter { st with world := w } now rule maker amount
  have takerSide : (LoopState.fill { st with world := w } rule maker amount).takerSide =
      rule.side := makeFill_takerSide
  have takerUser : (LoopState.fill { st with world := w } rule maker amount).user rule.side =
      st.taker.userId := makeFill_user
  have makerUser : (LoopState.fill { st with world := w } rule maker amount).user
      rule.side.opposite = maker.userId := makeFill_user_opposite
  refine ⟨⟨?_, ?_, ?_, settled.index, ?_, settled.posts.sound, ?_, ?_⟩, ?_⟩
  · rw [conf]
    exact trading.market
  · rw [conf]
    exact ok'
  · rw [conf]
    exact trading.takerFee
  · intro ref o restsX
    rw [conf]
    rcases settled.rests restsX with ⟨_, restsX⟩ | ⟨_, rfl, resting⟩
    · exact before.resting restsX
    · exact resting
  · intro user asset
    rw [settled.posts.holds, settled.frozen, Fill.posted_freeze, takerSide, makerUser, pay.side]
    have backed := before.backed user asset
    simp only at backed
    rw [backed]
    by_cases own : user = maker.userId
    · by_cases same : st.market.gives rule.side.opposite = asset
      · rw [if_pos ⟨own, same⟩, if_pos own, if_pos same]
        ring
      · rw [if_neg (fun both => same both.2), if_pos own, if_neg same]
        ring
    · rw [if_neg (fun both => own both.1), if_neg own]
      ring
  · rw [conf, settled.posts.holds]
    have posted := fillOk.posted_available
    rw [takerSide, takerUser] at posted
    have lowered := le_sub_iff_add_le.mpr lowers
    rw [sub_eq_add_neg] at lowered
    exact lowered.trans (add_le_add before.cover posted)
  · have counters := observed.toSameCounters
    refine ⟨conf, terms, left_le, filled.nextRef.trans counters.nextRef,
      filled.orderIdStart.trans counters.orderIdStart, settled.ignored.trans observed.ignored,
      ?_, ?_, ?_, ?_⟩
    · intro side x mem
      rcases filled.book with ⟨_, erased⟩ | ⟨_, same, _⟩
      · rw [erased] at mem
        exact List.mem_of_mem_erase mem
      · rwa [same] at mem
    · intro x absent
      refine (filled.heap x ?_).trans (congrFun observed.heap x)
      rintro rfl
      exact absent _ meets.rests.2
    · intro x o restsX
      rcases settled.rests restsX with ⟨_, restsX⟩ | ⟨rfl, rfl, _⟩
      · exact ⟨o, ⟨(congrFun observed.heap x).symm.trans restsX.1, restsX.2⟩, .refl o⟩
      · exact ⟨maker, meets.rests, keep⟩
    · refine ⟨[LoopState.fill { st with world := w } rule maker amount], ?_, ?_, ?_⟩
      · rw [filled.fills, ← counters.fills]
      · rw [settled.posts.accounts, List.map_singleton, List.sum_singleton]
        simp only [observed.accounts]
      · intro f mem
        obtain rfl := List.mem_singleton.mp mem
        exact ⟨takerSide, takerUser, fillOk⟩

/-- A whole loop keeps the invariant. -/
theorem execute_trading (fair : rule.Fair ok need)
    (heldNonneg : ∀ user asset, 0 ≤ held user asset) (trading : Trading rule ok need held st)
    (run : execute real now fuel rule st = some st') (exact : st'.world.ledger.exact = true) :
    Trading rule ok need held st' ∧ Progress rule st st' := by
  have all := matchLoop_rule real now rule
    (fun rest st₁ => At rule rest st₁ ∧ (st₁.world.ledger.exact = true →
      Trading rule ok need held st₁ ∧ Progress rule st st₁))
    (fun st₁ => st₁.world.ledger.exact = true →
      Trading rule ok need held st₁ ∧ Progress rule st st₁)
    (fun holds => holds.1) (fun holds _ => holds.2) ?_ ?_ fuel
    ⟨.start trading.index.toBookInv, fun _ => ⟨trading, .refl rule st⟩⟩ run
  · exact all exact
  · intro node rest st₁ maker fuel w holds meets chosen exact
    have observed := fair.observes chosen
    obtain ⟨trading, progress⟩ := holds.2 (observed.exact exact)
    exact ⟨trading.observed observed, progress.trans (.observed rule observed)⟩
  · intro node rest st₁ maker fuel w amount holds meets chosen
    have observed := fair.observes chosen
    rcases holds.1.fill real now amount meets observed with ⟨filled, position⟩
    refine ⟨position, fun exact => ?_⟩
    obtain ⟨trading, progress⟩ := holds.2 (observed.exact (matchFill_exact_before exact))
    obtain ⟨trading', progress'⟩ := trading.fill fair heldNonneg meets chosen exact
    exact ⟨trading', progress.trans progress'⟩

/-! ## What a finished loop leaves on the other side -/

/-- A taker that wants more after a fill has used its maker up. -/
theorem Trading.fill_used_up (fair : rule.Fair ok need)
    (heldNonneg : ∀ user asset, 0 ≤ held user asset) (volume : rule.volume = restVolume)
    (spends : rule.spends = Fill.amount) (trading : Trading rule ok need held st)
    (meets : Meets rule st node maker) (chosen : rule.volume fuel st maker = some (w, some amount))
    (exact : (matchFill real now rule { st with world := w } node maker amount).world.ledger.exact
      = true)
    (wants : mpdCmp (LoopState.takerAfter { st with world := w } now rule maker amount).left
      mpdZero ≠ 0) :
    mpdCmp (LoopState.makerAfter { st with world := w } now rule maker amount).left
      mpdZero = 0 := by
  have tradedExact := matchFill_exact exact
  obtain ⟨pay, after, _, _, _⟩ := trading.payable_of_traded fair heldNonneg meets chosen tradedExact
  obtain ⟨leftFinite, left⟩ := pay.makerAfter_left tradedExact
  have takerLeft := (fillTaker_exact (fillMaker_exact tradedExact).1).2
  have amountEq : amount.value = min st.taker.left.value maker.left.value := by
    rw [volume, restVolume] at chosen
    obtain ⟨_, same⟩ := Prod.mk.inj (Option.some.inj chosen)
    obtain rfl := Option.some.inj same
    exact (minLeft_spec (fair.taker trading.taker) (trading.resting meets.rests).sane).2.2
  have pos := after.pos wants
  have rest : (LoopState.takerAfter { st with world := w } now rule maker amount).left.value =
      st.taker.left.value - amount.value := by
    refine Eq.trans takerLeft ?_
    rw [spends]
    exact congrArg (fun a : Mpd => st.taker.left.value - a.value) makeFill_amount
  rw [mpdCmp_eq_zero leftFinite mpdZero_isFinite, mpdZero_value, left, amountEq]
  rw [rest, amountEq] at pos
  rcases min_choice st.taker.left.value maker.left.value with same | same <;> rw [same] at pos ⊢
  · linarith
  · exact sub_self _

/-- A loop counted in stock ends with its taker done, with the other side empty,
or before a maker it must not trade with. -/
theorem execute_served (fair : rule.Fair ok need)
    (heldNonneg : ∀ user asset, 0 ≤ held user asset) (volume : rule.volume = restVolume)
    (spends : rule.spends = Fill.amount) (trading : Trading rule ok need held st)
    (run : execute real now fuel rule st = some st') (exact : st'.world.ledger.exact = true) :
    Ends rule (st'.market.book rule.side.opposite) st' := by
  have all := matchLoop_rule real now rule
    (fun rest st₁ => At rule rest st₁ ∧ (st₁.world.ledger.exact = true →
      Trading rule ok need held st₁ ∧
        (mpdCmp st₁.taker.left mpdZero ≠ 0 → st₁.market.book rule.side.opposite = rest)))
    (fun st₁ => st₁.world.ledger.exact = true →
      Ends rule (st₁.market.book rule.side.opposite) st₁)
    (fun holds => holds.1) ?_ ?_ ?_ fuel ⟨.start trading.index.toBookInv, fun _ =>
      ⟨trading, fun _ => rfl⟩⟩ run
  · exact all exact
  · intro rest st₁ holds ends exact
    by_cases finished : mpdCmp st₁.taker.left mpdZero = 0
    · exact Or.inr (Or.inl finished)
    · rw [(holds.2 exact).2 finished]
      exact ends
  · intro node rest st₁ maker fuel w holds meets chosen
    rw [volume, restVolume] at chosen
    cases chosen
  · intro node rest st₁ maker fuel w amount holds meets chosen
    have observed := fair.observes chosen
    rcases holds.1.fill real now amount meets observed with ⟨filled, position⟩
    refine ⟨position, fun exact => ?_⟩
    obtain ⟨trading, book⟩ := holds.2 (observed.exact (matchFill_exact_before exact))
    refine ⟨(trading.fill fair heldNonneg meets chosen exact).1, fun wants => ?_⟩
    have used := trading.fill_used_up fair heldNonneg volume spends meets chosen exact wants
    rcases filled.book with ⟨_, erased⟩ | ⟨remains, _⟩
    · rw [erased, book meets.unfinished, List.erase_cons_head]
    · exact absurd used remains

end ViabtcServer.MatchEngine
