import ViabtcServer.Auction.PriceTime
import ViabtcServer.MatchEngine.Reach

/-!
# Price-time priority of the loops

The three loops that count what is left of the taker in stock make the fills of
the reference matcher. The reference walks the resting orders of the other side
as the id dictionary knows them, sorted by price and age; the loops walk a list
from which finished makers are unlinked under the iterator.
-/

namespace ViabtcServer.MatchEngine

open Decimal Container

/-! ## The reference -/

/-- Who trades with whom, at what price and how much. -/
structure Trade where
  askId : ℕ
  bidId : ℕ
  price : Mpd
  amount : ℚ
  deriving DecidableEq, Repr

/-- The trade a fill carries out. -/
def Fill.trade (f : Fill) : Trade where
  askId := f.askId
  bidId := f.bidId
  price := f.price
  amount := f.amount.value

/-- The order a fill found in the book. -/
def Fill.makerId (f : Fill) : ℕ :=
  match f.takerSide with
  | .ask => f.bidId
  | .bid => f.askId

/-- A taker's trade with a maker, at the maker's price. -/
def makeTrade (side : Side) (taker : Order) (met : Order × ℚ) : Trade :=
  match side with
  | .ask => ⟨taker.id, met.1.id, met.1.price, met.2⟩
  | .bid => ⟨met.1.id, taker.id, met.1.price, met.2⟩

/-- The orders of a side in the id dictionary. -/
def Market.resting (m : Market) (heap : Ref → Option Order) (side : Side) : List Order :=
  (m.orders.entries.filterMap fun entry => heap entry.2).filter fun o => o.side = side

/-- `execute_limit_ask_order`, `execute_limit_bid_order` and
`execute_market_ask_order`. -/
inductive StockLoop
  | limitAsk
  | limitBid
  | marketAsk

namespace StockLoop

/-- The side of the taker. -/
def side : StockLoop → Side
  | limitAsk => .ask
  | limitBid => .bid
  | marketAsk => .ask

/-- A maker within the taker's limit. -/
def accepts : StockLoop → Order → Order → Bool
  | limitAsk, taker, maker => taker.price.value ≤ maker.price.value
  | limitBid, taker, maker => maker.price.value ≤ taker.price.value
  | marketAsk, _, _ => true

/-- What the reference matcher trades. -/
def reference (loop : StockLoop) (m : Market) (heap : Ref → Option Order) (taker : Order) :
    List Trade :=
  (Auction.trades (loop.accepts taker) (fun maker => maker.left.value) taker.left.value
    (Auction.queue Order.priority (m.resting heap loop.side.opposite))).map
    (makeTrade loop.side taker)

variable [Libmpdec] [Settings]

def execute (loop : StockLoop) (real : Bool) (now : Time) (fuel : ℕ) (st : LoopState) :
    Option LoopState :=
  match loop with
  | limitAsk => executeLimitAskOrder real now fuel st
  | limitBid => executeLimitBidOrder real now fuel st
  | marketAsk => executeMarketAskOrder real now fuel st

end StockLoop

/-! ## The queue of a book -/

section Queue

variable {m : Market} {heap : Ref → Option Order} {side : Side} {ref : Ref} {o : Order}

theorem Market.mem_resting (index : IndexInv m heap) :
    o ∈ m.resting heap side ↔ ∃ ref, m.Rests heap ref o ∧ o.side = side := by
  unfold resting
  rw [List.mem_filter, List.mem_filterMap, decide_eq_true_eq]
  constructor
  · rintro ⟨⟨entry, member, found⟩, sided⟩
    rcases index.orders.mp (mem_entries_iff.mp member) with ⟨o', rests, _⟩
    have same : o' = o := rests.eq found
    rw [same] at rests
    exact ⟨entry.2, rests, sided⟩
  · rintro ⟨ref, rests, sided⟩
    have entry := index.orders.mpr ⟨o, rests, rfl⟩
    exact ⟨⟨⟨o.id, ref⟩, mem_entries_iff.mpr entry, rests.1⟩, sided⟩

/-- The dictionary names no order twice. -/
theorem Market.resting_nodup (index : IndexInv m heap) : (m.resting heap side).Nodup := by
  apply List.Nodup.filter
  apply List.pairwise_filterMap.mpr
  have keys := List.nodupKeys_iff_pairwise.mp m.orders.nodupKeys
  apply keys.imp_of_mem
  intro entry entry' member member' differ o found o' found' same
  rcases index.orders.mp (mem_entries_iff.mp member) with ⟨p, rests, own⟩
  rcases index.orders.mp (mem_entries_iff.mp member') with ⟨p', rests', own'⟩
  have one : p = o := rests.eq found
  have two : p' = o' := rests'.eq found'
  apply differ
  rw [← own, ← own', one, two, same]

theorem BookInv.orders_sorted (inv : BookInv m heap) (side : Side) :
    ((m.book side).filterMap heap).Pairwise fun a b => a.priority < b.priority := by
  apply List.pairwise_filterMap.mpr
  apply (inv.sorted side).imp
  intro ref ref' before o found o' found'
  rwa [priorityAt_of_some found, priorityAt_of_some found'] at before

theorem BookInv.mem_orders (inv : BookInv m heap) :
    o ∈ (m.book side).filterMap heap ↔ ∃ ref, m.Rests heap ref o ∧ o.side = side := by
  rw [List.mem_filterMap]
  constructor
  · rintro ⟨ref, member, found⟩
    rcases inv.rests_of_mem member with ⟨o', rests, sided⟩
    have same : o' = o := rests.eq found
    rw [same] at rests sided
    exact ⟨ref, rests, sided⟩
  · rintro ⟨ref, rests, rfl⟩
    exact ⟨ref, rests.2, rests.1⟩

/-- The list of a side is the queue of its orders. -/
theorem IndexInv.queue_eq (index : IndexInv m heap) (side : Side) :
    Auction.queue Order.priority (m.resting heap side) = (m.book side).filterMap heap := by
  have sorted := index.toBookInv.orders_sorted side
  apply Auction.queue_of_perm _ sorted
  have nodup : ((m.book side).filterMap heap).Nodup := by
    apply sorted.imp
    rintro a _ lt rfl
    exact lt_irrefl _ lt
  rw [List.perm_ext_iff_of_nodup nodup (Market.resting_nodup index)]
  intro o
  rw [index.toBookInv.mem_orders, Market.mem_resting index]

end Queue

/-! ## The loop as a walk -/

section Walk

variable [Libmpdec] [Settings] {rule : MatchRule} {accepts : Order → Bool}
  {start st st' : LoopState} {node : Ref} {rest : List Ref} {maker : Order} {real : Bool}
  {now : Time} {fuel : ℕ}

/-- The trades ahead of an iterator, when `left` is left of the taker. -/
def tradesAhead (rule : MatchRule) (accepts : Order → Bool) (start : LoopState) (left : ℚ)
    (rest : List Ref) : List Trade :=
  (Auction.trades accepts (fun maker => maker.left.value) left
    (rest.filterMap start.world.heap)).map (makeTrade rule.side start.taker)

/-- A loop that began in `start` and has come to `rest`: the makers ahead are as
they were, and the trades so far and those ahead are those of the whole walk. -/
structure Walk (rule : MatchRule) (accepts : Order → Bool) (start : LoopState) (rest : List Ref)
    (st : LoopState) : Prop where
  position : At rule rest st
  taker : TakerSane st.taker
  terms : start.taker.SameTerms st.taker
  ahead : ∀ x ∈ rest, st.world.heap x = start.world.heap x
  makers : ∀ x ∈ rest, ∀ maker, start.world.heap x = some maker → MakerSane maker
  traded : st.world.ledger.exact = true → ∃ fills, st.world.fills = start.world.fills ++ fills ∧
    (∀ f ∈ fills, f.takerSide = rule.side) ∧
    fills.map Fill.trade ++ tradesAhead rule accepts start st.taker.left.value rest =
      tradesAhead rule accepts start start.taker.left.value
        (start.market.book rule.side.opposite)

omit [Settings] in
/-- The loop stops where the walk does. -/
theorem Walk.ends (walk : Walk rule accepts start rest st)
    (stops : ∀ {taker maker}, start.taker.SameTerms taker → maker.price.isFinite →
      rule.stops taker maker = !accepts maker)
    (ends : Ends rule rest st) :
    tradesAhead rule accepts start st.taker.left.value rest = [] := by
  unfold tradesAhead
  rcases ends with rfl | spent | ⟨node, tail, maker, rfl, rests, _, stop⟩
  · rfl
  · rw [mpdCmp_eq_zero walk.taker.finite mpdZero_isFinite, mpdZero_value] at spent
    rw [spent, Auction.trades_zero, List.map_nil]
  · have found : start.world.heap node = some maker :=
      (walk.ahead node List.mem_cons_self).symm.trans rests.1
    have sane := walk.makers node List.mem_cons_self maker found
    have rejects : accepts maker = false := by
      rw [stops walk.terms sane.priceFinite] at stop
      simpa using stop
    rw [List.filterMap_cons_some found, Auction.trades_reject rejects, List.map_nil]

/-- A turn of the loop makes the next trade of the walk. -/
theorem Walk.fill (volume : rule.volume = restVolume) (spends : rule.spends = Fill.amount)
    (stops : ∀ {taker maker}, start.taker.SameTerms taker → maker.price.isFinite →
      rule.stops taker maker = !accepts maker)
    (walk : Walk rule accepts start (node :: rest) st) (meets : Meets rule st node maker) :
    Walk rule accepts start rest
      (matchFill real now rule st node maker (minLeft st.taker maker)) := by
  have found : start.world.heap node = some maker :=
    (walk.ahead node List.mem_cons_self).symm.trans meets.rests.1
  have sane := walk.makers node List.mem_cons_self maker found
  have chosen : rule.volume 0 st maker =
      some (st.world, some (minLeft st.taker maker)) := by
    rw [volume]
    rfl
  have filled := (walk.position.fill real now (minLeft st.taker maker) meets (.refl _)).1
  have position := (walk.position.fill real now (minLeft st.taker maker) meets (.refl _)).2
  have value := (minLeft_spec walk.taker sane).2.2
  constructor
  · exact position
  · exact takerAfter_sane now (sane_of_restVolume volume spends) walk.taker sane
      meets.unfinished chosen
  · exact walk.terms.trans (st.sameTerms_takerAfter now rule maker _)
  · intro x member
    rw [filled.heap x (walk.position.ahead x member)]
    exact walk.ahead x (List.mem_cons_of_mem node member)
  · intro x member
    exact walk.makers x (List.mem_cons_of_mem node member)
  · intro exact
    rcases walk.traded (matchFill_exact_before exact) with ⟨fills, made, sided, whole⟩
    have tradedExact := matchFill_exact exact
    have left : (st.takerAfter now rule maker (minLeft st.taker maker)).left.value =
        st.taker.left.value - min st.taker.left.value maker.left.value := by
      have taken := (fillTaker_exact (fillMaker_exact tradedExact).1).2
      rw [spends, LoopState.fill, makeFill_amount, value] at taken
      unfold LoopState.takerAfter Order.record
      rw [spends, LoopState.fill, makeFill_amount]
      exact taken
    have wants : st.taker.left.value ≠ 0 := (walk.taker.pos meets.unfinished).ne'
    have acceptable : accepts maker = true := by
      have goes := meets.acceptable
      rw [stops walk.terms sane.priceFinite] at goes
      simpa using goes
    have next : tradesAhead rule accepts start st.taker.left.value (node :: rest) =
        (st.fill rule maker (minLeft st.taker maker)).trade ::
          tradesAhead rule accepts start
            (st.takerAfter now rule maker (minLeft st.taker maker)).left.value rest := by
      unfold tradesAhead
      rw [List.filterMap_cons_some found, Auction.trades_accept wants acceptable, List.map_cons,
        left]
      congr 1
      unfold LoopState.fill makeFill Fill.trade makeTrade
      rw [← walk.terms.id]
      cases rule.side <;> simp [value]
    refine ⟨fills ++ [st.fill rule maker (minLeft st.taker maker)], ?_, ?_, ?_⟩
    · rw [filled.fills, made, List.append_assoc]
    · intro f member
      rcases List.mem_append.mp member with earlier | here
      · exact sided f earlier
      · rw [List.mem_singleton.mp here]
        exact makeFill_takerSide
    · rw [← whole, next, List.map_append, List.append_assoc]
      rfl

/-- A loop that counts stock makes the trades of the walk over the whole list it
began with. -/
theorem execute_walk (volume : rule.volume = restVolume) (spends : rule.spends = Fill.amount)
    (stops : ∀ {taker maker}, st.taker.SameTerms taker → maker.price.isFinite →
      rule.stops taker maker = !accepts maker)
    (inv : BookInv st.market st.world.heap)
    (makers : ∀ {ref o}, st.market.Rests st.world.heap ref o → MakerSane o)
    (taker : TakerSane st.taker) (run : execute real now fuel rule st = some st')
    (exact : st'.world.ledger.exact = true) :
    ∃ fills, st'.world.fills = st.world.fills ++ fills ∧
      (∀ f ∈ fills, f.takerSide = rule.side) ∧
      fills.map Fill.trade = tradesAhead rule accepts st st.taker.left.value
        (st.market.book rule.side.opposite) := by
  have begins : Walk rule accepts st (st.market.book rule.side.opposite) st := by
    constructor
    · exact .start inv
    · exact taker
    · exact .refl _
    · intro x _
      rfl
    · intro x member maker found
      rcases inv.rests_of_mem member with ⟨o, rests, _⟩
      have same : o = maker := rests.eq found
      exact same ▸ makers rests
    · intro _
      exact ⟨[], by simp, by simp, rfl⟩
  have all := matchLoop_rule real now rule (Walk rule accepts st)
    (fun st₁ => st₁.world.ledger.exact = true → ∃ fills,
      st₁.world.fills = st.world.fills ++ fills ∧ (∀ f ∈ fills, f.takerSide = rule.side) ∧
      fills.map Fill.trade = tradesAhead rule accepts st st.taker.left.value
        (st.market.book rule.side.opposite))
    Walk.position ?_ ?_ ?_ fuel begins run
  · exact all exact
  · intro rest st₁ walk ends exact
    rcases walk.traded exact with ⟨fills, made, sided, whole⟩
    refine ⟨fills, made, sided, ?_⟩
    rw [← whole, walk.ends stops ends, List.append_nil]
  · intro node rest st₁ maker fuel w walk meets dry
    rw [volume] at dry
    cases dry
  · intro node rest st₁ maker fuel w amount walk meets chosen
    rw [volume] at chosen
    cases chosen
    exact walk.fill volume spends stops meets

end Walk

/-! ## The reference matcher -/

namespace StockLoop

variable [Libmpdec] [Settings] {loop : StockLoop} {real : Bool} {now : Time} {fuel : ℕ}
  {st : LoopState}

/-- The rule of a loop. -/
def rule : StockLoop → MatchRule
  | limitAsk => limitAskRule
  | limitBid => limitBidRule
  | marketAsk => marketAskRule

omit [Settings] in
theorem rule_side (loop : StockLoop) : loop.rule.side = loop.side := by
  cases loop <;> rfl

omit [Settings] in
theorem rule_volume (loop : StockLoop) : loop.rule.volume = restVolume := by
  cases loop <;> rfl

omit [Settings] in
theorem rule_spends (loop : StockLoop) : loop.rule.spends = Fill.amount := by
  cases loop <;> rfl

omit [Settings] in
/-- The price tests of the source are the limits on the values. -/
theorem rule_stops (loop : StockLoop) {taker maker : Order} (ft : taker.price.isFinite)
    (fm : maker.price.isFinite) : loop.rule.stops taker maker = !loop.accepts taker maker := by
  cases loop with
  | limitAsk =>
      simp [rule, limitAskRule, accepts, ← not_lt, mpdCmp_gt_zero ft fm]
  | limitBid =>
      simp [rule, limitBidRule, accepts, ← not_lt, mpdCmp_lt_zero ft fm]
  | marketAsk => rfl

theorem execute_eq (loop : StockLoop) (real : Bool) (now : Time) (fuel : ℕ) (st : LoopState) :
    loop.execute real now fuel st = MatchEngine.execute real now fuel loop.rule st := by
  cases loop <;> rfl

/-- What price-time priority means for the fills of a taker. -/
structure Priority (loop : StockLoop) (st : LoopState) (fills : List Fill) : Prop where
  /-- The fills are those of the reference matcher. -/
  reference : fills.map Fill.trade = loop.reference st.market st.world.heap st.taker
  /-- Every fill is at the price of a resting order, within the taker's limit. -/
  limits : ∀ f ∈ fills, ∃ ref maker, st.market.Rests st.world.heap ref maker ∧
    maker.side = loop.side.opposite ∧ maker.id = f.makerId ∧ f.price = maker.price ∧
    loop.accepts st.taker maker = true
  /-- An order served before a maker has traded all it had by then. -/
  served : ∀ before f after, fills = before ++ f :: after → ∀ ref maker ref' other,
    st.market.Rests st.world.heap ref maker → maker.side = loop.side.opposite →
    maker.id = f.makerId → st.market.Rests st.world.heap ref' other →
    other.side = loop.side.opposite → other.priority < maker.priority →
    ∃ g ∈ before, g.makerId = other.id ∧ g.amount.value = other.left.value
  /-- No maker is filled twice. -/
  once : (fills.map Fill.makerId).Nodup

omit [Libmpdec] [Settings] in
/-- The maker a fill found, its price and its amount are those of its trade. -/
theorem trade_maker {f : Fill} {side : Side} {taker : Order} {met : Order × ℚ}
    (sided : f.takerSide = side) (same : makeTrade side taker met = f.trade) :
    f.makerId = met.1.id ∧ f.price = met.1.price ∧ f.amount.value = met.2 := by
  unfold Fill.makerId
  rw [sided]
  cases side with
  | ask =>
      rcases Trade.mk.inj same with ⟨_, maker, price, amount⟩
      exact ⟨maker.symm, price.symm, amount.symm⟩
  | bid =>
      rcases Trade.mk.inj same with ⟨maker, _, price, amount⟩
      exact ⟨maker.symm, price.symm, amount.symm⟩

omit [Libmpdec] [Settings] in
/-- What the reference trades has price-time priority. -/
theorem Priority.of_reference {fills : List Fill} (index : IndexInv st.market st.world.heap)
    (sided : ∀ f ∈ fills, f.takerSide = loop.side)
    (reference : fills.map Fill.trade = loop.reference st.market st.world.heap st.taker) :
    loop.Priority st fills := by
  have inv := index.toBookInv
  have whole : fills.map Fill.trade = (Auction.trades (loop.accepts st.taker)
      (fun maker => maker.left.value) st.taker.left.value
      ((st.market.book loop.side.opposite).filterMap st.world.heap)).map
        (makeTrade loop.side st.taker) := by
    rw [reference, StockLoop.reference, index.queue_eq]
  have sorted := inv.orders_sorted loop.side.opposite
  have met : ((Auction.trades (loop.accepts st.taker) (fun maker => maker.left.value)
      st.taker.left.value ((st.market.book loop.side.opposite).filterMap st.world.heap)).map
        Prod.fst) <+: (st.market.book loop.side.opposite).filterMap st.world.heap :=
    Auction.trades_prefix _ _
  constructor
  · exact reference
  · intro f member
    have traded : f.trade ∈ fills.map Fill.trade := List.mem_map_of_mem member
    rw [whole] at traded
    rcases List.mem_map.mp traded with ⟨trade, found, same⟩
    rcases trade_maker (sided f member) same with ⟨maker, price, _⟩
    have queued := met.subset (List.mem_map_of_mem found)
    rcases inv.mem_orders.mp queued with ⟨ref, rests, side⟩
    exact ⟨ref, trade.1, rests, side, maker.symm, price, Auction.trades_acceptable found⟩
  · rintro before f after rfl ref maker ref' other rests side own rests' side' first
    rw [List.map_append, List.map_cons] at whole
    rcases List.map_eq_append_iff.mp whole.symm with ⟨earlier, others, split, done, later⟩
    rcases List.map_eq_cons_iff.mp later with ⟨trade, remaining, rfl, same, _⟩
    have here : f ∈ before ++ f :: after := by simp
    have traded := (trade_maker (sided f here) same).1
    have queued : trade.1 ∈ (st.market.book loop.side.opposite).filterMap st.world.heap := by
      apply met.subset
      rw [split]
      simp
    rcases inv.mem_orders.mp queued with ⟨found, rests'', side''⟩
    have sameRef := inv.unique rests rests'' (own.trans traded)
    subst sameRef
    have sameMaker : maker = trade.1 := rests.eq rests''.1
    rw [sameMaker] at first
    have used := Auction.trades_before split sorted (inv.mem_orders.mpr ⟨ref', rests', side'⟩)
      first
    have member : makeTrade loop.side st.taker (other, other.left.value) ∈
        before.map Fill.trade := done ▸ List.mem_map_of_mem used
    rcases List.mem_map.mp member with ⟨g, inside, trade'⟩
    have sidedG := sided g (List.mem_append_left _ inside)
    rcases trade_maker sidedG trade'.symm with ⟨id, _, amount⟩
    exact ⟨g, inside, id, amount⟩
  · have ids : fills.map Fill.makerId = (Auction.trades (loop.accepts st.taker)
        (fun maker => maker.left.value) st.taker.left.value
        ((st.market.book loop.side.opposite).filterMap st.world.heap)).map fun trade =>
          trade.1.id := by
      have mapped := congrArg (List.map fun t : Trade =>
        match loop.side with
        | .ask => t.bidId
        | .bid => t.askId) whole
      rw [List.map_map, List.map_map] at mapped
      convert mapped using 1
      · apply List.map_congr_left
        intro f member
        unfold Fill.makerId
        rw [sided f member]
        rfl
      · apply List.map_congr_left
        intro trade _
        simp only [Function.comp_apply, makeTrade]
        cases loop.side <;> rfl
    have distinct : (((st.market.book loop.side.opposite).filterMap st.world.heap).map
        Order.id).Nodup := by
      have nodup : ((st.market.book loop.side.opposite).filterMap st.world.heap).Nodup := by
        apply sorted.imp
        rintro a _ lt rfl
        exact lt_irrefl _ lt
      apply List.Nodup.map_on _ nodup
      intro a memberA b memberB same
      rcases inv.mem_orders.mp memberA with ⟨ref, rests, _⟩
      rcases inv.mem_orders.mp memberB with ⟨ref', rests', _⟩
      have sameRef := inv.unique rests rests' same
      subst sameRef
      exact rests.eq rests'.1
    rw [ids]
    have sub := (met.map Order.id).sublist
    rw [List.map_map] at sub
    exact distinct.sublist sub

end StockLoop

section Small

attribute [local instance] smallSettings Libmpdec.reference

def smallMarket : Market :=
  (dictFind smallBefore.markets "BTCCNY").get (by decide +kernel)

/-- A bid for eight units at a price of eleven, about to be matched. -/
def deepBid : LoopState where
  market := deepMarket
  world := deepEngine.world
  taker := newOrder 0 deepMarket deepEngine.world .limit 2 .bid (Mpd.ofInt 8) (Mpd.ofInt 11)
    (Mpd.ofScaled 1 (-3)) (Mpd.ofScaled 2 (-3)) "web"

end Small

end ViabtcServer.MatchEngine
