import ViabtcServer.Container.Feed
import ViabtcServer.MatchEngine.Conservation

/-!
# The order messages

The order messages are a feed of the open orders. An order is announced when it
comes to rest, each fill of it as a maker is an update, and one last message tells
that it is finished; a taker that never comes to rest has this message only.
-/

namespace ViabtcServer.MatchEngine

open Decimal Container

/-! ## The feed -/

/-- What `get_order_info` shows of an order: all but the frozen amount. -/
def Order.shown (o : Order) : Order :=
  { o with freeze := mpdZero }

def OrderEvent.change : OrderEvent → Change
  | .put => .put
  | .update => .update
  | .finish => .finish

/-- The notice an order message gives. -/
def Output.notice : Output → Option (Notice ℕ Order)
  | .orderMessage event order _ _ => some ⟨event.change, order.id, order.shown⟩
  | _ => none

/-- The order messages so far. -/
def World.feed (w : World) : List (Notice ℕ Order) :=
  w.out.filterMap Output.notice

/-- An open order of the market, as it is shown. -/
def Market.Shows (m : Market) (heap : Ref → Option Order) (id : ℕ) (shown : Order) : Prop :=
  ∃ ref o, m.Rests heap ref o ∧ o.id = id ∧ o.shown = shown

/-- An open order of any market. -/
def Engine.Shows (e : Engine) (id : ℕ) (shown : Order) : Prop :=
  ∃ name m, dictFind e.markets name = some m ∧ m.Shows e.world.heap id shown

section Feed

variable {w w' : World}

theorem World.feed_emit (w : World) (output : Output) :
    (w.emit true output).feed = w.feed ++ output.notice.toList := by
  change (w.out ++ [output]).filterMap _ = _
  rw [List.filterMap_append]
  cases output <;> rfl

/-- No order message is written on the way from `w` to `w'`. -/
def World.Mute (w w' : World) : Prop :=
  w'.feed = w.feed

theorem World.Mute.refl (w : World) : w.Mute w := rfl

theorem World.Mute.trans {w'' : World} (one : w.Mute w') (two : w'.Mute w'') : w.Mute w'' :=
  Eq.trans two one

theorem World.Mute.of_out (out : w'.out = w.out) : w.Mute w' :=
  congrArg (List.filterMap Output.notice) out

theorem World.emit_mute (w : World) (real : Bool) {output : Output}
    (silent : output.notice = none) : w.Mute (w.emit real output) := by
  cases real with
  | false => exact .refl w
  | true =>
      apply (w.feed_emit output).trans
      rw [silent]
      exact List.append_nil w.feed

end Feed

/-! ## Where no message is written -/

section Mute

variable [Libmpdec] {w : World} {order maker : Order} {node : Ref} {now : Time}
  {rule : MatchRule} {st : LoopState} {amount : Mpd} {f : Fill}

theorem World.observeRecord_mute (w : World) (order : Order) (side : Side) (f : Fill)
    (spent : Mpd) : w.Mute (w.observeRecord order side f spent) :=
  .of_out rfl

theorem openedWorld_mute (real : Bool) (now : Time) (rule : MatchRule) (st : LoopState)
    (maker : Order) (amount : Mpd) : st.world.Mute (openedWorld real now rule st maker amount) := by
  have opened : st.world.Mute
      { st.world.observeFill (st.fill rule maker amount) (feeRates rule.side st.taker maker) with
        dealsIdStart := (st.fill rule maker amount).dealId
        fills := st.world.fills ++ [st.fill rule maker amount] } :=
    .of_out rfl
  exact opened.trans ((World.emit_mute _ real rfl).trans (World.emit_mute _ real rfl))

theorem orderRemove_mute (real : Bool) (m : Market) (w : World) (order : Order) (ref : Ref) :
    w.Mute (orderRemove real m w order ref).2 :=
  World.emit_mute w _ rfl

variable [Settings]

theorem settle_mute (real : Bool) (conf : MarketConf) (w : World) (order : Order) (side : Side)
    (source : BalanceType) (f : Fill) (feeRate : Mpd) :
    w.Mute (settle real conf w order side source f feeRate) := by
  have discarded (w : World) (call : Option Mpd × Ledger) : w.Mute (w.discard call) := .of_out rfl
  have paid (w : World) : w.Mute (settlePays real conf w order side source f) :=
    (discarded w _).trans (World.emit_mute _ real rfl)
  have received (w : World) : w.Mute (settleReceives real conf w order side f) :=
    (discarded w _).trans (World.emit_mute _ real rfl)
  have charged (w : World) : w.Mute (settleFee real conf w order side f feeRate) := by
    unfold settleFee
    split
    · exact (discarded w _).trans (World.emit_mute _ real rfl)
    · exact .refl w
  exact ((paid w).trans (received _)).trans (charged _)

/-- Nothing is said about the maker before it is closed. -/
theorem tradedWorld_mute (real : Bool) (now : Time) (rule : MatchRule) (st : LoopState)
    (node : Ref) (maker : Order) (amount : Mpd) :
    st.world.Mute (tradedWorld real now rule st node maker amount) := by
  have taken (conf : MarketConf) (w : World) (taker : Order) (f : Fill) :
      w.Mute (fillTaker real now rule conf w taker f).2 :=
    (w.observeRecord_mute taker rule.side f (rule.spends f)).trans (settle_mute ..)
  have made (side : Side) (conf : MarketConf) (w : World) (f : Fill) :
      w.Mute (fillMaker real now side conf w node maker f) := by
    have stored : w.Mute
        (((w.observeRecord maker side f f.amount).observe (mpdSub maker.freeze (f.pays side))
          (maker.freeze.value - (f.pays side).value)).store node (makerAfter maker now side f)) :=
      .of_out rfl
    exact stored.trans (settle_mute ..)
  exact (openedWorld_mute real now rule st maker amount).trans
    ((taken _ _ _ _).trans (made _ _ _ _))

theorem orderFinish_mute (real : Bool) (m : Market) (w : World) (ref : Ref) :
    w.Mute (orderFinish real m w ref).2.2 := by
  unfold orderFinish
  split
  · exact .refl w
  · simp only
    split
    · split
      · exact .of_out rfl
      · exact World.Mute.trans (.of_out rfl) (orderRemove_mute real _ _ _ ref)
    · exact orderRemove_mute real _ w _ ref

theorem orderPut_mute (m : Market) (w : World) (order : Order) :
    w.Mute (orderPut m w order).2.2 := by
  have placed : w.Mute { w.store w.nextRef order with nextRef := w.nextRef + 1 } := .of_out rfl
  have frozen (w : World) : w.Mute (w.observeFreeze order) := by
    unfold World.observeFreeze
    cases order.side
    · exact .refl w
    · exact .of_out rfl
  simp only [orderPut]
  split
  · exact placed
  split
  · exact placed
  split
  · exact placed
  split
  · exact placed
  · exact (placed.trans (frozen _)).trans (.of_out rfl)

end Mute

/-! ## What the feed tells of one market -/

/-- The feed goes on after `old` and is in order. The orders it tells of as present
are the open ones of the market and those `beside` it; ids from `next` on have not
been used. -/
structure Told (old : List (Notice ℕ Order)) (beside : ℕ → Order → Prop) (next : ℕ) (m : Market)
    (w : World) : Prop where
  grown : old <+: w.feed
  live : ∀ {id shown}, stageOf w.feed id = some (.live shown) ↔
    beside id shown ∨ m.Shows w.heap id shown
  unseen : ∀ {id}, stageOf w.feed id = some .unseen ↔ id = 0 ∨ next ≤ id
  ordered : ∀ id, ∃ stage, stageOf w.feed id = some stage
  apart : ∀ {id shown shown'}, beside id shown → ¬ m.Shows w.heap id shown'

section Told

variable {old : List (Notice ℕ Order)} {beside : ℕ → Order → Prop} {next next' : ℕ}
  {m m' : Market} {w w' : World} {id : ℕ} {shown : Order}

/-- Silence, while no order changes. -/
theorem Told.mute (told : Told old beside next m w) (mute : w.Mute w') (heap : w'.heap = w.heap) :
    Told old beside next m w' where
  grown := by
    rw [mute]
    exact told.grown
  live := by
    rw [mute, heap]
    exact told.live
  unseen := by
    rw [mute]
    exact told.unseen
  ordered := by
    rw [mute]
    exact told.ordered
  apart := by
    rw [heap]
    exact told.apart

/-- One message, and what becomes of the order it is about. -/
theorem Told.write {notice : Notice ℕ Order} {stage stage' : Stage Order}
    (told : Told old beside next m w) (feed : w'.feed = w.feed ++ [notice])
    (reached : stageOf w.feed notice.key = some stage)
    (change : stage.next notice.change notice.val = some stage')
    (alone : ∀ shown, ¬ beside notice.key shown)
    (shows_ : ∀ shown, m'.Shows w'.heap notice.key shown ↔ stage' = .live shown)
    (others : ∀ id shown, id ≠ notice.key → (m'.Shows w'.heap id shown ↔ m.Shows w.heap id shown))
    (used : ∀ id, (id = 0 ∨ next' ≤ id) ↔ (id = 0 ∨ next ≤ id) ∧ id ≠ notice.key) :
    Told old beside next' m' w' := by
  have own : stageOf w'.feed notice.key = some stage' := by
    rw [feed, stageOf_concat_self reached, change]
  have rest {id : ℕ} (differ : id ≠ notice.key) : stageOf w'.feed id = stageOf w.feed id := by
    rw [feed, stageOf_concat_other (Ne.symm differ)]
  constructor
  · rw [feed]
    exact told.grown.trans (List.prefix_append _ _)
  · intro id shown
    by_cases same : id = notice.key
    · subst same
      rw [own, Option.some.injEq, shows_]
      constructor
      · exact Or.inr
      · rintro (other | live)
        · exact absurd other (alone shown)
        · exact live
    · rw [rest same, others id shown same]
      exact told.live
  · intro id
    rw [used]
    by_cases same : id = notice.key
    · subst same
      rw [own, Option.some.injEq]
      constructor
      · rintro rfl
        cases stage <;> cases hc : notice.change <;> simp [Stage.next, hc] at change
      · exact fun holds => absurd rfl holds.2
    · rw [rest same, told.unseen]
      exact (and_iff_left same).symm
  · intro id
    by_cases same : id = notice.key
    · subst same
      exact ⟨stage', own⟩
    · rw [rest same]
      exact told.ordered id
  · intro id shown shown' other
    have differ : id ≠ notice.key := by
      rintro rfl
      exact alone shown other
    rw [others id shown' differ]
    exact told.apart other

/-! ## Orders that leave, change or come -/

/-- The open orders once one of them has left the book. -/
theorem Market.shows_erase {heap heap' : Ref → Option Order} {ref : Ref} {o : Order}
    (inv : BookInv m heap) (rests : m.Rests heap ref o)
    (book : ∀ side, m'.book side = (m.book side).erase ref)
    (same : ∀ x, x ≠ ref → heap' x = heap x) :
    m'.Shows heap' id shown ↔ id ≠ o.id ∧ m.Shows heap id shown := by
  constructor
  · rintro ⟨x, o', ⟨found, mem⟩, rfl, rfl⟩
    rw [book, inv.mem_erase] at mem
    have before : m.Rests heap x o' := ⟨(same x mem.1).symm.trans found, mem.2⟩
    refine ⟨fun twin => mem.1 (inv.unique before rests twin), x, o', before, rfl, rfl⟩
  · rintro ⟨differ, x, o', before, rfl, rfl⟩
    have other : x ≠ ref := by
      rintro rfl
      exact differ (congrArg Order.id (before.eq rests.1))
    refine ⟨x, o', ⟨(same x other).trans before.1, ?_⟩, rfl, rfl⟩
    rw [book, inv.mem_erase]
    exact ⟨other, before.2⟩

/-- The open orders once one of them has been written. -/
theorem Market.shows_store {heap heap' : Ref → Option Order} {ref : Ref} {o o' : Order}
    (inv : BookInv m heap) (rests : m.Rests heap ref o) (found : heap' ref = some o')
    (keep : o.SameKey o') (same : ∀ x, x ≠ ref → heap' x = heap x) :
    m.Shows heap' id shown ↔ (id = o.id ∧ o'.shown = shown) ∨
      (id ≠ o.id ∧ m.Shows heap id shown) := by
  constructor
  · rintro ⟨x, p, ⟨live, mem⟩, rfl, rfl⟩
    by_cases own : x = ref
    · subst own
      obtain rfl : o' = p := Option.some.inj (found.symm.trans live)
      exact Or.inl ⟨keep.id, rfl⟩
    · have before : m.Rests heap x p := ⟨(same x own).symm.trans live, mem⟩
      exact Or.inr ⟨fun twin => own (inv.unique before rests twin), x, p, before, rfl, rfl⟩
  · rintro (⟨rfl, rfl⟩ | ⟨differ, x, p, before, rfl, rfl⟩)
    · exact ⟨ref, o', ⟨found, keep.side ▸ rests.2⟩, keep.id, rfl⟩
    · have other : x ≠ ref := by
        rintro rfl
        exact differ (congrArg Order.id (before.eq rests.1))
      exact ⟨x, p, ⟨(same x other).trans before.1, before.2⟩, rfl, rfl⟩

/-- An open order has been put and not finished, and its id has been used. -/
theorem Told.reached (told : Told old beside next m w) {ref : Ref} {o : Order}
    (rests : m.Rests w.heap ref o) :
    stageOf w.feed o.id = some (.live o.shown) ∧ (∀ shown, ¬ beside o.id shown) ∧
      ¬ (o.id = 0 ∨ next ≤ o.id) := by
  have shows_ : m.Shows w.heap o.id o.shown := ⟨ref, o, rests, rfl, rfl⟩
  have live := told.live.mpr (Or.inr shows_)
  refine ⟨live, fun shown other => told.apart other shows_, fun unused => ?_⟩
  have unseen := told.unseen.mpr unused
  rw [live] at unseen
  cases unseen

/-- The last message about an order that leaves the book. -/
theorem Told.leave (told : Told old beside next m w) {ref : Ref} {o : Order}
    (inv : BookInv m w.heap) (rests : m.Rests w.heap ref o) (id_ : id = o.id)
    (feed : w'.feed = w.feed ++ [⟨.finish, id, shown⟩])
    (book : ∀ side, m'.book side = (m.book side).erase ref)
    (same : ∀ x, x ≠ ref → w'.heap x = w.heap x) : Told old beside next m' w' := by
  subst id_
  obtain ⟨live, alone, used⟩ := told.reached rests
  apply told.write feed live rfl alone
  · intro shown
    rw [Market.shows_erase inv rests book same]
    constructor
    · exact fun holds => absurd rfl holds.1
    · nofun
  · intro id shown differ
    rw [Market.shows_erase inv rests book same]
    exact and_iff_right differ
  · intro id
    constructor
    · intro unused
      refine ⟨unused, ?_⟩
      rintro rfl
      exact used unused
    · exact And.left

/-- The message about an order that has been written. -/
theorem Told.change (told : Told old beside next m w) {ref : Ref} {o o' : Order}
    (inv : BookInv m w.heap) (rests : m.Rests w.heap ref o) (found : w'.heap ref = some o')
    (keep : o.SameKey o') (feed : w'.feed = w.feed ++ [⟨.update, o'.id, o'.shown⟩])
    (same : ∀ x, x ≠ ref → w'.heap x = w.heap x) : Told old beside next m w' := by
  obtain ⟨live, alone, used⟩ := told.reached rests
  rw [keep.id] at feed
  apply told.write feed live rfl alone
  · intro shown
    rw [Market.shows_store inv rests found keep same]
    constructor
    · rintro (⟨_, rfl⟩ | ⟨differ, _⟩)
      · rfl
      · exact absurd rfl differ
    · intro stage
      cases stage
      exact Or.inl ⟨rfl, rfl⟩
  · intro id shown differ
    rw [Market.shows_store inv rests found keep same]
    constructor
    · rintro (⟨same, _⟩ | ⟨_, before⟩)
      · exact absurd same differ
      · exact before
    · exact fun before => Or.inr ⟨differ, before⟩
  · intro id
    constructor
    · intro unused
      refine ⟨unused, ?_⟩
      rintro rfl
      exact used unused
    · exact And.left

/-- Of the id to be used next nothing has been said. -/
theorem Told.fresh (told : Told old beside next m w) (pos : 0 < next) :
    stageOf w.feed next = some .unseen ∧ (∀ shown, ¬ beside next shown) ∧
      (∀ shown, ¬ m.Shows w.heap next shown) ∧
      ∀ id, (id = 0 ∨ next + 1 ≤ id) ↔ (id = 0 ∨ next ≤ id) ∧ id ≠ next := by
  have unseen := told.unseen.mpr (Or.inr le_rfl)
  have absent {shown : Order} (present : beside next shown ∨ m.Shows w.heap next shown) :
      False := by
    have live := told.live.mpr present
    rw [unseen] at live
    cases live
  refine ⟨unseen, fun shown other => absent (Or.inl other), fun shown own => absent (Or.inr own),
    fun id => ?_⟩
  omega

/-- The only message about a taker that does not come to rest. -/
theorem Told.pass (told : Told old beside next m w) (pos : 0 < next)
    (feed : w'.feed = w.feed ++ [⟨.finish, next, shown⟩]) (heap : w'.heap = w.heap) :
    Told old beside (next + 1) m w' := by
  obtain ⟨unseen, alone, absent, used⟩ := told.fresh pos
  apply told.write feed unseen rfl alone
  · intro shown
    rw [heap]
    constructor
    · exact fun present => absurd present (absent shown)
    · nofun
  · intro id shown _
    rw [heap]
  · exact used

/-- The first message about an order that comes to rest. -/
theorem Told.rest (told : Told old beside next m w) (pos : 0 < next)
    (feed : w'.feed = w.feed ++ [⟨.put, next, shown⟩])
    (shows_ : ∀ {id shown'}, m'.Shows w'.heap id shown' ↔
      (id = next ∧ shown' = shown) ∨ m.Shows w.heap id shown') :
    Told old beside (next + 1) m' w' := by
  obtain ⟨unseen, alone, absent, used⟩ := told.fresh pos
  apply told.write feed unseen rfl alone
  · intro shown'
    rw [shows_]
    constructor
    · rintro (⟨_, rfl⟩ | present)
      · rfl
      · exact absurd present (absent shown')
    · intro stage
      cases stage
      exact Or.inl ⟨rfl, rfl⟩
  · intro id shown' differ
    rw [shows_]
    constructor
    · rintro (⟨same, _⟩ | present)
      · exact absurd same differ
      · exact present
    · exact Or.inr
  · exact used

end Told

/-! ## Orders -/

section Orders

variable [Libmpdec] [Settings] {old : List (Notice ℕ Order)} {beside : ℕ → Order → Prop}
  {next : ℕ} {m : Market} {w : World} {rule : MatchRule} {st st' : LoopState} {node : Ref}
  {maker : Order} {amount : Mpd} {now : Time}
  {fuel : ℕ}

/-- A fill tells what has become of the maker. -/
theorem Told.fill (told : Told old beside next st.market st.world)
    (inv : BookInv st.market st.world.heap) (rests : st.market.Rests st.world.heap node maker)
    (now : Time) (rule : MatchRule) (amount : Mpd) :
    Told old beside next (matchFill true now rule st node maker amount).market
      (matchFill true now rule st node maker amount).world := by
  have filled := matchFill_filled true now rule amount inv rests
  have keep := st.sameKey_makerAfter now rule maker amount
  have traded := tradedWorld_mute true now rule st node maker amount
  have closed : (matchFill true now rule st node maker amount).world =
      (closeMaker true st.market (tradedWorld true now rule st node maker amount) node
        (st.makerAfter now rule maker amount)).2 := rfl
  rcases filled.book with ⟨spent, erased⟩ | ⟨left, market, stored⟩
  · have feed : (matchFill true now rule st node maker amount).world.feed = st.world.feed ++
        [⟨.finish, (st.makerAfter now rule maker amount).id,
          (st.makerAfter now rule maker amount).shown⟩] := by
      rw [closed, closeMaker]
      simp only [if_pos spent]
      rw [orderFinish_mute, World.feed_emit, traded]
      rfl
    exact told.leave inv rests keep.id feed erased filled.heap
  · rw [market]
    refine told.change inv rests stored keep ?_ filled.heap
    rw [closed, closeMaker]
    simp only [if_neg left]
    rw [World.feed_emit, traded]
    rfl

theorem execute_told (sane : rule.Sane) (told : Told old beside next st.market st.world)
    (inv : BookInv st.market st.world.heap) (run : execute true now fuel rule st = some st') :
    Told old beside next st'.market st'.world := by
  apply matchLoop_rule true now rule
    (fun rest st₁ => At rule rest st₁ ∧ Told old beside next st₁.market st₁.world)
    (fun st₁ => Told old beside next st₁.market st₁.world)
    (fun holds => holds.1) (fun holds _ => holds.2) _ _ fuel ⟨.start inv, told⟩ run
  · intro node rest st₁ maker fuel w holds _ chosen
    have observed := sane.observes chosen
    exact holds.2.mute (.of_out observed.out) observed.heap
  · intro node rest st₁ maker fuel w amount holds meets chosen
    have observed := sane.observes chosen
    have positioned := holds.1.world observed.toSameOrders
    have rests : Market.Rests st₁.market w.heap node maker := observed.heap.symm ▸ meets.rests
    have before : Told old beside next st₁.market w :=
      holds.2.mute (.of_out observed.out) observed.heap
    have filled : Told old beside next (matchFill true now rule { st₁ with world := w } node maker
        amount).market (matchFill true now rule { st₁ with world := w } node maker amount).world :=
      Told.fill before positioned.inv rests now rule amount
    exact ⟨(holds.1.fill true now amount meets observed).2, filled⟩

/-- The rest of a limit order is put, a limit order served in full is finished. -/
theorem Told.restOrFinish (told : Told old beside next st.market st.world) (pos : 0 < next)
    (taker : st.taker.id = next) (index : IndexInv st.market st.world.heap)
    (limit : st.taker.type = .limit) (finite : st.taker.price.isFinite)
    (unused : ∀ side, st.world.nextRef ∉ st.market.book side) :
    Told old beside (next + 1) (restOrFinish true st).market (restOrFinish true st).world := by
  unfold MatchEngine.restOrFinish
  simp only
  split
  · apply told.pass pos
    · rw [World.feed_emit, World.emit_mute _ true rfl, ← taker]
      rfl
    · rw [World.emit_heap, World.emit_heap]
  · have heap := st.world.emit_heap true
      (.orderMessage .put st.taker st.market.stock st.market.money)
    have counters := st.world.emit_sameOrders true
      (.orderMessage .put st.taker st.market.stock st.market.money)
    have fed := st.world.feed_emit
      (.orderMessage .put st.taker st.market.stock st.market.money)
    generalize st.world.emit true
      (.orderMessage .put st.taker st.market.stock st.market.money) = w at heap counters fed
    have fresh : ∀ {x o}, st.market.Rests w.heap x o → o.id ≠ st.taker.id := by
      intro x o rests same
      rw [heap] at rests
      exact (told.fresh pos).2.2.1 o.shown ⟨x, o, rests, same.trans taker, rfl⟩
    have free : ∀ side, w.nextRef ∉ st.market.book side := by
      rw [counters.nextRef]
      exact unused
    obtain ⟨m', put, adds, _⟩ := orderPut_spec (heap.symm ▸ index) limit finite free fresh
    have mute := orderPut_mute st.market w st.taker
    rw [put] at mute ⊢
    have found : (w.place st.taker).heap w.nextRef = some st.taker.placed := by
      rw [World.place_heap, Function.update_self]
    apply told.rest pos
    · rw [mute, fed, ← taker]
      rfl
    · intro id shown'
      have same {x : Ref} {o : Order} (differ : x ≠ w.nextRef) :
          (w.place st.taker).heap x = some o ↔ st.world.heap x = some o := by
        rw [World.place_heap, Function.update_of_ne differ, heap]
      constructor
      · rintro ⟨x, o, rests, rfl, rfl⟩
        rcases (adds.rests found).mp rests with ⟨rfl, rfl⟩ | ⟨live, mem⟩
        · exact Or.inl ⟨taker, rfl⟩
        · have differ : x ≠ w.nextRef := fun eq => free _ (eq ▸ mem)
          exact Or.inr ⟨x, o, ⟨(same differ).mp live, mem⟩, rfl, rfl⟩
      · rintro (⟨rfl, rfl⟩ | ⟨x, o, ⟨live, mem⟩, rfl, rfl⟩)
        · exact ⟨w.nextRef, st.taker.placed, (adds.rests found).mpr (Or.inl ⟨rfl, rfl⟩), taker,
            rfl⟩
        · have differ : x ≠ w.nextRef := fun eq => free _ (eq ▸ mem)
          exact ⟨x, o, (adds.rests found).mpr (Or.inr ⟨(same differ).mpr live, mem⟩), rfl, rfl⟩

omit [Libmpdec] [Settings] in
/-- A market order never rests. -/
theorem Told.finishMarket (told : Told old beside next st.market st.world) (pos : 0 < next)
    (taker : st.taker.id = next) :
    Told old beside (next + 1) (finishMarket true st).market (finishMarket true st).world := by
  apply told.pass pos
  · unfold MatchEngine.finishMarket
    simp only
    rw [World.feed_emit, World.emit_mute _ true rfl, ← taker]
    rfl
  · unfold MatchEngine.finishMarket
    simp only
    rw [World.emit_heap, World.emit_heap]

/-- A cancelled order is finished before it leaves the book. -/
theorem Told.cancel (told : Told old beside next m w) (inv : BookInv m w.heap) {ref : Ref}
    {order : Order} (rests : m.Rests w.heap ref order) :
    Told old beside next (marketCancelOrder true m w ref order).market
      (marketCancelOrder true m w ref order).world := by
  have heap := w.emit_heap true (.orderMessage .finish order m.stock m.money)
  have finished := orderFinish_finished true (heap.symm ▸ inv) (heap.symm ▸ rests)
  have feed : (marketCancelOrder true m w ref order).world.feed =
      w.feed ++ [⟨.finish, order.id, order.shown⟩] := by
    unfold marketCancelOrder
    simp only
    rw [orderFinish_mute, World.feed_emit]
    rfl
  apply told.leave inv rests rfl feed finished.book
  intro x differ
  exact (finished.heap x differ).trans (congrFun heap x)

end Orders

end ViabtcServer.MatchEngine
