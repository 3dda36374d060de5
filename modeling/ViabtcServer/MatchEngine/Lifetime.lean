import ViabtcServer.MatchEngine.RoundTrip

/-!
# Engines over restarts

An engine is started, takes steps and is restarted, any number of times, from a
slice whose values fitted their columns. The indexes stay in step and the books
uncrossed throughout, and each such slice brings back what was dumped.
-/

namespace ViabtcServer.MatchEngine

open Decimal Container Sql

section Reaches

variable [Libmpdec] [Settings] {e₀ e e' : Engine} {name : String} {m m' : Market}

/-- The engines that come from `e₀` by steps and restarts. -/
inductive Reaches (e₀ : Engine) : Engine → Prop
  | start : Reaches e₀ e₀
  | step {e e' : Engine} : Reaches e₀ e → Step e e' → Reaches e₀ e'
  | reload {e e' : Engine} {d : SliceDb} {row : SliceRow} : Reaches e₀ e → e.Fits →
      d.Complete row.time e.slice → row.endOrderId = e.world.orderIdStart →
      e₀.loadSlice d row = some e' → Reaches e₀ e'

/-- What holds of all of them. -/
structure Sane (e₀ e : Engine) : Prop where
  inv : EngineInv e
  rooted : Rooted e₀ e
  exact : e.world.ledger.exact = true

omit [Libmpdec] in
theorem Sane.start (start : Engine.start = some e₀) : Sane e₀ e₀ where
  inv := (engineStart_inv start).1
  rooted :=
    { confs := fun _ => rfl
      positive := fun found rests =>
        absurd ⟨_, _, found, rests⟩ (Engine.fresh_start start).none }
  exact := (Engine.fresh_start start).exact

theorem Step.exact (step : Step e e') (exact : e.world.ledger.exact = true) :
    e'.world.ledger.exact = true := by
  cases step with
  | command _ _ after => exact after
  | replay _ _ after => exact after
  | timer => exact exact

theorem Sane.step (sane : Sane e₀ e) (step : Step e e') : Sane e₀ e' :=
  ⟨(step.kept sane.inv).inv, step.rooted sane.inv sane.rooted, step.exact sane.exact⟩

theorem Sane.reload {d : SliceDb} {row : SliceRow} (start : Engine.start = some e₀)
    (sane : Sane e₀ e) (fits : e.Fits) (complete : d.Complete row.time e.slice)
    (orderId : row.endOrderId = e.world.orderIdStart) (loaded : e₀.loadSlice d row = some e') :
    Sane e₀ e' := by
  rcases loadSlice_spec start sane.rooted sane.inv complete with
    ⟨_, e'', _, _, run, loads, counter⟩
  rw [loaded, Option.some.injEq] at run
  subst run
  exact ⟨loads.inv sane.inv fits.whole (by rw [counter, orderId]), loads.rooted sane.rooted,
    loads.stays_exact sane.inv fits.whole⟩

theorem Reaches.sane (start : Engine.start = some e₀) (reaches : Reaches e₀ e) : Sane e₀ e := by
  induction reaches with
  | start => exact .start start
  | step _ step ih => exact ih.step step
  | reload _ fits complete orderId loaded ih => exact ih.reload start fits complete orderId loaded

/-! ## The round trip -/

/-- A dump all of whose statements succeed, loaded into a started engine, brings
back every order in its place in every index and every balance. No balance is
there while the orders are put back, so that none of them is frozen again. -/
theorem slice_round_trip (start : Engine.start = some e₀) (reaches : Reaches e₀ e)
    (fits : e.Fits) {time : ℕ} {d d' : SliceDb} {log : List (SliceQuery × Bool)} {ret : ℤ}
    (run : Sql.Run SliceDb.exec (dumpToDb time e.slice) d log ret d') (answered : AllAnswered log) :
    e.slice.row d.nextId time ∈ d'.history ∧ ∃ loaded e',
      loadOrders d' time (e₀.resume (e.slice.row d.nextId time)) = some loaded ∧
      loaded.world.ledger.balances = ∅ ∧
      e₀.loadSlice d' (e.slice.row d.nextId time) = some e' ∧ Restored e e' := by
  have sane := reaches.sane start
  rcases (dumpToDb_run run).2.2 answered (slice_markets start sane.rooted) with
    ⟨complete, history⟩
  have recorded : d'.Complete (e.slice.row d.nextId time).time e.slice := complete
  rcases loadSlice_spec start sane.rooted sane.inv recorded with
    ⟨loaded, e', orders, empty, all, loads, _⟩
  refine ⟨?_, loaded, e', orders, empty, all, loads.restored sane.inv fits.whole⟩
  rw [history]
  simp

/-! ## The books -/

theorem LoadsSlice.uncrossed (loads : LoadsSlice e e') (inv : EngineInv e)
    (prices : ∀ {name o}, e.Resting name o → Decimal.Fits orderScale o.price.value)
    (found' : dictFind e'.markets name = some m') : m'.Uncrossed e'.world.heap := by
  rcases loads.found found' with ⟨m, found⟩
  have origin {ref : Ref} {o' : Order} (rests : m'.Rests e'.world.heap ref o') :
      ∃ ref₀ o, m.Rests e.world.heap ref₀ o ∧ o'.side = o.side ∧
        o'.price.value = o.price.value := by
    rcases (loads.resting found).mp ⟨m', ref, found', rests⟩ with
      ⟨o, ⟨n, ref₀, known, before⟩, row, stored, rfl⟩
    have fits := prices ⟨n, ref₀, known, before⟩
    rw [found] at known
    obtain rfl := Option.some.inj known
    have of := orderRow_of stored
    exact ⟨ref₀, o, before, of.side, columnDecimal_stored of.price fits
      ((inv.market found).resting before).priceDigits.onGrid⟩
  intro x y a' b' ra rb sa sb
  rcases origin ra with ⟨_, a, before, side, price⟩
  rcases origin rb with ⟨_, b, before', side', price'⟩
  rw [price, price']
  exact (inv.market found).uncrossed before before' (side ▸ sa) (side' ▸ sb)

/-- In every market every ask is priced above every bid, over all runs and
restarts; and loading a slice keeps it so as soon as the prices fit. -/
theorem books_uncrossed (start : Engine.start = some e₀) (reaches : Reaches e₀ e) :
    (∀ {name m}, dictFind e.markets name = some m → m.Uncrossed e.world.heap) ∧
    ∀ {d : SliceDb} {row : SliceRow}, d.Complete row.time e.slice →
      (∀ {name o}, e.Resting name o → Decimal.Fits orderScale o.price.value) →
      ∃ e', e₀.loadSlice d row = some e' ∧
        ∀ {name m'}, dictFind e'.markets name = some m' → m'.Uncrossed e'.world.heap := by
  have sane := reaches.sane start
  constructor
  · intro name m found
    exact (sane.inv.market found).uncrossed
  · intro d row complete prices
    rcases loadSlice_spec start sane.rooted sane.inv complete with ⟨_, e', _, _, run, loads, _⟩
    exact ⟨e', run, fun found' => loads.uncrossed sane.inv prices found'⟩

/-! ## The indexes -/

/-- No index of the market refers to the address. -/
structure Market.Unlinked (m : Market) (ref : Ref) : Prop where
  book : ∀ side, ref ∉ m.book side
  orders : ∀ id, dictFind m.orders id ≠ some ref
  userList : ∀ user, ref ∉ m.userList user

/-- `order_finish` frees an order only after no index refers to it. -/
theorem orderFinish_unlinked {w : World} {ref : Ref} {order : Order} (real : Bool)
    (index : IndexInv m w.heap) (rests : m.Rests w.heap ref order)
    (freed : (orderFinish real m w ref).2.2.heap ref = none) :
    (orderFinish real m w ref).2.1.Unlinked ref := by
  have unlinked {w' : World} (same : w'.heap = w.heap) :
      (orderRemove real (unlinkBook m w order ref) w' order ref).1.Unlinked ref := by
    rcases orderRemove_spec real index rests same with ⟨m', output, removed, _, removes, index'⟩
    rw [removed]
    have gone {o : Order} : ¬ m'.Rests (orderFree output ref).heap ref o := by
      rintro ⟨live, _⟩
      rw [orderFree_heap, Function.update_self] at live
      cases live
    constructor
    · intro side member
      rcases index'.rests_of_mem member with ⟨o, rests', _⟩
      exact gone rests'
    · intro id found
      rcases index'.orders.mp found with ⟨o, rests', _⟩
      exact gone rests'
    · intro user member
      rcases index'.users.mp member with ⟨o, rests', _⟩
      exact gone rests'
  simp only [orderFinish, rests.1] at freed ⊢
  split at freed
  · split at freed
    · rw [World.discard_heap, rests.1] at freed
      cases freed
    · rename_i held answered
      rw [if_pos held, if_neg answered]
      exact unlinked rfl
  · rename_i held
    rw [if_neg held]
    exact unlinked rfl

/-- Over all runs and restarts the id dictionary, the user lists and the books
of a market hold the same live limit orders with something left, in order; and
`order_finish` frees none of them before it is out of every index. -/
theorem indexes_in_step (start : Engine.start = some e₀) (reaches : Reaches e₀ e)
    (found : dictFind e.markets name = some m) :
    IndexInv m e.world.heap ∧
      (∀ {ref o}, m.Rests e.world.heap ref o → o.type = .limit ∧ o.left.isFinite ∧
        0 < o.left.value ∧ o.left.value ≤ o.amount.value) ∧
      ∀ {w : World} {ref order} (real : Bool), IndexInv m w.heap → m.Rests w.heap ref order →
        (orderFinish real m w ref).2.2.heap ref = none →
        (orderFinish real m w ref).2.1.Unlinked ref := by
  have market := (reaches.sane start).inv.market found
  refine ⟨market.index, ?_, fun real => orderFinish_unlinked real⟩
  intro ref o rests
  have resting := market.resting rests
  exact ⟨resting.limit, resting.leftFinite, resting.leftPos, resting.left_le⟩

/-! ## A small restart -/

theorem Reaches.of_run (run : Run e₀ e) : Reaches e₀ e := by
  induction run with
  | refl => exact .start
  | tail _ step ih => exact .step ih step

omit [Libmpdec] in
/-- Looking at what is dumped is enough. -/
theorem Engine.fits_of_slice (start : Engine.start = some e₀) (rooted : Rooted e₀ e)
    (inv : EngineInv e) (orders : ∀ o ∈ e.slice.orders, o.Fits)
    (balances : ∀ entry ∈ e.slice.balances, Decimal.Fits balanceScale entry.2.value) :
    e.Fits where
  orders resting := orders _ ((mem_slice_orders start rooted inv).mpr ⟨_, resting⟩)
  balances {key entry} found :=
    balances (key, entry) (List.mem_map.mpr ⟨⟨key, entry⟩, mem_entries_iff.mpr found, rfl⟩)

end Reaches

section Small

attribute [local instance] smallSettings Libmpdec.reference

theorem smallEngine_sane : Sane smallStart smallEngine :=
  (Reaches.of_run smallEngine_run).sane smallStart_eq

theorem smallEngine_fits : smallEngine.Fits :=
  Engine.fits_of_slice smallStart_eq smallEngine_sane.rooted smallEngine_sane.inv
    (by decide +kernel) (by decide +kernel)

/-- The dump of the small engine, all of whose statements succeed. -/
def smallDump : List (SliceQuery × Bool) × ℤ × SliceDb :=
  ((dumpToDb 100 smallEngine.slice).runAnswered SliceDb.exec .empty).get (by decide +kernel)

theorem smallDump_run :
    Sql.Run SliceDb.exec (dumpToDb 100 smallEngine.slice) .empty smallDump.1 smallDump.2.1
        smallDump.2.2 ∧ AllAnswered smallDump.1 :=
  runAnswered_run (Option.some_get _).symm

def smallRow : SliceRow :=
  smallEngine.slice.row 1 100

theorem smallDump_complete : smallDump.2.2.Complete smallRow.time smallEngine.slice :=
  ((dumpToDb_run smallDump_run.1).2.2 smallDump_run.2
    (slice_markets smallStart_eq smallEngine_sane.rooted)).1

/-- The small engine after a restart. -/
def smallAgain : Engine :=
  (smallStart.loadSlice smallDump.2.2 smallRow).get (by decide +kernel)

theorem smallAgain_reaches : Reaches smallStart smallAgain :=
  .reload (.of_run smallEngine_run) smallEngine_fits smallDump_complete rfl
    (Option.some_get _).symm

/-- The market of the restarted engine. -/
def smallBooks : Market :=
  (dictFind smallAgain.markets "BTCCNY").get (by decide +kernel)

theorem smallBooks_found : dictFind smallAgain.markets "BTCCNY" = some smallBooks :=
  (Option.some_get _).symm

theorem slice_round_trip_small : ∃ e',
    smallStart.loadSlice smallDump.2.2 smallRow = some e' ∧ Restored smallEngine e' := by
  rcases slice_round_trip smallStart_eq (.of_run smallEngine_run) smallEngine_fits smallDump_run.1
    smallDump_run.2 with ⟨_, _, e', _, _, loaded, restored⟩
  exact ⟨e', loaded, restored⟩

theorem books_uncrossed_small : smallBooks.Uncrossed smallAgain.world.heap :=
  (books_uncrossed smallStart_eq smallAgain_reaches).1 smallBooks_found

theorem indexes_in_step_small : IndexInv smallBooks smallAgain.world.heap :=
  (indexes_in_step smallStart_eq smallAgain_reaches smallBooks_found).1

end Small

end ViabtcServer.MatchEngine
