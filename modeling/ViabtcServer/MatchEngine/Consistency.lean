import ViabtcServer.MatchEngine.Arithmetic

/-!
# The ledger agrees with its history

In a live run that leaves room, and in which no fee of an ask has more digits
than its money is stored with, every row of balance history follows from the one
before it and the changes sum up to what the user owns.
-/

namespace ViabtcServer.MatchEngine

open Decimal Container Accounting

section Consistent

variable [Libmpdec] [Settings] {e e' : Engine} {user : ℕ} {asset : String}

/-- Every row carries the balance of the row before it plus its change, and all
changes together are the total of the user. -/
def World.Consistent (w : World) : Prop :=
  ∀ user asset,
    (∀ before row after, w.statement user asset = before ++ row :: after →
      row.balance = lastBalance 0 before + row.change) ∧
    ((w.statement user asset).map Row.change).sum = (balanceTotal w.ledger user asset).value

/-- A command leaves room, and its fees fit. -/
def Command.Recorded (e : Engine) (command : Command) : Prop :=
  command.Bounded e ∧ command.FeesFit e

/-- The rows written so far lead from nothing to what each user owns. -/
def Engine.Recorded (e : Engine) : Prop :=
  ∀ user asset, Statement 0 (e.world.statement user asset) (e.world.ledger.owns user asset)

theorem handle_recorded {now : Time} {fuel : ℕ} {command : Command} {reply : Reply}
    (ample : Ample e) (recorded : e.Recorded) (fits : command.Recorded e)
    (run : e.handle now fuel command = some (reply, e')) : e'.Recorded := by
  have ample' := handle_ample ample fits.1 run
  have records := handle_records ample.inv fits.1.1 fits.2 run ample'.exact
  intro user asset
  rcases (records ample'.totals).2 user asset with ⟨new, rows, leads⟩
  rw [rows]
  exact (recorded user asset).append leads

theorem LiveRun.recorded (run : LiveRun Command.Recorded e e') (ample : Ample e)
    (recorded : e.Recorded) : Ample e' ∧ e'.Recorded := by
  induction run with
  | refl => exact ⟨ample, recorded⟩
  | tail _ step ih =>
      cases step with
      | command fits run =>
          exact ⟨handle_ample ih.1 fits.1 run, handle_recorded ih.1 ih.2 fits run⟩
      | timer now => exact ⟨ih.1.of_eq rfl rfl, ih.2⟩

/-- In an engine with room the total of a user is what it owns. -/
theorem Ample.balanceTotal (ample : Ample e) (user : ℕ) (asset : String) :
    (balanceTotal e.world.ledger user asset).value = e.world.ledger.owns user asset := by
  cases known : getAssetType asset with
  | none =>
      -- an unknown asset has no entries
      have absent (type : BalanceType) :
          dictFind e.world.ledger.balances ⟨user, type, asset⟩ = none := by
        cases found : dictFind e.world.ledger.balances ⟨user, type, asset⟩ with
        | none => rfl
        | some entry =>
            rcases (ample.inv.sound _ entry found).digits with ⟨type', known', _⟩
            rw [known] at known'
            cases known'
      unfold MatchEngine.balanceTotal Ledger.owns balanceGet
      simp only [absent, Ledger.holds_of_none, mpdZero_value, add_zero]
  | some type =>
      have prec := assetPrec_le_workingDigits asset
      rw [assetPrec_of_some known] at prec
      have supply := ample.supply asset
      have nonneg := assetSum_nonneg asset ample.inv.sound.accounts_nonneg
      rw [← Ledger.total_eq_assetSum] at nonneg
      exact balanceTotal_value ample.inv.sound user known prec (by linarith)

/-- Over every live run that leaves room and whose fees fit, no movement of a
balance goes unrecorded, is recorded twice or differs from its row. -/
theorem ledger_consistent {e₀ : Engine} (start : Engine.start = some e₀)
    (run : LiveRun Command.Recorded e₀ e) : e.world.Consistent := by
  have opening : e₀.Recorded := by
    unfold Engine.start at start
    split at start
    · cases start
    rcases Option.map_eq_some_iff.mp start with ⟨markets, _, rfl⟩
    intro user asset
    exact (add_zero 0).symm
  rcases run.recorded (engineStart_ample start) opening with ⟨ample, recorded⟩
  intro user asset
  rw [ample.balanceTotal]
  have sound := statement_iff.mp (recorded user asset)
  rwa [zero_add] at sound

end Consistent

/-! ## Fees that fit and fees that do not -/

section Decide

/-- A property of the makers on one side is checked on its book. -/
instance (m : Market) (heap : Ref → Option Order) (side : Side) (p : Order → Prop)
    [DecidablePred p] :
    Decidable (∀ ref maker, m.Rests heap ref maker → maker.side = side → p maker) :=
  decidable_of_iff (∀ ref ∈ m.book side, ∀ maker ∈ heap ref, maker.side = side → p maker) (by
    constructor
    · intro all ref maker rests same
      exact all ref (same ▸ rests.2) maker rests.1 same
    · intro all ref mem maker live same
      exact all ref maker ⟨live, same ▸ mem⟩ same)

variable [Libmpdec] [Settings]

instance (conf : MarketConf) (side : Side) (takerFee : Mpd) :
    DecidablePred (FeesFit conf side takerFee) :=
  fun _ => inferInstanceAs (Decidable (FracDigits _ _))

instance (e : Engine) (command : Command) : Decidable (command.FeesFit e) :=
  match command with
  | .balanceUpdate _ _ => inferInstanceAs (Decidable True)
  | .orderPutLimit _ => inferInstanceAs (Decidable (∀ _, _ → _))
  | .orderPutMarket _ => inferInstanceAs (Decidable (∀ _, _ → _))
  | .orderCancel _ => inferInstanceAs (Decidable True)

instance (e : Engine) (command : Command) : Decidable (command.Recorded e) :=
  inferInstanceAs (Decidable (_ ∧ _))

end Decide

section Small

attribute [local instance] smallSettings Libmpdec.reference

/-- Two deposits, a resting ask and a bid that is filled in part. -/
def recordedEngine : Engine :=
  (smallStart.handleWhile Command.Recorded 0 10 [deposit 1 "BTC" "5" 1, deposit 2 "CNY" "100" 2,
    putLimit 1 .ask "2" "10", putLimit 2 .bid "3" "12"]).get (by decide +kernel)

theorem recordedEngine_run : LiveRun Command.Recorded smallStart recordedEngine :=
  Engine.handleWhile_run (Option.some_get _).symm

theorem ledger_consistent_small : recordedEngine.world.Consistent :=
  ledger_consistent smallStart_eq recordedEngine_run

/-- A fee of nineteen digits is charged in an asset stored with sixteen. -/
def cutEngine : Engine :=
  (smallStart.handleWhile Command.WellFormed 0 10 [deposit 1 "BTC" "5" 1, deposit 2 "CNY" "100" 2,
    putLimit 1 .ask "1.00000001" "0.00000001", putLimit 2 .bid "1.00000001" "0.00000001"]).get
    (by decide +kernel)

/-- More leaves the balance than its row says. -/
theorem fee_cut : ¬ ∀ e, LiveRun Command.WellFormed smallStart e → e.world.Consistent := by
  intro consistent
  have run : LiveRun Command.WellFormed smallStart cutEngine :=
    Engine.handleWhile_run (Option.some_get _).symm
  have sum := (consistent _ run 1 "CNY").2
  exact absurd sum (by decide +kernel)

end Small

end ViabtcServer.MatchEngine
