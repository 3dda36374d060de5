import ViabtcServer.MatchEngine.Reach

/-!
# Commands that are refused

A handler that answers with an error has changed nothing, and neither has the
operation that refused. A command that is answered otherwise takes the next id
of the operation log.
-/

namespace ViabtcServer.MatchEngine

open Decimal Container

section Refusal

variable [Libmpdec] [Settings] {e e' : Engine} {now : Time} {fuel padding : ℕ} {real : Bool}
  {ledger : Ledger} {key : BalanceKey} {amount : Mpd} {w : World} {reply : Reply}

/-! ## Refused operations -/

theorem balanceSet_refused (refused : (balanceSet ledger key amount).1 = none) :
    (balanceSet ledger key amount).2 = ledger := by
  revert refused
  unfold balanceSet
  split
  · intro _
    rfl
  · split
    · intro _
      rfl
    · split <;> nofun

theorem balanceAdd_refused (refused : (balanceAdd ledger key amount).1 = none) :
    (balanceAdd ledger key amount).2 = ledger := by
  revert refused
  unfold balanceAdd
  split
  · intro _
    rfl
  · split
    · intro _
      rfl
    · split
      · nofun
      · exact balanceSet_refused

theorem balanceSub_refused (refused : (balanceSub ledger key amount).1 = none) :
    (balanceSub ledger key amount).2 = ledger := by
  revert refused
  unfold balanceSub
  split
  · intro _
    rfl
  · split
    · intro _
      rfl
    · split
      · intro _
        rfl
      · split
        · intro _
          rfl
        · nofun

/-- The balance call of a refused update leaves the ledger alone. -/
theorem UpdateArgs.call_refused {a : UpdateArgs} (refused : (a.call ledger).1 = none) :
    (a.call ledger).2 = ledger := by
  unfold UpdateArgs.call at refused ⊢
  split at refused
  · rename_i credit
    rw [if_pos credit]
    exact balanceAdd_refused refused
  · rename_i charge
    rw [if_neg charge]
    exact balanceSub_refused refused

theorem updateUserBalance_refused {a : UpdateArgs}
    (refused : (updateUserBalance real now padding e a).1 ≠ 0) :
    (updateUserBalance real now padding e a).2 = e := by
  rcases updateUserBalance_cases real now padding e a with
    repeated | uncovered | ⟨_, _, _, _, _, _, updated⟩
  · rw [repeated]
  · rw [uncovered]
  · rw [updated] at refused
    exact absurd rfl refused

theorem LimitArgs.put_refused {a : LimitArgs} {outcome : Outcome}
    (put : a.put real now fuel w = some outcome) (refused : outcome.ret ≠ 0) :
    outcome.market = a.market ∧ outcome.world = w := by
  rcases marketPutLimitOrder_cases put with ⟨code, _, rfl⟩ | ⟨_, _, st', _, rfl⟩
  · exact ⟨rfl, rfl⟩
  · exact absurd (restOrFinish_ret real st') refused

theorem MarketArgs.put_refused {a : MarketArgs} {outcome : Outcome}
    (put : a.put real now fuel w = some outcome) (refused : outcome.ret ≠ 0) :
    outcome.market = a.market ∧ outcome.world = w := by
  rcases marketPutMarketOrder_cases put with ⟨code, _, rfl⟩ | ⟨_, _, best, st', _, _, _, _, rfl⟩
  · exact ⟨rfl, rfl⟩
  · exact absurd rfl refused

/-! ## Refused commands -/

/-- The errors the four commands answer with. -/
def refusals : List (ℕ × String) :=
  [(1, "invalid argument"), (10, "repeat update"), (11, "balance not enough"),
    (10, "balance not enough"), (11, "amount too small"), (12, "no enough trader"),
    (10, "order not found"), (11, "user not match")]

/-- One entry with the next id was added to the operation log. -/
def Logged (e e' : Engine) : Prop :=
  ∃ entry, e'.operlog = e.operlog ++ [entry] ∧ entry.id = e.operlogIdStart + 1 ∧
    e'.operlogIdStart = entry.id

/-- The reply is an error and nothing has changed, or it is none and the command
is logged. -/
def Settles (e : Engine) (reply : Reply) (e' : Engine) : Prop :=
  match reply with
  | .error code message => e' = e ∧ (code, message) ∈ refusals
  | .success => Logged e e'
  | .order _ => Logged e e'

theorem onCmdBalanceUpdate_settles (params : List Json)
    (handled : onCmdBalanceUpdate now padding e params = (reply, e')) : Settles e reply e' := by
  unfold onCmdBalanceUpdate at handled
  split at handled
  · rename_i user asset business businessId change detail
    simp only at handled
    split at handled
    · cases handled
      exact ⟨rfl, by simp [refusals]⟩
    split at handled
    · cases handled
      exact ⟨rfl, by simp [refusals]⟩
    rename_i a read
    rcases updateUserBalance_cases true now padding e a with
      repeated | uncovered | ⟨_, _, _, _, _, _, updated⟩
    · rw [repeated] at handled
      cases handled
      exact ⟨rfl, by simp [refusals]⟩
    · rw [uncovered] at handled
      cases handled
      exact ⟨rfl, by simp [refusals]⟩
    · rw [updated] at handled
      cases handled
      exact ⟨_, rfl, rfl, rfl⟩
  · cases handled
    exact ⟨rfl, by simp [refusals]⟩

theorem onCmdOrderPutLimit_settles (params : List Json)
    (handled : onCmdOrderPutLimit now fuel e params = some (reply, e')) : Settles e reply e' := by
  unfold onCmdOrderPutLimit at handled
  split at handled
  · cases handled
    exact ⟨rfl, by simp [refusals]⟩
  rename_i a read
  rcases Option.map_eq_some_iff.mp handled with ⟨outcome, put, answer⟩
  rcases marketPutLimitOrder_cases put with ⟨code, rfl | rfl, rfl⟩ | ⟨_, _, st', executed, rfl⟩
  · cases answer
    exact ⟨rfl, by simp [refusals]⟩
  · cases answer
    exact ⟨rfl, by simp [refusals]⟩
  · simp only [restOrFinish_ret, restOrFinish_info, replyInfo, if_true] at answer
    cases answer
    exact ⟨_, rfl, rfl, rfl⟩

theorem onCmdOrderPutMarket_settles (params : List Json)
    (handled : onCmdOrderPutMarket now fuel e params = some (reply, e')) : Settles e reply e' := by
  unfold onCmdOrderPutMarket at handled
  split at handled
  · cases handled
    exact ⟨rfl, by simp [refusals]⟩
  rename_i a read
  rcases Option.map_eq_some_iff.mp handled with ⟨outcome, put, answer⟩
  rcases marketPutMarketOrder_cases put with
    ⟨code, rfl | rfl | rfl, rfl⟩ | ⟨_, _, best, st', _, _, _, executed, rfl⟩
  · cases answer
    exact ⟨rfl, by simp [refusals]⟩
  · cases answer
    exact ⟨rfl, by simp [refusals]⟩
  · cases answer
    exact ⟨rfl, by simp [refusals]⟩
  · cases answer
    exact ⟨_, rfl, rfl, rfl⟩

theorem onCmdOrderCancel_settles (params : List Json)
    (handled : onCmdOrderCancel now e params = (reply, e')) : Settles e reply e' := by
  unfold onCmdOrderCancel at handled
  split at handled
  · cases handled
    exact ⟨rfl, by simp [refusals]⟩
  split at handled
  · cases handled
    exact ⟨rfl, by simp [refusals]⟩
  split at handled
  · cases handled
    exact ⟨rfl, by simp [refusals]⟩
  · cases handled
    exact ⟨_, rfl, rfl, rfl⟩

/-- A command answered with an error leaves the engine as it was, balances,
books, orders, counters, repeat table, pending log and queues; so does every
operation that refuses. Any other command appends exactly one log entry. -/
theorem refused_noop {command : Command}
    (handled : e.handle now fuel command = some (reply, e')) :
    (∀ code message, reply = .error code message → e' = e ∧ (code, message) ∈ refusals) ∧
    ((∀ code message, reply ≠ .error code message) → Logged e e') ∧
    (∀ (a : UpdateArgs) padding, (updateUserBalance true now padding e a).1 ≠ 0 →
      (updateUserBalance true now padding e a).2 = e ∧
        ((a.call e.world.ledger).1 = none → (a.call e.world.ledger).2 = e.world.ledger)) ∧
    (∀ (a : LimitArgs) outcome, a.put true now fuel e.world = some outcome → outcome.ret ≠ 0 →
      outcome.market = a.market ∧ outcome.world = e.world) ∧
    (∀ (a : MarketArgs) outcome, a.put true now fuel e.world = some outcome → outcome.ret ≠ 0 →
      outcome.market = a.market ∧ outcome.world = e.world) := by
  have settles : Settles e reply e' := by
    cases command with
    | balanceUpdate padding params =>
        exact onCmdBalanceUpdate_settles params (Option.some.inj handled)
    | orderPutLimit params => exact onCmdOrderPutLimit_settles params handled
    | orderPutMarket params => exact onCmdOrderPutMarket_settles params handled
    | orderCancel params => exact onCmdOrderCancel_settles params (Option.some.inj handled)
  constructor
  · rintro code message rfl
    exact settles
  constructor
  · intro accepted
    cases reply with
    | error code message => exact absurd rfl (accepted code message)
    | success => exact settles
    | order info => exact settles
  constructor
  · intro a padding refused
    exact ⟨updateUserBalance_refused refused, UpdateArgs.call_refused⟩
  constructor
  · intro a outcome put refused
    exact LimitArgs.put_refused put refused
  · intro a outcome put refused
    exact MarketArgs.put_refused put refused

end Refusal

section Small

attribute [local instance] smallSettings Libmpdec.reference

/-- An ask for more than its user has is refused and changes nothing. -/
theorem refused_noop_small : ∃ e', smallBefore.handle 0 10 (putLimit 2 .ask "1" "10") =
    some (.error 10 "balance not enough", e') ∧ e' = smallBefore := by
  have answered : ((smallBefore.handle 0 10 (putLimit 2 .ask "1" "10")).map Prod.fst) =
      some (.error 10 "balance not enough") := by
    decide +kernel
  rcases Option.map_eq_some_iff.mp answered with ⟨⟨reply, e'⟩, handled, same⟩
  have reply_eq : reply = .error 10 "balance not enough" := same
  rw [reply_eq] at handled
  exact ⟨e', handled, ((refused_noop handled).1 _ _ rfl).1⟩

end Small

end ViabtcServer.MatchEngine
