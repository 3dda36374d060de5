import ViabtcServer.MatchEngine.Supply

/-!
# The arithmetic of the engine

Live runs in which no deposit lifts the supply of an asset to half of what the
context can hold, and no ask is worth as much. In them no addition, subtraction
or multiplication rounds, and every total that is written is the true one.
-/

namespace ViabtcServer.MatchEngine

open Decimal Container

/-! ## Live runs -/

section Live

variable [Libmpdec] [Settings]

/-- A live step: a command that meets a condition, or the timer that forgets old
updates. -/
inductive LiveStep (cond : Engine → Command → Prop) : Engine → Engine → Prop
  | command {e e' : Engine} {now : Time} {fuel : ℕ} {command : Command} {reply : Reply}
      (met : cond e command) (run : e.handle now fuel command = some (reply, e')) :
      LiveStep cond e e'
  | timer (e : Engine) (now : Time) : LiveStep cond e (updateOnTimer now e)

/-- Any number of live steps. -/
abbrev LiveRun (cond : Engine → Command → Prop) : Engine → Engine → Prop :=
  Relation.ReflTransGen (LiveStep cond)

/-- Handle commands one after the other while they meet a condition and return. -/
def Engine.handleWhile (cond : Engine → Command → Prop) [∀ e command, Decidable (cond e command)]
    (now : Time) (fuel : ℕ) (e : Engine) : List Command → Option Engine
  | [] => some e
  | command :: rest =>
      if cond e command then
        match e.handle now fuel command with
        | none => none
        | some (_, e') => e'.handleWhile cond now fuel rest
      else none

theorem Engine.handleWhile_run {cond : Engine → Command → Prop}
    [∀ e command, Decidable (cond e command)] {now : Time} {fuel : ℕ} {e' : Engine}
    {commands : List Command} : ∀ {e : Engine},
      e.handleWhile cond now fuel commands = some e' → LiveRun cond e e' := by
  induction commands with
  | nil =>
      intro e handled
      obtain rfl := Option.some.inj handled
      exact .refl
  | cons command rest ih =>
      intro e handled
      unfold Engine.handleWhile at handled
      split at handled
      · rename_i met
        split at handled
        · cases handled
        rename_i reply next run
        exact .head (.command met run) (ih handled)
      · cases handled

theorem LiveRun.mono {cond cond' : Engine → Command → Prop} {e e' : Engine}
    (weaker : ∀ e command, cond e command → cond' e command) (run : LiveRun cond e e') :
    LiveRun cond' e e' := by
  refine Relation.ReflTransGen.mono ?_ e e' run
  intro e e' step
  cases step with
  | command met run => exact .command (weaker _ _ met) run
  | timer now => exact .timer _ now

end Live

/-! ## The digits of an asset -/

section Digits

variable [Settings] {conf : MarketConf}

/-- The digits an asset is computed with: those it is stored with, and those of
the fee of an ask where it is the money of a market. -/
def workingDigits (asset : String) : ℤ :=
  Settings.markets.foldr (fun conf digits =>
    if conf.money = asset then max (conf.stockPrec + conf.moneyPrec + conf.feePrec) digits
    else digits) (assetPrec asset)

theorem assetPrec_le_workingDigits (asset : String) : assetPrec asset ≤ workingDigits asset := by
  unfold workingDigits
  induction (Settings.markets : List MarketConf) with
  | nil => exact le_rfl
  | cons conf rest ih =>
      rw [List.foldr_cons]
      split
      · exact ih.trans (le_max_right _ _)
      · exact ih

theorem fee_le_workingDigits (configured : conf ∈ (Settings.markets : List MarketConf)) :
    conf.stockPrec + conf.moneyPrec + conf.feePrec ≤ workingDigits conf.money := by
  unfold workingDigits
  generalize (Settings.markets : List MarketConf) = confs at configured ⊢
  induction confs with
  | nil => cases configured
  | cons first rest ih =>
      rw [List.foldr_cons]
      rcases List.mem_cons.mp configured with rfl | later
      · rw [if_pos rfl]
        exact le_max_left _ _
      · split
        · exact (ih later).trans (le_max_right _ _)
        · exact ih later

theorem covers_of_configured (configured : conf ∈ (Settings.markets : List MarketConf)) :
    Covers workingDigits conf :=
  ⟨assetPrec_le_workingDigits _, assetPrec_le_workingDigits _, fee_le_workingDigits configured⟩

end Digits

/-! ## Commands with room -/

section Bounded

variable [Libmpdec] [Settings] {e e' : Engine} {now : Time} {fuel : ℕ} {params : List Json}
  {reply : Reply} {name : String}

/-- A deposit leaves the supply below half of what the context can hold. -/
def UpdateArgs.Bounded (e : Engine) (a : UpdateArgs) : Prop :=
  0 ≤ a.change.value →
    2 * (e.world.ledger.total a.asset + a.change.value) < capacity (workingDigits a.asset)

/-- The money of a bid has no digits behind the least exponent of the context. -/
def LimitArgs.Fine (a : LimitArgs) : Prop :=
  a.side = .bid → a.market.stockPrec + a.market.moneyPrec ≤ -mpdEtiny

/-- An ask is worth less than half of what the context can hold. -/
def LimitArgs.Bounded (a : LimitArgs) : Prop :=
  a.Fine ∧ (a.side = .ask → 2 * (a.price.value * a.amount.value) <
    capacity (a.market.stockPrec + a.market.moneyPrec + a.market.feePrec))

/-- The numbers of a command are well formed, and their magnitudes leave room. -/
def Command.Bounded (e : Engine) (command : Command) : Prop :=
  command.WellFormed e ∧
    match command with
    | .balanceUpdate _ [user, .string asset, business, businessId, change, detail] =>
        ∀ a, readUpdateArgs (assetPrecShow asset) user (.string asset) business businessId change
          detail = .ok a → a.Bounded e
    | .balanceUpdate _ _ => True
    | .orderPutLimit params =>
        ∀ a, readLimitArgs liveTooLong e.markets params = .ok a → a.Bounded
    | .orderPutMarket params =>
        ∀ a, readMarketArgs liveTooLong e.markets params = .ok a →
          a.side = .bid → a.market.toMarketConf.LeastOk
    | .orderCancel _ => True

/-- What holds between commands with room: nothing has rounded, and there is room
for what the open orders may still do. -/
structure Ample (e : Engine) : Prop where
  inv : EngineInv e
  exact : e.world.ledger.exact = true
  totals : e.world.totals = true
  supply : ∀ asset, 2 * e.world.ledger.total asset < capacity (workingDigits asset)
  covers : ∀ {name m}, dictFind e.markets name = some m → Covers workingDigits m.toMarketConf
  spare : ∀ {name m ref o}, dictFind e.markets name = some m → m.Rests e.world.heap ref o →
    o.Spare m.toMarketConf

omit [Libmpdec] in
theorem Ample.room (ample : Ample e) {m : Market} (found : dictFind e.markets name = some m) :
    Room workingDigits m e.world :=
  ⟨ample.exact, ample.covers found, fun _ => ample.supply _, ample.spare found⟩

omit [Libmpdec] in
/-- A command on one market keeps the room of all of them. -/
theorem Ample.install (ample : Ample e) {m : Market} {outcome : Outcome}
    (found : dictFind e.markets name = some m)
    (step : MarketStep (e.heldBeside name) m outcome.market e.world outcome.world)
    (kept : RoomKept m outcome.market e.world outcome.world) : Ample (e.install name outcome) where
  inv := ample.inv.install found step
  exact := kept.exact
  totals := kept.totals.trans ample.totals
  supply asset := by
    have before := ample.supply asset
    have le := kept.supply asset
    change 2 * outcome.world.ledger.total asset < _
    linarith
  covers {other n} found' := by
    by_cases same : other = name
    · subst same
      rw [Engine.install, dictFind_replace] at found'
      rw [← Option.some.inj found', step.conf]
      exact ample.covers found
    · rw [Engine.install, dictFind_replace_ne same] at found'
      exact ample.covers found'
  spare {other n ref o} found' rests := by
    by_cases same : other = name
    · subst same
      rw [Engine.install, dictFind_replace] at found'
      obtain rfl := Option.some.inj found'
      rw [step.conf]
      exact kept.spare rests
    · rw [Engine.install, dictFind_replace_ne same] at found'
      have back := ((ample.inv.market found').beside step.nextRef_le step.orderId_le
        (ample.inv.heap_beside found step same found')).2 rests
      exact ample.spare found' back

omit [Libmpdec] in
theorem Ample.of_eq (ample : Ample e) (markets : e'.markets = e.markets)
    (world : e'.world = e.world) : Ample e' where
  inv := ample.inv.of_eq markets world
  exact := world ▸ ample.exact
  totals := world ▸ ample.totals
  supply := world ▸ ample.supply
  covers found := ample.covers (markets ▸ found)
  spare found rests := ample.spare (markets ▸ found) (world ▸ rests)

/-- The balance call of an update with room rounds nothing. -/
theorem UpdateArgs.call_fits {a : UpdateArgs} (ample : Ample e) (wf : a.WellFormed)
    (digits : SigDigits mpdCtx a.change.value) (bounded : a.Bounded e) :
    (a.call e.world.ledger).2.exact = true := by
  obtain ⟨type, known, same⟩ := wf.known
  have prec := assetPrec_le_workingDigits a.asset
  have grid := wf.changeDigits.onGrid.mono (neg_le_neg prec)
  rw [same] at prec
  have finite := Libmpdec.abs_finite wf.changeFinite
  have value := mpdAbs_exact wf.changeFinite digits
  have nonneg : 0 ≤ (mpdAbs a.change).value := value ▸ abs_nonneg _
  have holds := ample.inv.sound.holds_le_total ⟨a.userId, .available, a.asset⟩
  have supply := ample.supply a.asset
  have holdsNonneg := ample.inv.sound.holds_nonneg ⟨a.userId, .available, a.asset⟩
  have sign := mpdCmp_ge_zero wf.changeFinite mpdZero_isFinite
  rw [mpdZero_value] at sign
  change e.world.ledger.holds _ ≤ e.world.ledger.total a.asset at holds
  unfold UpdateArgs.call
  split
  · rename_i credit
    have least := bounded (sign.mp credit)
    rw [abs_of_nonneg (sign.mp credit)] at value
    rw [← value] at grid least
    exact (balanceAdd_fits ample.inv.sound known prec finite nonneg grid
      (by linarith)).trans ample.exact
  · rename_i debit
    rw [abs_of_neg (not_le.mp (sign.not.mp debit))] at value
    exact (balanceSub_fits ample.inv.sound known prec finite nonneg (value ▸ grid.neg)
      (by linarith)).trans ample.exact

/-- A balance update with room keeps it. -/
theorem Ample.update {padding : ℕ} {a : UpdateArgs} {change : Json} {prec : ℤ} (ample : Ample e)
    (read : jsonDecimal prec change = .ok a.change) (wf : a.WellFormed) (bounded : a.Bounded e)
    (updated : updateUserBalance true now padding e a = (0, e')) : Ample e' := by
  obtain ⟨result, ledger, detail, call, world⟩ := updateUserBalance_written updated
  have digits := jsonDecimal_sigDigits read wf.changeFinite
  have exact := a.call_fits ample wf digits bounded
  rw [call] at exact
  obtain ⟨q, posts, same⟩ := a.call_posts wf ample.inv.sound call exact
  rw [same digits] at posts
  obtain ⟨type, known, stored⟩ := wf.known
  have precLe := assetPrec_le_workingDigits a.asset
  rw [stored] at precLe
  have supply : ∀ asset, 2 * ledger.total asset < capacity (workingDigits asset) := by
    intro asset
    have before := ample.supply asset
    rw [posts.total, assetSum_single]
    split
    · rename_i own
      obtain rfl : a.asset = asset := own
      rcases le_or_gt 0 a.change.value with credit | debit
      · exact bounded credit
      · linarith
    · rwa [add_zero]
  have nonneg := assetSum_nonneg a.asset posts.sound.accounts_nonneg
  rw [← Ledger.total_eq_assetSum] at nonneg
  have small := supply a.asset
  have row := balanceTotal_value posts.sound a.userId known precLe (by linarith)
  have kept : Kept e e' := by
    refine ample.inv.update wf updated ?_
    rw [world, World.emit_ledger, World.emit_ledger]
    exact exact
  have same : e'.markets = e.markets ∧ e'.world.heap = e.world.heap := by
    rcases updateUserBalance_cases true now padding e a with
      repeated | refused | ⟨_, _, _, _, _, _, changed⟩
    · exact absurd (repeated.symm.trans updated) (by simp)
    · exact absurd (refused.symm.trans updated) (by simp)
    · obtain ⟨_, rfl⟩ := Prod.mk.inj (changed.symm.trans updated)
      exact ⟨rfl, by rw [World.emit_heap, World.emit_heap]⟩
  refine ⟨kept.inv, ?_, ?_, ?_, ?_, ?_⟩
  · rw [world, World.emit_ledger, World.emit_ledger]
    exact exact
  · have silent (w : World) :
        w.Silent (w.emit true (.balanceMessage now a.userId a.asset a.business a.change)) :=
      w.emit_silent true (fun _ _ => rfl) fun _ => rfl
    rw [world, (silent _).totals]
    exact (World.emit_totals row).trans ample.totals
  · intro asset
    rw [world, World.emit_ledger, World.emit_ledger]
    exact supply asset
  · intro name m found
    exact ample.covers (same.1 ▸ found)
  · intro name m ref o found rests
    exact ample.spare (same.1 ▸ found) (same.2 ▸ rests)

/-- A command with room keeps it. -/
theorem handle_ample {command : Command} (ample : Ample e) (bounded : command.Bounded e)
    (run : e.handle now fuel command = some (reply, e')) : Ample e' := by
  obtain ⟨wellFormed, room⟩ := bounded
  cases command with
  | balanceUpdate padding params =>
      rcases onCmdBalanceUpdate_cases (Option.some.inj run) with
        ⟨_, rfl⟩ |
          ⟨user, business, businessId, change, detail, a, e₁, rfl, _, read, updated, _, rfl⟩
      · exact ample
      · obtain ⟨_, _, _, _, _, _, _, _, changeRead, _⟩ := readUpdateArgs_eq_ok.mp read
        exact (ample.update changeRead (wellFormed a read) (room a read) updated).of_eq rfl rfl
  | orderPutLimit params =>
      rcases onCmdOrderPutLimit_cases run with ⟨_, rfl⟩ | ⟨a, st', read, put, _, _, rfl⟩
      · exact ample
      · obtain ⟨found, terms⟩ := (wellFormed a read).terms read
        have kept := limitOrder_roomKept (ample.inv.market found) (ample.room found)
          ample.inv.sound (ample.inv.backed_beside found) (ample.inv.heldBeside_nonneg a.name)
          terms (room a read).2 (room a read).1 put
        have step := (ample.inv.limit read (wellFormed a read) put kept.exact).2.1
        exact (ample.install found step kept).of_eq rfl rfl
  | orderPutMarket params =>
      rcases onCmdOrderPutMarket_cases run with ⟨_, rfl⟩ | ⟨a, best, st', read, put, _, _, rfl⟩
      · exact ample
      · obtain ⟨found, terms⟩ := (wellFormed a read).terms read
        have kept := marketOrder_roomKept (ample.inv.market found) (ample.room found)
          ample.inv.sound (ample.inv.backed_beside found) (ample.inv.heldBeside_nonneg a.name)
          terms (room a read) put
        have step := (ample.inv.marketOrder read (wellFormed a read) put kept.exact).2.1
        exact (ample.install found step kept).of_eq rfl rfl
  | orderCancel params =>
      rcases onCmdOrderCancel_cases (Option.some.inj run) with
        ⟨_, rfl⟩ | ⟨a, ref, order, read, found, _, _, rfl⟩
      · exact ample
      · obtain ⟨_, _, _, _, market, _⟩ := readCancelArgs_eq_ok.mp read
        have marketInv := ample.inv.market market
        have kept := marketCancelOrder_roomKept true marketInv (ample.room market)
          ample.inv.sound (ample.inv.backed_beside market) (ample.inv.heldBeside_nonneg a.name)
          (marketInv.index.rests_of_get found).1
        have step := (ample.inv.cancel read found kept.exact).2.1
        exact (ample.install market step kept).of_eq rfl rfl

/-- So does a whole run. -/
theorem LiveRun.ample (run : LiveRun Command.Bounded e e') (ample : Ample e) : Ample e' := by
  induction run with
  | refl => exact ample
  | tail _ step ih =>
      cases step with
      | command bounded run => exact handle_ample ih bounded run
      | timer now => exact ih.of_eq rfl rfl

omit [Libmpdec] in
theorem engineStart_ample (start : Engine.start = some e) : Ample e := by
  have inv := (engineStart_inv start).1
  unfold Engine.start at start
  split at start
  · cases start
  rcases Option.map_eq_some_iff.mp start with ⟨markets, init, rfl⟩
  refine ⟨inv, rfl, rfl, ?_, ?_, ?_⟩
  · intro asset
    have empty : World.empty.ledger.total asset = 0 := rfl
    rw [empty, mul_zero]
    exact capacity_pos _
  · intro name m found
    rcases initTrade_created init found with ⟨conf, configured, _, created⟩
    rcases marketCreate_ok created with ⟨_, rfl⟩
    exact covers_of_configured configured
  · intro name m ref o _ rests
    exact absurd rests.1 (by simp [World.empty])

end Bounded

/-! ## The status of an asset -/

section Status

variable [Libmpdec] [Settings] {l : Ledger} {asset : String} {type : AssetType} {d : ℤ}

omit [Libmpdec] [Settings] in
/-- The true sum of the entries that are counted. -/
def entrySum (counted : BalanceKey → Bool) (entries : List ((_ : BalanceKey) × Mpd)) : ℚ :=
  (entries.map fun entry => if counted entry.1 then entry.2.value else 0).sum

omit [Settings] in
/-- The sum as a loop of additions computes it. -/
def addEntries (counted : BalanceKey → Bool) (entries : List ((_ : BalanceKey) × Mpd)) : Mpd :=
  entries.foldl (fun sum entry => if counted entry.1 then mpdAdd sum entry.2 else sum) mpdZero

/-- The entries that are counted are numbers with at most `d` digits. -/
def Countable (d : ℤ) (counted : BalanceKey → Bool) (entries : List ((_ : BalanceKey) × Mpd)) :
    Prop :=
  ∀ entry ∈ entries, counted entry.1 → entry.2.isFinite ∧ 0 ≤ entry.2.value ∧
    OnGrid (-d) entry.2.value

omit [Libmpdec] [Settings] in
theorem entrySum_append (counted : BalanceKey → Bool)
    (first second : List ((_ : BalanceKey) × Mpd)) :
    entrySum counted (first ++ second) = entrySum counted first + entrySum counted second := by
  simp [entrySum]

omit [Settings] in
/-- A sum that fits is the true one. -/
theorem addEntries_value {counted : BalanceKey → Bool} {entries : List ((_ : BalanceKey) × Mpd)}
    (countable : Countable d counted entries) (small : entrySum counted entries < capacity d) :
    (addEntries counted entries).isFinite ∧
      (addEntries counted entries).value = entrySum counted entries ∧
      0 ≤ entrySum counted entries ∧ OnGrid (-d) (entrySum counted entries) := by
  induction entries using List.reverseRecOn with
  | nil => exact ⟨mpdZero_isFinite, mpdZero_value, le_rfl, .zero _⟩
  | append_singleton before last ih =>
      have earlier : Countable d counted before := fun entry mem =>
        countable entry (List.mem_append_left _ mem)
      have own := countable last (by simp)
      rw [entrySum_append] at small ⊢
      have step : addEntries counted (before ++ [last]) =
          if counted last.1 then mpdAdd (addEntries counted before) last.2
          else addEntries counted before := by
        simp [addEntries]
      have single : entrySum counted [last] = if counted last.1 then last.2.value else 0 := by
        simp [entrySum]
      rw [step]
      rw [single] at small ⊢
      by_cases counts : counted last.1
      · simp only [if_pos counts] at small ⊢
        rcases own counts with ⟨finite, nonneg, grid⟩
        rcases ih earlier (by linarith) with ⟨sumFinite, sum, sumNonneg, sumGrid⟩
        have total := sumGrid.add grid
        refine ⟨Libmpdec.add_finite sumFinite finite, ?_, add_nonneg sumNonneg nonneg, total⟩
        rw [← sum] at total small sumNonneg ⊢
        exact mpdAdd_fits sumFinite finite (.of_nonneg total (add_nonneg sumNonneg nonneg) small)
      · simp only [if_neg counts, add_zero] at small ⊢
        exact ih earlier small

omit [Settings] in
/-- The three sums of the status are such loops. -/
theorem balanceStatus_eq (l : Ledger) (asset : String) :
    (balanceStatus l asset).total =
        addEntries (fun key => key.asset = asset) l.balances.entries ∧
      (balanceStatus l asset).available =
        addEntries (fun key => key.asset = asset ∧ key.type = .available) l.balances.entries ∧
      (balanceStatus l asset).freeze =
        addEntries (fun key => key.asset = asset ∧ key.type = .freeze) l.balances.entries := by
  have loop (part : BalanceStatus → Mpd) (counted : BalanceKey → Bool) (start : part {} = mpdZero)
      (turn : ∀ (status : BalanceStatus) (entry : (_ : BalanceKey) × Mpd),
        (if counted entry.1 then mpdAdd (part status) entry.2 else part status) =
          part (if entry.1.asset = asset then status.count entry.1.type entry.2 else status)) :
      part (balanceStatus l asset) = addEntries counted l.balances.entries := by
    have same : l.balances.entries.foldl (fun sum entry =>
        if counted entry.1 then mpdAdd sum entry.2 else sum) (part {}) =
          part (balanceStatus l asset) := List.foldl_hom part turn
    rw [start] at same
    exact same.symm
  refine ⟨loop _ _ rfl ?_, loop _ _ rfl ?_, loop _ _ rfl ?_⟩
  all_goals
    intro status entry
    cases type : entry.1.type <;> by_cases same : entry.1.asset = asset <;>
      simp [BalanceStatus.count, same]

omit [Libmpdec] [Settings] in
/-- Every asset entry counts, so part of them is at most the whole. -/
theorem entrySum_le {counted counted' : BalanceKey → Bool}
    {entries : List ((_ : BalanceKey) × Mpd)} (countable : Countable d counted' entries)
    (fewer : ∀ key, counted key → counted' key) :
    entrySum counted entries ≤ entrySum counted' entries := by
  apply List.sum_le_sum
  intro entry mem
  by_cases counts : counted entry.1
  · rw [if_pos counts, if_pos (fewer _ counts)]
  · rw [if_neg counts]
    split
    · rename_i counts'
      exact (countable entry mem counts').2.1
    · exact le_rfl

omit [Libmpdec] in
/-- What `balance_status` reports of an asset is what the ledger holds. -/
theorem balanceStatus_values [Libmpdec] (sound : l.Sound) (known : getAssetType asset = some type)
    (prec : type.precSave ≤ d) (small : l.total asset < capacity d) :
    (balanceStatus l asset).total.value = l.total asset ∧
      (balanceStatus l asset).available.value =
        entrySum (fun key => key.asset = asset ∧ key.type = .available) l.balances.entries ∧
      (balanceStatus l asset).freeze.value =
        entrySum (fun key => key.asset = asset ∧ key.type = .freeze) l.balances.entries := by
  have whole : entrySum (fun key => key.asset = asset) l.balances.entries = l.total asset := by
    simp [entrySum, Ledger.total, dictSum]
  have countable : Countable d (fun key => key.asset = asset) l.balances.entries := by
    intro entry mem same
    have found := mem_entries_iff.mp mem
    have entrySound := sound entry.1 entry.2 found
    obtain rfl : entry.1.asset = asset := by simpa using same
    have grid := sound.holds_onGrid entry.1 known
    rw [Ledger.holds_of_some found] at grid
    exact ⟨entrySound.finite, entrySound.nonneg, grid.mono (neg_le_neg prec)⟩
  have part (kind : BalanceType) :
      (addEntries (fun key => key.asset = asset ∧ key.type = kind) l.balances.entries).value =
        entrySum (fun key => key.asset = asset ∧ key.type = kind) l.balances.entries := by
    have fewer : ∀ key : BalanceKey, decide (key.asset = asset ∧ key.type = kind) = true →
        decide (key.asset = asset) = true := by
      intro key counts
      simp only [decide_eq_true_eq] at counts ⊢
      exact counts.1
    have le := entrySum_le countable fewer
    rw [whole] at le
    exact (addEntries_value (fun entry mem counts => countable entry mem (fewer _ counts))
      (le.trans_lt small)).2.1
  rw [(balanceStatus_eq l asset).1, (balanceStatus_eq l asset).2.1, (balanceStatus_eq l asset).2.2]
  refine ⟨?_, part .available, part .freeze⟩
  rw [← whole] at small ⊢
  exact (addEntries_value countable small).2.1

end Status

/-! ## Nothing rounds -/

section Result

variable [Libmpdec] [Settings]

/-- Over every live run whose commands leave room, no addition, subtraction or
multiplication of the matching loops, of `order_put` and of the balance functions
rounds, and neither do the totals written to history or reported. -/
theorem arithmetic_exact {e₀ e : Engine} (start : Engine.start = some e₀)
    (run : LiveRun Command.Bounded e₀ e) :
    e.world.ledger.exact = true ∧ e.world.totals = true ∧
      ∀ asset type, getAssetType asset = some type →
        (balanceStatus e.world.ledger asset).total.value = e.world.ledger.total asset ∧
        (balanceStatus e.world.ledger asset).available.value =
          entrySum (fun key => key.asset = asset ∧ key.type = .available)
            e.world.ledger.balances.entries ∧
        (balanceStatus e.world.ledger asset).freeze.value =
          entrySum (fun key => key.asset = asset ∧ key.type = .freeze)
            e.world.ledger.balances.entries := by
  have ample := run.ample (engineStart_ample start)
  refine ⟨ample.exact, ample.totals, ?_⟩
  intro asset type known
  have prec := assetPrec_le_workingDigits asset
  rw [assetPrec_of_some known] at prec
  have supply := ample.supply asset
  have nonneg := assetSum_nonneg asset ample.inv.sound.accounts_nonneg
  rw [← Ledger.total_eq_assetSum] at nonneg
  exact balanceStatus_values ample.inv.sound known prec (by linarith)

instance UpdateArgs.decidableBounded (e : Engine) (a : UpdateArgs) : Decidable (a.Bounded e) :=
  inferInstanceAs (Decidable (_ → _))

omit [Libmpdec] [Settings] in
instance LimitArgs.decidableFine (a : LimitArgs) : Decidable a.Fine :=
  inferInstanceAs (Decidable (_ → _))

instance LimitArgs.decidableBounded (a : LimitArgs) : Decidable a.Bounded :=
  inferInstanceAs (Decidable (_ ∧ (_ → _)))

omit [Libmpdec] [Settings] in
instance (conf : MarketConf) : Decidable conf.LeastOk :=
  decidable_of_iff
    (conf.minAmount.isFinite ∧ 0 ≤ conf.minAmount.value ∧
      FracDigits conf.stockPrec conf.minAmount.value)
    ⟨fun ⟨finite, nonneg, digits⟩ => ⟨finite, nonneg, digits⟩,
      fun ⟨finite, nonneg, digits⟩ => ⟨finite, nonneg, digits⟩⟩

instance Command.decidableBounded (e : Engine) (command : Command) :
    Decidable (command.Bounded e) :=
  match command with
  | .balanceUpdate source params => inferInstanceAs
    (Decidable ((Command.balanceUpdate source params).WellFormed e ∧ OfUpdate
      (fun user asset business businessId change detail => ∀ a,
        readUpdateArgs (assetPrecShow asset) user (.string asset) business businessId change
          detail = .ok a → a.Bounded e) params))
  | .orderPutLimit _ => inferInstanceAs (Decidable (_ ∧ ∀ _, _ → _))
  | .orderPutMarket _ => inferInstanceAs (Decidable (_ ∧ ∀ _, _ → _))
  | .orderCancel _ => inferInstanceAs (Decidable (_ ∧ True))

end Result

section Small

attribute [local instance] smallSettings Libmpdec.reference

/-- Two deposits, a resting ask and a bid that is filled in part. -/
def boundedEngine : Engine :=
  (smallStart.handleWhile Command.Bounded 0 10 [deposit 1 "BTC" "5" 1, deposit 2 "CNY" "100" 2,
    putLimit 1 .ask "2" "10", putLimit 2 .bid "3" "12"]).get (by decide +kernel)

theorem boundedEngine_run : LiveRun Command.Bounded smallStart boundedEngine :=
  Engine.handleWhile_run (Option.some_get _).symm

theorem arithmetic_exact_small : boundedEngine.world.ledger.exact = true ∧
    boundedEngine.world.totals = true := by
  obtain ⟨exact, totals, _⟩ := arithmetic_exact smallStart_eq boundedEngine_run
  exact ⟨exact, totals⟩

/-- Two deposits that together have more digits than the context. -/
def roundedEngine : Engine :=
  (smallStart.handleWhile Command.WellFormed 0 10
    [deposit 1 "BTC" "100000000000000000000000000" 1, deposit 1 "BTC" "0.00000001" 2]).get
    (by decide +kernel)

/-- The second deposit is lost. -/
theorem deposit_rounded : ¬ ∀ e, LiveRun Command.WellFormed smallStart e →
    e.world.ledger.exact = true := by
  intro exact
  have run : LiveRun Command.WellFormed smallStart roundedEngine :=
    Engine.handleWhile_run (Option.some_get _).symm
  exact absurd (exact _ run) (by decide +kernel)

end Small

end ViabtcServer.MatchEngine
