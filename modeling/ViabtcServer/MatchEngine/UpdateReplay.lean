import ViabtcServer.Decimal.Signs
import ViabtcServer.MatchEngine.Repeat
import ViabtcServer.MatchEngine.Replay

/-!
# Replaying the updates of the log

A balance update is read with one precision when it arrives and with another when its entry
is replayed, and it is looked up in a table that forgets while the engine is running but not
during the replay. Where both precisions read one number and no update goes through twice,
the log of a run leads from any state of the run to the balances of every later one.
-/

namespace ViabtcServer.MatchEngine

open Decimal Container

section Updates

variable [Libmpdec] [Settings] {e e' e₁ e₂ : Engine} {now : Time} {fuel padding : ℕ}
  {params : List Json} {reply : Reply} {a b : UpdateArgs} {known : List UpdateArgs}
  {log : List OperLog} {bound : ℕ}

/-! ## One call on two forms of a number -/

section Calls

variable [SpecialValues] [SignedValues] {amount amount' : Mpd}

theorem balanceSet_congr (ledger : Ledger) (key : BalanceKey) (alike : amount.Alike amount')
    (sign : amount.negative = amount'.negative) :
    balanceSet ledger key amount = balanceSet ledger key amount' := by
  unfold balanceSet
  rw [alike.cmp (.refl mpdZero)]
  simp only [fun e => alike.rescale e fun _ _ => sign]

theorem balanceAdd_congr (ledger : Ledger) (key : BalanceKey) (alike : amount.Alike amount')
    (sign : amount.negative = false) (sign' : amount'.negative = false) :
    balanceAdd ledger key amount = balanceAdd ledger key amount' := by
  unfold balanceAdd
  rw [alike.cmp (.refl mpdZero), balanceSet_congr ledger key alike (sign.trans sign'.symm),
    alike.value]
  have observed (entry : Mpd) : ledger.observe (mpdAdd entry amount) (entry.value + amount'.value) =
      ledger.observe (mpdAdd entry amount') (entry.value + amount'.value) := by
    unfold Ledger.observe
    rw [((Mpd.Alike.refl entry).add alike).value]
  simp only [observed, alike.add_rescale _ _ (fun _ => sign) fun _ => sign']

omit [Settings] in
theorem Ledger.deduct_congr (ledger : Ledger) (type : AssetType) (key : BalanceKey) (entry : Mpd)
    (alike : amount.Alike amount') :
    ledger.deduct type key entry amount = ledger.deduct type key entry amount' := by
  have differences : (mpdSub entry amount).Alike (mpdSub entry amount') := alike.sub
  unfold Ledger.deduct
  simp only [Ledger.observe, differences.cmp (.refl mpdZero), differences.value, alike.value]
  by_cases zero : mpdCmp (mpdSub entry amount') mpdZero = 0
  · simp only [if_pos zero]
  · simp only [if_neg zero]
    rw [differences.rescale]
    intro finite none_
    rw [← differences.cmp (.refl mpdZero), mpdCmp_eq_zero finite rfl, mpdZero_value] at zero
    exact absurd none_ zero

theorem balanceSub_congr (ledger : Ledger) (key : BalanceKey) (alike : amount.Alike amount') :
    balanceSub ledger key amount = balanceSub ledger key amount' := by
  unfold balanceSub
  rw [alike.cmp (.refl mpdZero)]
  simp only [(Mpd.Alike.refl _).cmp alike, fun type entry =>
    Ledger.deduct_congr ledger type key entry alike]

/-- The call of an update depends on the number it is read as. -/
theorem UpdateArgs.call_congr (user : a.userId = b.userId) (asset : a.asset = b.asset)
    (alike : a.change.Alike b.change) (ledger : Ledger) : a.call ledger = b.call ledger := by
  rcases alike with same | ⟨fa, fb, value⟩
  · unfold UpdateArgs.call
    rw [user, asset, same]
  have change : a.change.Alike b.change := Or.inr ⟨fa, fb, value⟩
  unfold UpdateArgs.call
  rw [user, asset, change.cmp (.refl mpdZero), balanceSub_congr _ _ change.abs,
    balanceAdd_congr _ _ change.abs (SignedValues.abs_negative fa) (SignedValues.abs_negative fb)]

end Calls

/-! ## The state without the table -/

/-- An engine without time, output, log and what is remembered of updates. -/
def Engine.bare (e : Engine) : Engine :=
  { e.untimed with updates := ∅ }

omit [Libmpdec] [Settings] in
theorem Engine.bare_of_untimed (same : e.untimed = e'.untimed) : e.bare = e'.bare := by
  unfold Engine.bare
  rw [same]

omit [Libmpdec] [Settings] in
theorem Engine.bare_world (same : e.bare = e'.bare) :
    e.world.untimed = e'.world.untimed ∧ e.markets = e'.markets := by
  unfold Engine.bare Engine.untimed at same
  rw [Engine.mk.injEq] at same
  exact ⟨same.1, same.2.1⟩

omit [Libmpdec] [Settings] in
theorem Engine.bare_ledger (same : e.bare = e'.bare) : e.world.ledger = e'.world.ledger := by
  have ledgers := congrArg World.ledger (Engine.bare_world same).1
  exact ledgers

/-- Replaying an order does not look at the table. -/
theorem loadOper_updates (now : Time) (fuel padding : ℕ) (e : Engine) (params : List Json)
    {method : String} (order : OrderMethod method) (updates : Dict UpdateKey Time) :
    loadOper now fuel padding { e with updates := updates } method params =
      (loadOper now fuel padding e method params).map
        (Option.map fun e' => { e' with updates := updates }) := by
  rcases order with rfl | rfl | rfl
  · change loadLimitOrder now fuel _ params = (loadLimitOrder now fuel e params).map _
    unfold loadLimitOrder
    cases readLimitArgs loadTooLong e.markets params with
    | error reason => cases reason <;> rfl
    | ok a =>
        simp only [Option.map_map]
        congr 1
        funext outcome
        simp only [Function.comp_apply]
        split <;> rfl
  · change loadMarketOrder now fuel _ params = (loadMarketOrder now fuel e params).map _
    unfold loadMarketOrder
    cases readMarketArgs loadTooLong e.markets params with
    | error reason => cases reason <;> rfl
    | ok a =>
        simp only [Option.map_map]
        congr 1
        funext outcome
        simp only [Function.comp_apply]
        split <;> rfl
  · change some (loadCancelOrder _ params) = (some (loadCancelOrder e params)).map _
    unfold loadCancelOrder
    cases readCancelArgs e.markets params with
    | error reason => cases reason <;> rfl
    | ok a =>
        simp only [Option.map_some]
        cases marketGetOrder a.market e.world a.orderId with
        | none => rfl
        | some found => rfl

theorem loadOper_bare (now : Time) (fuel padding : ℕ) (e : Engine) (params : List Json)
    {method : String} (order : OrderMethod method) :
    loadOper 0 fuel padding e.bare method params =
      (loadOper now fuel padding e method params).map (Option.map Engine.bare) := by
  unfold Engine.bare
  rw [loadOper_updates _ _ _ _ _ order, loadOper_untimed now fuel padding e params order,
    Option.map_map]
  congr 1
  funext result
  cases result with
  | none => rfl
  | some e' => rfl

/-- From states that agree but for time and the table, an order is replayed with results that
agree, and the table is kept. -/
theorem loadOper_bare_congr {method : String} (order : OrderMethod method) (now' : Time)
    (padding' : ℕ) (same : e₁.bare = e₂.bare)
    (run : loadOper now fuel padding e₁ method params = some (some e')) :
    ∃ e'', loadOper now' fuel padding' e₂ method params = some (some e'') ∧
      e''.bare = e'.bare ∧ e''.updates = e₂.updates := by
  have one := loadOper_bare now fuel padding e₁ params order
  have two := loadOper_bare now' fuel padding' e₂ params order
  have free : loadOper 0 fuel padding e₁.bare method params =
      loadOper 0 fuel padding' e₁.bare method params := by
    rcases order with rfl | rfl | rfl <;> rfl
  rw [run, free, same, two] at one
  rcases Option.map_eq_some_iff.mp one with ⟨result, loaded, mapped⟩
  rcases Option.map_eq_some_iff.mp mapped with ⟨e'', rfl, agree⟩
  have kept := loadOper_updates now' fuel padding' e₂ params order e₂.updates
  have itself : { e₂ with updates := e₂.updates } = e₂ := rfl
  rw [itself, loaded] at kept
  have table := congrArg Engine.updates (Option.some.inj (Option.some.inj kept))
  exact ⟨e'', loaded, agree, table⟩

/-! ## The keys in the table -/

/-- Every key in the table is the one of a known update. -/
def Engine.Filed (e : Engine) (known : List UpdateArgs) : Prop :=
  ∀ key, dictFind e.updates key ≠ none → ∃ b ∈ known, ∃ padding, key = b.key padding

omit [Libmpdec] [Settings] in
/-- Keys that are equal are equal but for the gap. -/
theorem UpdateArgs.key_zero {padding' : ℕ} (same : a.key padding = b.key padding') :
    a.key 0 = b.key 0 := by
  unfold UpdateArgs.key updateKey at same ⊢
  rw [UpdateKey.mk.injEq] at same ⊢
  exact ⟨same.1, same.2.1, same.2.2.1, rfl, same.2.2.2.2⟩

omit [Libmpdec] [Settings] in
theorem Engine.Filed.of_eq (filed : e.Filed known) (same : e'.updates = e.updates) :
    e'.Filed known := by
  unfold Engine.Filed
  rw [same]
  exact filed

omit [Libmpdec] [Settings] in
/-- An update that goes through is known from then on. -/
theorem Engine.Filed.replace (filed : e.Filed known)
    (added : e'.updates = dictReplace e.updates (a.key padding) now) :
    e'.Filed (known ++ [a]) := by
  intro key found
  rw [added] at found
  by_cases own : key = a.key padding
  · exact ⟨a, List.mem_append_right _ List.mem_cons_self, padding, own⟩
  · rw [dictFind_replace_ne own] at found
    rcases filed key found with ⟨b, member, gap, same⟩
    exact ⟨b, List.mem_append_left _ member, gap, same⟩

omit [Libmpdec] [Settings] in
/-- An update that is not known is not in the table, whatever its gap holds. -/
theorem Engine.Filed.unknown (filed : e.Filed known) (fresh : ∀ b ∈ known, b.key 0 ≠ a.key 0)
    (padding : ℕ) : dictFind e.updates (a.key padding) = none := by
  by_contra found
  rcases filed _ found with ⟨b, member, gap, same⟩
  exact fresh b member (UpdateArgs.key_zero same).symm

omit [Libmpdec] [Settings] in
/-- The timer only forgets. -/
theorem Engine.Filed.timer (filed : e.Filed known) (now : Time) :
    (updateOnTimer now e).Filed known := by
  have forgets (expired : List (Sigma fun _ : UpdateKey => Time)) : ∀ dict : Dict UpdateKey Time,
      ∀ key, dictFind (expired.foldl (fun dict entry => dictDelete dict entry.1) dict) key ≠ none →
        dictFind dict key ≠ none := by
    induction expired with
    | nil => exact fun _ _ found => found
    | cons entry rest ih =>
        intro dict key found
        have kept := ih _ key found
        by_cases own : key = entry.1
        · rw [own, dictFind_delete] at kept
          exact absurd rfl kept
        · rwa [dictFind_delete_ne own] at kept
  intro key found
  exact filed key (forgets _ _ key found)

/-! ## One accepted update -/

/-- `load_update_balance` reads the parameters as this update. -/
def LoadsUpdate (params : List Json) (b : UpdateArgs) : Prop :=
  ∃ user business businessId change detail,
    params = [user, .string b.asset, business, businessId, change, detail] ∧
    readUpdateArgs (assetPrec b.asset) user (.string b.asset) business businessId change
      detail = .ok b

/-- An update as its entry in the log has it, with the change read anew. -/
def UpdateArgs.reread (a : UpdateArgs) (saved : Mpd) : UpdateArgs :=
  { a with
    change := saved
    detail := jsonObjectSet a.detail "id" (.integer (ofUint64 a.businessId)) }

/-- An update that is not in the table and that the ledger lets through. -/
theorem updateUserBalance_through (real : Bool) (now : Time) {result : Mpd} {ledger : Ledger}
    (unknown : dictFind e.updates (a.key padding) = none)
    (through : a.call e.world.ledger = (some result, ledger)) :
    ∃ first second, updateUserBalance real now padding e a = (0,
      { e with
        world := ({ e.world with ledger := ledger }.emit real first).emit real second
        updates := dictReplace e.updates (a.key padding) now }) := by
  have looked : updateKey padding a.userId a.asset a.business a.businessId = a.key padding := rfl
  have call : (if mpdCmp a.change mpdZero ≥ 0 then
      balanceAdd e.world.ledger ⟨a.userId, .available, a.asset⟩ (mpdAbs a.change)
    else balanceSub e.world.ledger ⟨a.userId, .available, a.asset⟩ (mpdAbs a.change)) =
      a.call e.world.ledger := rfl
  simp only [updateUserBalance]
  rw [looked, unknown, call, through]
  exact ⟨_, _, rfl⟩

/-- An entry that is read and whose update goes through. -/
theorem loadUpdateBalance_through {user : ℤ} {asset : String}
    {business businessId change detail : Json} (stored : 0 ≤ assetPrec asset)
    (read : readUpdateArgs (assetPrec asset) (.integer user) (.string asset) business businessId
      change detail = .ok a)
    (updated : updateUserBalance false now padding e a = (0, e')) :
    loadUpdateBalance now padding e
      [.integer user, .string asset, business, businessId, change, detail] = some e' := by
  unfold loadUpdateBalance
  simp only [if_neg (not_lt.mpr stored), read, updated]
  rfl

/-- An accepted update reads the same but for the change when it is replayed. -/
theorem AcceptsUpdate.loads (accepts : AcceptsUpdate params a) :
    ∃ saved, LoadsUpdate params { a with change := saved } := by
  rcases accepts with ⟨user, business, businessId, change, detail, rfl, _, read⟩
  rcases readUpdateArgs_eq_ok.mp read with
    ⟨userId, id, rfl, user', _, rfl, rfl, id', number, rfl⟩
  rcases jsonDecimal_eq_ok.mp number with ⟨text, rfl, converted⟩
  rcases Option.map_eq_some_iff.mp converted with ⟨set, conversion, _⟩
  have saved : decimal text (assetPrec a.asset) =
      some (if assetPrec a.asset ≠ 0 then mpdRescale set (-assetPrec a.asset) else set) := by
    unfold decimal
    rw [conversion, Option.map_some]
  refine ⟨if assetPrec a.asset ≠ 0 then mpdRescale set (-assetPrec a.asset) else set, _, _, _, _, _,
    rfl, readUpdateArgs_eq_ok.mpr ?_⟩
  exact ⟨userId, id, rfl, user', rfl, rfl, rfl, id', jsonDecimal_eq_ok.mpr ⟨text, rfl, saved⟩, rfl⟩

variable [SpecialValues] [SignedValues]

/-- The entry of an accepted update replays to the state the update led to, where both
precisions read one number and the table does not know the update. -/
theorem update_replayed (accepts : AcceptsUpdate params a)
    (run : onCmdBalanceUpdate now padding e params = (.success, e'))
    (stored : 0 ≤ assetPrec a.asset)
    (reading : ∀ {b}, LoadsUpdate params b → b.change.Alike a.change) :
    ∃ entry, e'.operlog = e.operlog ++ [entry] ∧ entry.id = e.operlogIdStart + 1 ∧
      e'.operlogIdStart = entry.id ∧
      ∀ (fuel : ℕ) (now' : Time) (padding' : ℕ) {e₁ : Engine}, e₁.bare = e.bare →
        dictFind e₁.updates (a.key padding') = none →
        ∃ e'', loadOper now' fuel padding' e₁ entry.method entry.params = some (some e'') ∧
          e''.bare = e'.bare ∧ e''.updates = dictReplace e₁.updates (a.key padding') now' := by
  rcases accepts.loads with ⟨saved, loads⟩
  have alike := reading loads
  rcases onCmdBalanceUpdate_cases run with
    ⟨⟨_, _, refused⟩, _⟩ | ⟨user, business, businessId, change, detail, a', e₂, params', _, read,
      changed, _, rfl⟩
  · cases refused
  rcases accepts with ⟨user', business', businessId', change', detail', rfl, _, read'⟩
  simp only [List.cons.injEq, Json.string.injEq, and_true] at params'
  rcases params' with ⟨rfl, asset, rfl, rfl, rfl, rfl⟩
  rw [← asset, read'] at read
  obtain rfl := Except.ok.inj read
  rcases updateUserBalance_cases true now padding e a with
    repeated | refused | ⟨result, ledger, first, second, _, call, updated⟩
  · cases repeated.symm.trans changed
  · cases refused.symm.trans changed
  obtain ⟨_, rfl⟩ := Prod.mk.inj (updated.symm.trans changed)
  refine ⟨⟨e.operlogIdStart + 1, now, "update_balance",
    a.logged user' business' businessId' change'⟩, rfl, rfl, rfl, ?_⟩
  intro fuel now' padding' e₁ same unknown
  -- the arguments as the loader reads them from the entry
  rcases loads with ⟨_, _, _, _, _, params', loaded⟩
  simp only [List.cons.injEq, and_true, true_and] at params'
  rcases params' with ⟨rfl, rfl, rfl, rfl, rfl⟩
  rcases readUpdateArgs_eq_ok.mp loaded with ⟨userId, id, rfl, user, _, rfl, rfl, id', number, _⟩
  have reads : readUpdateArgs (assetPrec a.asset) (.integer userId) (.string a.asset)
      (.string a.business) (.integer id) change'
      (.object (a.reread saved).detail) = .ok (a.reread saved) :=
    readUpdateArgs_eq_ok.mpr ⟨userId, id, rfl, user, rfl, rfl, rfl, id', number, rfl⟩
  have called : (a.reread saved).call e₁.world.ledger = (some result, ledger) := by
    rw [← call, Engine.bare_ledger same]
    exact UpdateArgs.call_congr (a := a.reread saved) (b := a) rfl rfl alike _
  have unknown' : dictFind e₁.updates ((a.reread saved).key padding') = none := unknown
  rcases updateUserBalance_through false now' unknown' called with ⟨first', second', replayed⟩
  rcases Engine.bare_world same with ⟨worlds, markets⟩
  refine ⟨{ e₁ with
    world := ({ e₁.world with ledger := ledger }.emit false first').emit false second'
    updates := dictReplace e₁.updates (a.key padding') now' }, ?_, ?_, rfl⟩
  · exact congrArg some (loadUpdateBalance_through stored reads replayed)
  · have put (w : World) : World.untimed { w with ledger := ledger } =
        { w.untimed with ledger := ledger } := rfl
    unfold Engine.bare Engine.untimed appendOperlog
    simp only [World.untimed_emit, put, worlds, markets]

/-! ## Runs -/

/-- An engine and, as a ghost, the updates that went through. -/
structure Audited where
  engine : Engine
  known : List UpdateArgs

omit [SpecialValues] [SignedValues] in
/-- One incident while the engine runs. `cond` tells which updates go through, by those that
did before, the parameters and what they are read as. -/
inductive Audited.Step (cond : List UpdateArgs → List Json → UpdateArgs → Prop) :
    Audited → Audited → Prop
  | order {h : Audited} {now : Time} {fuel : ℕ} {command : Command} {reply : Reply} {e' : Engine} :
      command.IsOrder → h.engine.handle now fuel command = some (reply, e') →
      Audited.Step cond h { h with engine := e' }
  | refused {h : Audited} {now : Time} {padding : ℕ} {params : List Json} {reply : Reply}
      {e' : Engine} : onCmdBalanceUpdate now padding h.engine params = (reply, e') →
      reply ≠ .success → Audited.Step cond h { h with engine := e' }
  | applied {h : Audited} {now : Time} {padding : ℕ} {params : List Json} {a : UpdateArgs}
      {e' : Engine} : AcceptsUpdate params a →
      onCmdBalanceUpdate now padding h.engine params = (.success, e') → cond h.known params a →
      Audited.Step cond h ⟨e', h.known ++ [a]⟩
  | timer {h : Audited} {now : Time} :
      Audited.Step cond h { h with engine := updateOnTimer now h.engine }

/-- A run of an engine. -/
def Audited.Run (cond : List UpdateArgs → List Json → UpdateArgs → Prop) :
    Audited → Audited → Prop :=
  Relation.ReflTransGen (Audited.Step cond)

/-- The update did not go through before, its asset is not skipped by the loader, and the
loader reads the number that was applied. -/
structure ReadsAgain (known : List UpdateArgs) (params : List Json) (a : UpdateArgs) : Prop where
  fresh : ∀ b ∈ known, b.key 0 ≠ a.key 0
  stored : 0 ≤ assetPrec a.asset
  reading : ∀ {b}, LoadsUpdate params b → b.change.Alike a.change

/-- What was logged on the way replays, at any later time, to the same balances. -/
def ReplaysTo (e e' : Engine) : Prop :=
  ∃ log bound, e'.operlog = e.operlog ++ log ∧
    ∀ fuel, bound ≤ fuel → ∀ clock padding, ∃ e'',
      (loadOperlog clock fuel padding log e.operlogIdStart e).run =
        some (some (e'.operlogIdStart, e'')) ∧
      e''.world.ledger.balances = e'.world.ledger.balances

/-- A log that leads from `e` to a state like `e'`, with the known updates in the table. -/
structure ReplaysUpdates (e e' : Engine) (known : List UpdateArgs) (log : List OperLog)
    (bound : ℕ) : Prop where
  operlog : e'.operlog = e.operlog ++ log
  sorted : log.Pairwise fun a b => a.id < b.id
  start_le : e.operlogIdStart ≤ e'.operlogIdStart
  ids : ∀ row ∈ log, e.operlogIdStart < row.id ∧ row.id ≤ e'.operlogIdStart
  load : ∀ fuel, bound ≤ fuel → ∀ clock padding, ∃ e'',
    log.foldlM (loadRow clock fuel padding) (e.operlogIdStart, e) =
        pure (e'.operlogIdStart, e'') ∧ e''.bare = e'.bare ∧ e''.Filed known

omit [SpecialValues] [SignedValues] in
theorem ReplaysUpdates.refl (filed : e.Filed known) : ReplaysUpdates e e known [] 0 where
  operlog := (List.append_nil _).symm
  sorted := .nil
  start_le := le_rfl
  ids := by simp
  load _ _ _ _ := ⟨e, rfl, rfl, filed⟩

omit [SpecialValues] [SignedValues] in
/-- A step that logs nothing and changes no more than the table. -/
theorem ReplaysUpdates.quiet (replays : ReplaysUpdates e e₁ known log bound)
    (bare : e₂.bare = e₁.bare) (same : e₂.operlog = e₁.operlog)
    (start : e₂.operlogIdStart = e₁.operlogIdStart) : ReplaysUpdates e e₂ known log bound := by
  constructor
  · rw [same, replays.operlog]
  · exact replays.sorted
  · rw [start]
    exact replays.start_le
  · rw [start]
    exact replays.ids
  · rw [start, bare]
    exact replays.load

omit [SpecialValues] [SignedValues] in
/-- A step that logs an entry which replays to the same effect. -/
theorem ReplaysUpdates.logged (replays : ReplaysUpdates e e₁ known log bound) {entry : OperLog}
    (room : ℕ) {known' : List UpdateArgs} (appended : e₂.operlog = e₁.operlog ++ [entry])
    (id : entry.id = e₁.operlogIdStart + 1) (start : e₂.operlogIdStart = entry.id)
    (replay : ∀ fuel, room ≤ fuel → ∀ (now : Time) (padding : ℕ) {e₁' : Engine},
      e₁'.bare = e₁.bare → e₁'.Filed known →
      ∃ e'', loadOper now fuel padding e₁' entry.method entry.params = some (some e'') ∧
        e''.bare = e₂.bare ∧ e''.Filed known') :
    ReplaysUpdates e e₂ known' (log ++ [entry]) (max bound room) := by
  rcases numbered_append replays.sorted replays.start_le replays.ids id with
    ⟨sorted, start_le, ids⟩
  constructor
  · rw [appended, replays.operlog, List.append_assoc]
  · exact sorted
  · rw [start]
    exact start_le
  · rw [start]
    exact ids
  · intro fuel enough clock padding
    rcases replays.load fuel ((le_max_left _ _).trans enough) clock padding with
      ⟨e₁', folded, agree, filed⟩
    rcases replay fuel ((le_max_right _ _).trans enough) (clock entry) (padding entry) agree
      filed with ⟨e'', loaded, agree', filed'⟩
    refine ⟨e'', ?_, agree', filed'⟩
    rw [start]
    exact foldlM_loadRow_append folded id loaded

omit [SpecialValues] [SignedValues] in
/-- An order command, accepted or refused. -/
theorem ReplaysUpdates.order (replays : ReplaysUpdates e e₁ known log bound) {command : Command}
    (order : command.IsOrder) (run : e₁.handle now fuel command = some (reply, e₂)) :
    ∃ log' bound', ReplaysUpdates e e₂ known log' bound' := by
  rcases order_answer order run with rfl | ⟨info, rfl⟩
  · exact ⟨log, bound, replays⟩
  rcases accepted_replayed order run with ⟨entry, appended, id, start, method, load⟩
  refine ⟨_, _, replays.logged fuel appended id start ?_⟩
  intro fuel' more now' padding' e₁' agree filed
  rcases load fuel' more now' padding' with ⟨e'', loaded, untimed⟩
  rcases loadOper_bare_congr method now' padding' agree.symm loaded with
    ⟨e₃, loaded', agree', kept⟩
  exact ⟨e₃, loaded', agree'.trans (Engine.bare_of_untimed untimed), filed.of_eq kept⟩

/-- A step of the run. -/
theorem ReplaysUpdates.step {h h' : Audited} (replays : ReplaysUpdates e h.engine h.known log bound)
    (step : Audited.Step ReadsAgain h h') :
    ∃ log' bound', ReplaysUpdates e h'.engine h'.known log' bound' := by
  cases step with
  | order order run => exact replays.order order run
  | refused run failed =>
      obtain rfl := onCmdBalanceUpdate_refused run failed
      exact ⟨log, bound, replays⟩
  | applied accepts run cond =>
      rcases update_replayed accepts run cond.stored cond.reading with
        ⟨entry, appended, id, start, load⟩
      refine ⟨_, _, replays.logged 0 appended id start ?_⟩
      intro fuel _ now' padding' e₁' agree filed
      rcases load fuel now' padding' agree (filed.unknown cond.fresh padding') with
        ⟨e'', loaded, agree', added⟩
      exact ⟨e'', loaded, agree', filed.replace added⟩
  | timer => exact ⟨log, bound, replays.quiet rfl rfl rfl⟩

theorem ReplaysUpdates.run {h h' : Audited} (filed : h.engine.Filed h.known)
    (run : Audited.Run ReadsAgain h h') :
    ∃ log bound, ReplaysUpdates h.engine h'.engine h'.known log bound := by
  induction run with
  | refl => exact ⟨[], 0, .refl filed⟩
  | tail _ step ih =>
      rcases ih with ⟨log, bound, replays⟩
      exact replays.step step

omit [SpecialValues] [SignedValues] in
/-- In a run every key in the table is the one of a known update. -/
theorem Audited.Run.filed {cond : List UpdateArgs → List Json → UpdateArgs → Prop}
    {h h' : Audited} (run : Audited.Run cond h h') (filed : h.engine.Filed h.known) :
    h'.engine.Filed h'.known := by
  induction run with
  | refl => exact filed
  | tail _ step ih =>
      cases step with
      | @order _ _ command _ e' order run =>
          apply ih.of_eq
          apply handle_updates ?_ run
          rintro padding params rfl
          exact order
      | refused run failed =>
          exact ih.of_eq (congrArg Engine.updates (onCmdBalanceUpdate_refused run failed))
      | applied accepts run _ => exact ih.replace ((accepts.handled run).2.2.1 rfl)
      | timer => exact ih.timer _

/-- In every run in which no update goes through twice, and both precisions read one number
from every change: from the state at any point of it, the log that follows replays to the
balances of every later point, however the timer has cleared the table meanwhile. -/
theorem updates_replay {h₀ h₁ h₂ : Audited} (filed : h₀.engine.Filed h₀.known)
    (before : Audited.Run ReadsAgain h₀ h₁) (after : Audited.Run ReadsAgain h₁ h₂) :
    ReplaysTo h₁.engine h₂.engine := by
  rcases ReplaysUpdates.run (before.filed filed) after with ⟨log, bound, replays⟩
  refine ⟨log, bound, replays.operlog, ?_⟩
  intro fuel enough clock padding
  rcases replays.load fuel enough clock padding with ⟨e'', folded, agree, _⟩
  rw [loadOperlog_eq_foldlM replays.sorted fun row member => (replays.ids row member).1, folded]
  exact ⟨e'', rfl, congrArg Ledger.balances (Engine.bare_ledger agree)⟩

end Updates

section Small

attribute [local instance] smallSettings Libmpdec.reference

/-- A deposit of `amount`. -/
def depositOf (amount : String) : List Json :=
  [.integer 1, .string "BTC", .string "deposit", .integer 1, .string amount, .object []]

/-- The small engine after the deposit. -/
def deposited (amount : String) : Engine :=
  (onCmdBalanceUpdate 0 0 smallStart (depositOf amount)).2

theorem smallStart_filed : smallStart.Filed [] := by
  intro key found
  have none_ : dictFind smallStart.updates key = none := rfl
  exact absurd none_ found

/-- The deposit with its change cut to eight digits. -/
def fineArgs : UpdateArgs :=
  ⟨1, "BTC", "deposit", 1, Mpd.ofScaled 12345678 (-8), []⟩

theorem fineArgs_accepted {amount : String}
    (cut : decimal amount (assetPrecShow "BTC") = some fineArgs.change) :
    AcceptsUpdate (depositOf amount) fineArgs := by
  refine ⟨_, _, _, _, _, rfl, by decide +kernel, readUpdateArgs_eq_ok.mpr ?_⟩
  exact ⟨1, 1, rfl, rfl, rfl, rfl, rfl, rfl, jsonDecimal_eq_ok.mpr ⟨amount, rfl, cut⟩, rfl⟩

/-- The ninth digit is cut off when the deposit arrives, and paid when it is replayed. -/
theorem updates_replay_not_always : ¬ ∀ {h₀ h₁ h₂ : Audited}, h₀.engine.Filed h₀.known →
    Audited.Run (fun _ _ _ => True) h₀ h₁ → Audited.Run (fun _ _ _ => True) h₁ h₂ →
      ReplaysTo h₁.engine h₂.engine := by
  intro always
  have accepts : AcceptsUpdate (depositOf "0.123456789") fineArgs :=
    fineArgs_accepted (by decide +kernel)
  have made : (onCmdBalanceUpdate 0 0 smallStart (depositOf "0.123456789")).1 = .success := by
    decide +kernel
  have run : Audited.Run (fun _ _ _ => True) ⟨smallStart, []⟩
      ⟨deposited "0.123456789", [fineArgs]⟩ :=
    .single (.applied accepts (Prod.ext made rfl) trivial)
  rcases always smallStart_filed .refl run with ⟨log, bound, appended, replays⟩
  rcases replays bound le_rfl (fun _ => 0) (fun _ => 0) with ⟨e'', loaded, balances⟩
  have start : smallStart.operlog = [] := rfl
  rw [start, List.nil_append] at appended
  have single : (deposited "0.123456789").operlog.length = 1 := by decide +kernel
  rcases List.length_eq_one_iff.mp single with ⟨row, rows⟩
  have facts : ∀ row ∈ (deposited "0.123456789").operlog, row.id = 1 ∧
      row.method = "update_balance" ∧
      (loadUpdateBalance 0 0 smallStart row.params).map
        (fun e => balanceGet e.world.ledger ⟨1, .available, "BTC"⟩) ≠
          some (balanceGet (deposited "0.123456789").world.ledger ⟨1, .available, "BTC"⟩) := by
    decide +kernel
  rcases facts row (rows ▸ List.mem_singleton_self row) with ⟨id, method, differ⟩
  rw [← appended, rows, loadOperlog_eq_foldlM (List.pairwise_singleton _ _)] at loaded
  · have ran : loadRow (fun _ => 0) bound (fun _ => 0) (smallStart.operlogIdStart, smallStart) row =
        OptionT.mk (some (loadUpdateBalance 0 0 smallStart row.params)) >>= fun e =>
          pure (row.id, e) := by
      unfold loadRow loadOper
      rw [if_neg (by rw [id]; decide), if_pos method]
    rw [List.foldlM_cons, ran] at loaded
    cases replayed : loadUpdateBalance 0 0 smallStart row.params with
    | none =>
        rw [replayed] at loaded
        cases loaded
    | some e₁ =>
        rw [replayed] at loaded differ
        obtain rfl := (Prod.mk.inj (Option.some.inj (Option.some.inj loaded))).2
        have same : balanceGet e₁.world.ledger ⟨1, .available, "BTC"⟩ =
            balanceGet (deposited "0.123456789").world.ledger ⟨1, .available, "BTC"⟩ :=
          congrArg (fun dict => dictFind dict _) balances
        exact differ (congrArg some same)
  · intro other member
    rw [List.mem_singleton.mp member, id]
    decide

/-- The number of a deposit with eight digits is read again. -/
theorem depositOf_reads : ReadsAgain [] (depositOf "0.12345678") fineArgs := by
  refine ⟨fun b member => absurd member List.not_mem_nil, by decide +kernel, ?_⟩
  rintro b ⟨user, business, businessId, change, detail, params, read⟩
  unfold depositOf at params
  simp only [List.cons.injEq, Json.string.injEq, and_true] at params
  rcases params with ⟨rfl, asset, rfl, rfl, rfl, rfl⟩
  rw [← asset] at read
  rcases readUpdateArgs_eq_ok.mp read with ⟨_, _, _, _, _, _, _, _, number, _⟩
  rcases jsonDecimal_eq_ok.mp number with ⟨text, same, converted⟩
  obtain rfl := Json.string.inj same
  have saved : decimal "0.12345678" (assetPrec "BTC") =
      some (Mpd.ofScaled 123456780000 (-12)) := by
    decide +kernel
  rw [saved] at converted
  rw [← Option.some.inj converted]
  refine Or.inr ⟨rfl, rfl, ?_⟩
  change (Mpd.ofScaled 123456780000 (-12)).value = (Mpd.ofScaled 12345678 (-8)).value
  rw [Mpd.value_ofScaled, Mpd.value_ofScaled]
  norm_num

theorem depositOf_step :
    Audited.Step ReadsAgain ⟨smallStart, []⟩ ⟨deposited "0.12345678", [fineArgs]⟩ := by
  have made : (onCmdBalanceUpdate 0 0 smallStart (depositOf "0.12345678")).1 = .success := by
    decide +kernel
  exact .applied (fineArgs_accepted (by decide +kernel)) (Prod.ext made rfl) depositOf_reads

/-! ### A longer run -/

/-- A change of a balance. -/
def changeOf (user id : ℤ) (asset business amount : String) : List Json :=
  [.integer user, .string asset, .string business, .integer id, .string amount, .object []]

def changeArgs (user id : ℤ) (asset business : String) (change : Mpd) : UpdateArgs :=
  ⟨toUint32 user, asset, business, toUint64 id, change, []⟩

/-- The history once a change has gone through. -/
def Audited.change (h : Audited) (now : Time) (user id : ℤ) (asset business amount : String)
    (change : Mpd) : Audited :=
  ⟨(onCmdBalanceUpdate now 0 h.engine (changeOf user id asset business amount)).2,
    h.known ++ [changeArgs user id asset business change]⟩

/-- The change goes through, is not known, and both precisions read its number. -/
structure Audited.Changes (h : Audited) (now : Time) (user id : ℤ) (asset business amount : String)
    (change : Mpd) : Prop where
  fresh : ∀ b ∈ h.known, b.key 0 ≠ (changeArgs user id asset business change).key 0
  shown : 0 ≤ assetPrecShow asset
  stored : 0 ≤ assetPrec asset
  finite : change.isFinite = true
  cut : decimal amount (assetPrecShow asset) = some change
  again : (decimal amount (assetPrec asset)).all fun saved =>
    saved.isFinite && decide (saved.value = change.value)
  through : (onCmdBalanceUpdate now 0 h.engine
    (changeOf user id asset business amount)).1 = .success

theorem Audited.Changes.step {h : Audited} {now : Time} {user id : ℤ}
    {asset business amount : String} {change : Mpd}
    (changes : h.Changes now user id asset business amount change) :
    Audited.Step ReadsAgain h (h.change now user id asset business amount change) := by
  have accepts : AcceptsUpdate (changeOf user id asset business amount)
      (changeArgs user id asset business change) := by
    refine ⟨_, _, _, _, _, rfl, changes.shown, readUpdateArgs_eq_ok.mpr ?_⟩
    exact ⟨user, id, rfl, rfl, rfl, rfl, rfl, rfl,
      jsonDecimal_eq_ok.mpr ⟨amount, rfl, changes.cut⟩, rfl⟩
  refine .applied accepts (Prod.ext changes.through rfl) ⟨changes.fresh, changes.stored, ?_⟩
  rintro b ⟨_, _, _, _, _, params, read⟩
  unfold changeOf at params
  simp only [List.cons.injEq, Json.string.injEq, and_true] at params
  rcases params with ⟨rfl, named, rfl, rfl, rfl, rfl⟩
  rw [← named] at read
  rcases readUpdateArgs_eq_ok.mp read with ⟨_, _, _, _, _, _, _, _, number, _⟩
  rcases jsonDecimal_eq_ok.mp number with ⟨text, same, converted⟩
  have again := changes.again
  rw [Json.string.inj same, converted] at again
  simp only [Option.all_some, Bool.and_eq_true, decide_eq_true_eq] at again
  exact Or.inr ⟨again.1, changes.finite, again.2⟩

/-- Two deposits. -/
def funded₁ : Audited :=
  Audited.change ⟨smallStart, []⟩ 0 1 1 "BTC" "deposit" "0.12345678" (Mpd.ofScaled 12345678 (-8))

def funded₂ : Audited :=
  funded₁.change 10 2 2 "CNY" "deposit" "1000" (Mpd.ofScaled 100000000000 (-8))

theorem funded_run : Audited.Run ReadsAgain ⟨smallStart, []⟩ funded₂ := by
  have first : Audited.Changes ⟨smallStart, []⟩ 0 1 1 "BTC" "deposit" "0.12345678"
      (Mpd.ofScaled 12345678 (-8)) := by
    constructor <;> decide +kernel
  have second : funded₁.Changes 10 2 2 "CNY" "deposit" "1000" (Mpd.ofScaled 100000000000 (-8)) := by
    constructor <;> decide +kernel
  exact .tail (.single first.step) second.step

/-- An ask; three days later the timer forgets both deposits. -/
def asked : Reply × Engine :=
  (funded₂.engine.handle 20 10 (putLimit 1 .ask "0.1" "10")).get (by decide +kernel)

def forgotten : Audited :=
  ⟨updateOnTimer (3 * 86400 * 1000000) asked.2, funded₂.known⟩

/-- A withdrawal, one that the balance does not cover, and a bonus. -/
def withdrawn : Audited :=
  forgotten.change (3 * 86400 * 1000000 + 1) 2 2 "CNY" "withdraw" "-50.5"
    (Mpd.ofScaled (-5050000000) (-8))

def overdrawn : Reply × Engine :=
  onCmdBalanceUpdate (3 * 86400 * 1000000 + 2) 0 withdrawn.engine
    (changeOf 2 9 "CNY" "withdraw" "-100000")

def rewarded : Audited :=
  { withdrawn with engine := overdrawn.2 }.change (3 * 86400 * 1000000 + 3) 1 2 "CNY" "bonus"
    "0.5" (Mpd.ofScaled 50000000 (-8))

theorem rewarded_run : Audited.Run ReadsAgain funded₂ rewarded := by
  have ask : Audited.Step ReadsAgain funded₂ ⟨asked.2, funded₂.known⟩ :=
    .order (show (putLimit 1 .ask "0.1" "10").IsOrder from trivial) (Option.some_get _).symm
  have withdraws : forgotten.Changes (3 * 86400 * 1000000 + 1) 2 2 "CNY" "withdraw" "-50.5"
      (Mpd.ofScaled (-5050000000) (-8)) := by
    constructor <;> decide +kernel
  have run : onCmdBalanceUpdate (3 * 86400 * 1000000 + 2) 0 withdrawn.engine
      (changeOf 2 9 "CNY" "withdraw" "-100000") = (overdrawn.1, overdrawn.2) :=
    rfl
  have refuses : Audited.Step ReadsAgain withdrawn { withdrawn with engine := overdrawn.2 } :=
    .refused run (by decide +kernel)
  have rewards : Audited.Changes { withdrawn with engine := overdrawn.2 }
      (3 * 86400 * 1000000 + 3) 1 2 "CNY" "bonus" "0.5" (Mpd.ofScaled 50000000 (-8)) := by
    constructor <;> decide +kernel
  exact .tail (.tail (.tail (.tail (.single ask) .timer) withdraws.step) refuses) rewards.step

/-- Two updates are known at the start, and are forgotten on the way; an order and two more
updates follow. -/
theorem updates_replay_small : ReplaysTo funded₂.engine rewarded.engine ∧
    funded₂.engine.updates.entries.length = 2 ∧ forgotten.engine.updates.entries = [] ∧
      rewarded.engine.operlog.map OperLog.method =
        ["update_balance", "update_balance", "limit_order", "update_balance", "update_balance"] ∧
      rewarded.engine.world.ledger.holds ⟨2, .available, "CNY"⟩ = 949.5 := by
  have special : SpecialValues := specialValues_reference
  have signed : SignedValues := signedValues_reference
  refine ⟨updates_replay smallStart_filed funded_run rewarded_run, ?_⟩
  decide +kernel

end Small

end ViabtcServer.MatchEngine
