import ViabtcServer.MatchEngine.Refusal

/-!
# Repeated updates

The repeat table is searched with the bytes of `struct update_key`: the first 32
bytes of the business name, whatever its length, and the unset gap before the
business id with them. Two updates that arrive within a day are told apart
correctly as long as these bytes are equal precisely when the four values are.
-/

namespace ViabtcServer.MatchEngine

open Decimal Container

/-- How long the repeat table remembers an update, in microseconds. -/
def repeatWindow : Time := 86400 * 1000000

section Repeat

variable [Libmpdec] [Settings] {e e' e₁ e₂ : Engine} {now : Time} {fuel padding : ℕ}
  {params : List Json} {reply : Reply} {a : UpdateArgs} {target : UpdateKey}

/-! ## The key of an update -/

/-- The bytes the table is searched with for an update. -/
def UpdateArgs.key (a : UpdateArgs) (padding : ℕ) : UpdateKey :=
  updateKey padding a.userId a.asset a.business a.businessId

/-- The four values that identify an update are equal. -/
def UpdateArgs.SameUpdate (a b : UpdateArgs) : Prop :=
  a.userId = b.userId ∧ a.asset = b.asset ∧ a.business = b.business ∧ a.businessId = b.businessId

/-- `on_cmd_balance_update` accepts the parameters as this update. -/
def AcceptsUpdate (params : List Json) (a : UpdateArgs) : Prop :=
  ∃ user business businessId change detail,
    params = [user, .string a.asset, business, businessId, change, detail] ∧
    0 ≤ assetPrecShow a.asset ∧
    readUpdateArgs (assetPrecShow a.asset) user (.string a.asset) business businessId change
      detail = .ok a

/-- The update is not in the table and the ledger lets it through. -/
def UpdateArgs.GoesThrough (a : UpdateArgs) (padding : ℕ) (e : Engine) : Prop :=
  dictFind e.updates (a.key padding) = none ∧ (a.call e.world.ledger).1.isSome

/-- An accepted update is looked up in the table, tried on the ledger and, when
it goes through, remembered. -/
theorem AcceptsUpdate.handled (accepts : AcceptsUpdate params a)
    (run : onCmdBalanceUpdate now padding e params = (reply, e')) :
    (reply = .error 10 "repeat update" ↔ dictFind e.updates (a.key padding) ≠ none) ∧
    (reply = .success ↔ a.GoesThrough padding e) ∧
    (reply = .success → e'.updates = dictReplace e.updates (a.key padding) now) ∧
    (reply ≠ .success → e' = e) := by
  rcases accepts with ⟨user, business, businessId, change, detail, rfl, known, read⟩
  simp only [onCmdBalanceUpdate, read, if_neg (not_lt.mpr known), updateUserBalance] at run
  unfold UpdateArgs.GoesThrough
  have looked : updateKey padding a.userId a.asset a.business a.businessId = a.key padding := rfl
  have call : (if mpdCmp a.change mpdZero ≥ 0 then
      balanceAdd e.world.ledger ⟨a.userId, .available, a.asset⟩ (mpdAbs a.change)
    else balanceSub e.world.ledger ⟨a.userId, .available, a.asset⟩ (mpdAbs a.change)) =
      a.call e.world.ledger := rfl
  rw [looked, call] at run
  cases entry : dictFind e.updates (a.key padding) with
  | some created =>
      simp only [entry] at run
      rcases Prod.mk.inj run with ⟨rfl, rfl⟩
      simp
  | none =>
      simp only [entry] at run
      cases answer : a.call e.world.ledger with
      | mk result ledger =>
          rw [answer] at run
          cases result with
          | none =>
              rcases Prod.mk.inj run with ⟨rfl, rfl⟩
              simp
          | some balance =>
              rcases Prod.mk.inj run with ⟨rfl, rfl⟩
              simp [appendOperlog]

/-- An update that does not succeed changes nothing. -/
theorem onCmdBalanceUpdate_refused
    (run : onCmdBalanceUpdate now padding e params = (reply, e')) (failed : reply ≠ .success) :
    e' = e := by
  rcases onCmdBalanceUpdate_cases run with
    ⟨_, same⟩ | ⟨_, _, _, _, _, _, _, _, _, _, _, done, _⟩
  · exact same
  · exact absurd done failed

/-! ## Between two updates -/

omit [Libmpdec] [Settings] in
/-- Deleting other keys does not change what a target is found with. -/
theorem dictFind_foldl_delete {ν : Type} (expired : List (Sigma fun _ : UpdateKey => ν))
    (dict : Dict UpdateKey ν) (kept : ∀ entry ∈ expired, entry.1 ≠ target) :
    dictFind (expired.foldl (fun dict entry => dictDelete dict entry.1) dict) target =
      dictFind dict target := by
  induction expired generalizing dict with
  | nil => rfl
  | cons entry rest ih =>
      rw [List.foldl_cons, ih _ fun other member => kept other (List.mem_cons_of_mem entry member)]
      exact dictFind_delete_ne (kept entry List.mem_cons_self).symm

omit [Libmpdec] [Settings] in
/-- The timer forgets no entry younger than a day, and adds none. -/
theorem updateOnTimer_keeps
    (young : ∀ created, dictFind e.updates target = some created → now ≤ created + repeatWindow) :
    dictFind (updateOnTimer now e).updates target = dictFind e.updates target := by
  apply dictFind_foldl_delete
  rintro ⟨other, created⟩ member rfl
  rcases List.mem_filter.mp member with ⟨stored, old⟩
  have recent := young created (mem_entries_iff.mp stored)
  have late : created + 86400 * 1000000 < now := of_decide_eq_true old
  exact absurd recent (not_le.mpr late)

/-- Orders and cancels leave the repeat table alone. -/
theorem handle_updates {command : Command}
    (order : ∀ padding params, command ≠ .balanceUpdate padding params)
    (handled : e.handle now fuel command = some (reply, e')) : e'.updates = e.updates := by
  cases command with
  | balanceUpdate padding params => exact absurd rfl (order padding params)
  | orderPutLimit params =>
      rcases onCmdOrderPutLimit_cases handled with ⟨_, rfl⟩ | ⟨a, st', _, _, _, _, rfl⟩
      · rfl
      · rfl
  | orderPutMarket params =>
      rcases onCmdOrderPutMarket_cases handled with ⟨_, rfl⟩ | ⟨a, best, st', _, _, _, _, rfl⟩
      · rfl
      · rfl
  | orderCancel params =>
      rcases onCmdOrderCancel_cases (Option.some.inj handled) with
        ⟨_, rfl⟩ | ⟨a, ref, order, _, _, _, _, rfl⟩
      · rfl
      · rfl

/-- What may happen on the engine until `deadline`, apart from updates that are
looked up under `target`. -/
inductive Meanwhile (target : UpdateKey) (deadline : Time) (e : Engine) : Engine → Prop
  | refl : Meanwhile target deadline e e
  | order {e' e'' : Engine} {now : Time} {fuel : ℕ} {command : Command} {reply : Reply} :
      Meanwhile target deadline e e' →
      (∀ padding params, command ≠ .balanceUpdate padding params) →
      e'.handle now fuel command = some (reply, e'') → Meanwhile target deadline e e''
  | update {e' e'' : Engine} {now : Time} {padding : ℕ} {params : List Json} {reply : Reply} :
      Meanwhile target deadline e e' →
      (∀ a, AcceptsUpdate params a → a.key padding ≠ target) →
      onCmdBalanceUpdate now padding e' params = (reply, e'') → Meanwhile target deadline e e''
  | timer {e' : Engine} {now : Time} : Meanwhile target deadline e e' → now ≤ deadline →
      Meanwhile target deadline e (updateOnTimer now e')

/-- Until the deadline the table answers as before. -/
theorem Meanwhile.keeps {deadline : Time} (meanwhile : Meanwhile target deadline e e')
    (young : ∀ created, dictFind e.updates target = some created →
      deadline ≤ created + repeatWindow) :
    dictFind e'.updates target = dictFind e.updates target := by
  induction meanwhile with
  | refl => rfl
  | order _ order handled ih => rw [handle_updates order handled, ih]
  | @update _ _ _ _ _ reply _ differ run ih =>
      rcases onCmdBalanceUpdate_cases run with
        ⟨_, rfl⟩ | ⟨user, business, businessId, change, detail, a, _, rfl, known, read, _⟩
      · exact ih
      · have accepts : AcceptsUpdate [user, .string a.asset, business, businessId, change, detail]
            a := ⟨user, business, businessId, change, detail, rfl, known, read⟩
        rcases accepts.handled run with ⟨_, _, stored, refused⟩
        by_cases success : reply = .success
        · rw [stored success, dictFind_replace_ne (differ a accepts).symm, ih]
        · rw [refused success, ih]
  | timer _ early ih =>
      rw [updateOnTimer_keeps, ih]
      intro created found
      rw [ih] at found
      exact early.trans (young created found)

/-! ## Two updates -/

/-- What repeat detection is for: the second update is refused as a repeat
exactly when the first went through and the four values agree. -/
def DetectsRepeat (a b : UpdateArgs) (first second : Reply) : Prop :=
  second = .error 10 "repeat update" ↔ first = .success ∧ a.SameUpdate b

/-- The bytes are equal if the four values are, and only then. -/
def KeysAgree (a b : UpdateArgs) (padding padding' : ℕ) : Prop :=
  (a.SameUpdate b → padding = padding') ∧
  (padding = padding' → a.userId = b.userId → a.asset = b.asset → a.businessId = b.businessId →
    businessBytes a.business = businessBytes b.business → a.business = b.business)

omit [Libmpdec] [Settings] in
theorem keysAgree_iff (a b : UpdateArgs) (padding padding' : ℕ) :
    KeysAgree a b padding padding' ↔ (a.key padding = b.key padding' ↔ a.SameUpdate b) := by
  unfold KeysAgree UpdateArgs.key updateKey UpdateArgs.SameUpdate
  rw [UpdateKey.mk.injEq]
  constructor
  · rintro ⟨same, names⟩
    constructor
    · rintro ⟨user, asset, bytes, gap, id⟩
      exact ⟨user, asset, names gap user asset id bytes, id⟩
    · rintro ⟨user, asset, business, id⟩
      exact ⟨user, asset, congrArg businessBytes business, same ⟨user, asset, business, id⟩, id⟩
  · intro agree
    constructor
    · intro same
      exact (agree.mpr same).2.2.2.1
    · intro gap user asset id bytes
      exact (agree.mp ⟨user, asset, bytes, gap, id⟩).2.2.1

/-- Repeat detection is exact for two updates within a day precisely when, if the
first goes through, the bytes of their keys are equal just in case the values
are. No third update counts under the second one's key. -/
theorem repeat_exact_iff {a b : UpdateArgs} {params' : List Json} {now' : Time} {padding' : ℕ}
    {reply' : Reply} {e₃ : Engine} (accepts : AcceptsUpdate params a)
    (accepts' : AcceptsUpdate params' b)
    (unknown : dictFind e.updates (b.key padding') = none)
    (first : onCmdBalanceUpdate now padding e params = (reply, e₁))
    (meanwhile : Meanwhile (b.key padding') (now + repeatWindow) e₁ e₂)
    (second : onCmdBalanceUpdate now' padding' e₂ params' = (reply', e₃)) :
    DetectsRepeat a b reply reply' ↔
      (a.GoesThrough padding e → KeysAgree a b padding padding') := by
  rcases accepts.handled first with ⟨_, through, stored, refused⟩
  rcases accepts'.handled second with ⟨repeated, _⟩
  have kept : dictFind e₂.updates (b.key padding') = dictFind e₁.updates (b.key padding') := by
    apply meanwhile.keeps
    intro created found
    by_cases success : reply = .success
    · by_cases same : b.key padding' = a.key padding
      · rw [stored success, same, dictFind_replace] at found
        rw [← Option.some.inj found]
      · rw [stored success, dictFind_replace_ne same, unknown] at found
        cases found
    · rw [refused success, unknown] at found
      cases found
  unfold DetectsRepeat
  rw [repeated, kept, keysAgree_iff, ← through]
  by_cases success : reply = .success
  · rw [stored success]
    by_cases same : b.key padding' = a.key padding
    · simp [success, same]
    · rw [dictFind_replace_ne same, unknown]
      simp [success, Ne.symm same]
  · rw [refused success, unknown]
    simp [success]

end Repeat

section Small

attribute [local instance] smallSettings Libmpdec.reference

/-- A deposit under a business name. -/
def depositFor (business : String) : List Json :=
  [.integer 1, .string "BTC", .string business, .integer 1, .string "5", .object []]

/-- Thirty-two bytes, one more than `BUSINESS_NAME_MAX_LEN`. -/
def longName : String := "deposit-from-the-cold-wallet-007"

/-- The small engine after the first of two deposits. -/
def afterLong : Engine :=
  (onCmdBalanceUpdate 0 0 smallStart (depositFor (longName ++ "a"))).2

/-- Two deposits whose names differ in the thirty-third byte: the second is
refused as a repeat of the first. -/
theorem repeat_conflates :
    onCmdBalanceUpdate 0 0 smallStart (depositFor (longName ++ "a")) = (.success, afterLong) ∧
    onCmdBalanceUpdate 0 0 afterLong (depositFor (longName ++ "b")) =
      (.error 10 "repeat update", afterLong) ∧
    longName ++ "a" ≠ longName ++ "b" := by
  have first : (onCmdBalanceUpdate 0 0 smallStart (depositFor (longName ++ "a"))).1 =
      .success := by
    decide +kernel
  have second : (onCmdBalanceUpdate 0 0 afterLong (depositFor (longName ++ "b"))).1 =
      .error 10 "repeat update" := by
    decide +kernel
  have unchanged := (onCmdBalanceUpdate_settles _ (Prod.ext second rfl)).1
  exact ⟨Prod.ext first rfl, Prod.ext second unchanged, by decide +kernel⟩

/-- With a short name the same deposit is told apart from another. -/
theorem repeat_exact_small :
    DetectsRepeat ⟨1, "BTC", "deposit", 1, Mpd.ofScaled 500000000 (-8), []⟩
      ⟨1, "BTC", "deposit", 1, Mpd.ofScaled 500000000 (-8), []⟩
      (onCmdBalanceUpdate 0 0 smallStart (depositFor "deposit")).1
      (onCmdBalanceUpdate 60000000 0
        (onCmdBalanceUpdate 0 0 smallStart (depositFor "deposit")).2 (depositFor "deposit")).1 := by
  have accepts : AcceptsUpdate (depositFor "deposit")
      ⟨1, "BTC", "deposit", 1, Mpd.ofScaled 500000000 (-8), []⟩ := by
    refine ⟨_, _, _, _, _, rfl, by decide +kernel, readUpdateArgs_eq_ok.mpr ?_⟩
    exact ⟨1, 1, rfl, rfl, rfl, rfl, rfl, rfl, by decide +kernel, rfl⟩
  apply (repeat_exact_iff (e := smallStart) accepts accepts _ rfl .refl rfl).mpr
  · intro _
    constructor
    · intro _
      rfl
    · intros
      rfl
  · rfl

end Small

end ViabtcServer.MatchEngine
