import ViabtcServer.Accounting.Balances
import ViabtcServer.Decimal.Reference
import ViabtcServer.MatchEngine.Account
import ViabtcServer.MatchEngine.Reach

/-!
# The balance dictionary as a store

`dict_balance` under any sequence of calls is a store of balances that cannot be
negative: an account that holds nothing has no entry, any other an entry with
exactly the digits of its asset. A call answers `NULL` exactly when the store
refuses it, and then changes nothing.
-/

namespace ViabtcServer.MatchEngine

open Decimal Container Accounting

/-! ## Calls -/

/-- A call of a balance function. -/
inductive BalanceCall
  | set (key : BalanceKey) (amount : Mpd)
  | add (key : BalanceKey) (amount : Mpd)
  | sub (key : BalanceKey) (amount : Mpd)
  | freeze (userId : ℕ) (asset : String) (amount : Mpd)
  | unfreeze (userId : ℕ) (asset : String) (amount : Mpd)
  | del (key : BalanceKey)

/-- What the calls store for each user, balance type and asset. -/
abbrev Store := Balances BalanceKey

section Store

variable [Libmpdec] [Settings] {l l' : Ledger} {f f' : Store} {key : BalanceKey}
  {type : AssetType} {amount entry : Mpd}

/-- Run a call: the pointer it returns, `none` for the one that returns nothing,
and the dictionary after it. -/
def BalanceCall.run (l : Ledger) : BalanceCall → Option (Option Mpd) × Ledger
  | .set key amount => (balanceSet l key amount).map some id
  | .add key amount => (balanceAdd l key amount).map some id
  | .sub key amount => (balanceSub l key amount).map some id
  | .freeze userId asset amount => (balanceFreeze l userId asset amount).map some id
  | .unfreeze userId asset amount => (balanceUnfreeze l userId asset amount).map some id
  | .del key => (none, balanceDel l key)

omit [Libmpdec] in
/-- Only balances of known assets are stored. -/
def ifKnown (asset : String) (stored : Option Store) : Option Store :=
  if assetExist asset then stored else none

omit [Libmpdec] in
/-- What a call does to the store; `none` where it is refused. -/
def BalanceCall.spec (f : Store) : BalanceCall → Option Store
  | .set key amount => ifKnown key.asset (f.set key amount.value)
  | .add key amount => ifKnown key.asset (f.add key amount.value)
  | .sub key amount => ifKnown key.asset (f.sub key amount.value)
  | .freeze userId asset amount =>
      ifKnown asset (f.move ⟨userId, .available, asset⟩ ⟨userId, .freeze, asset⟩ amount.value)
  | .unfreeze userId asset amount =>
      ifKnown asset (f.move ⟨userId, .freeze, asset⟩ ⟨userId, .available, asset⟩ amount.value)
  | .del key => some (Function.update f key 0)

omit [Libmpdec] [Settings] in
/-- The sums and differences a call computes when it is not refused. A balance
that is not there is not added to. -/
def BalanceCall.sums (f : Store) : BalanceCall → List ℚ
  | .set _ _ => []
  | .add key amount => if f key = 0 then [] else [f key + amount.value]
  | .sub key amount => [f key - amount.value]
  | .freeze userId asset amount =>
      (if f ⟨userId, .freeze, asset⟩ = 0 then [] else
        [f ⟨userId, .freeze, asset⟩ + amount.value]) ++
        [f ⟨userId, .available, asset⟩ - amount.value]
  | .unfreeze userId asset amount =>
      (if f ⟨userId, .available, asset⟩ = 0 then [] else
        [f ⟨userId, .available, asset⟩ + amount.value]) ++
        [f ⟨userId, .freeze, asset⟩ - amount.value]
  | .del _ => []

omit [Libmpdec] [Settings] in
/-- The asset and the amount of a call. -/
def BalanceCall.payment : BalanceCall → Option (String × Mpd)
  | .set key amount | .add key amount | .sub key amount => some (key.asset, amount)
  | .freeze _ asset amount | .unfreeze _ asset amount => some (asset, amount)
  | .del _ => none

omit [Libmpdec] in
/-- The amount of a call is a number with at most the digits of its asset. -/
def Payment (asset : String) (amount : Mpd) : Prop :=
  amount.isFinite ∧ ∀ type, getAssetType asset = some type →
    OnGrid (-type.precSave) amount.value

omit [Libmpdec] in
/-- Besides, the sums the call computes can be written with the digits of the
context. -/
structure BalanceCall.Admissible (f : Store) (call : BalanceCall) : Prop where
  payment : ∀ asset amount, call.payment = some (asset, amount) → Payment asset amount
  sums : (call.spec f).isSome → ∀ q ∈ call.sums f, SigDigits mpdCtx q

omit [Libmpdec] in
/-- An entry as it stands for what an account holds: a number greater than zero,
written with exactly the digits of its asset. -/
def Holds (key : BalanceKey) (q : ℚ≥0) (entry : Mpd) : Prop :=
  entry.value = q ∧ 0 < entry.value ∧ ∃ type, getAssetType key.asset = some type ∧
    ∃ neg coeff, entry = .finite neg coeff (-type.precSave)

omit [Libmpdec] in
/-- The dictionary holds what the store says, and no entry for zero. -/
def Ledger.Refines (l : Ledger) (f : Store) : Prop :=
  ∀ key, match dictFind l.balances key with
    | none => f key = 0
    | some entry => Holds key (f key) entry

/-! ## Entries -/

omit [Libmpdec] in
theorem Ledger.Refines.absent (refines : l.Refines f) (none_ : balanceGet l key = none) :
    f key = 0 := by
  have holds := refines key
  unfold balanceGet at none_
  rwa [none_] at holds

omit [Libmpdec] in
theorem Ledger.Refines.present (refines : l.Refines f) (found : balanceGet l key = some entry) :
    Holds key (f key) entry := by
  have holds := refines key
  unfold balanceGet at found
  rwa [found] at holds

omit [Libmpdec] in
theorem Holds.finite {q : ℚ≥0} (holds : Holds key q entry) : entry.isFinite := by
  obtain ⟨_, _, _, _, _, _, rfl⟩ := holds
  rfl

omit [Libmpdec] in
theorem Holds.ne_zero {q : ℚ≥0} (holds : Holds key q entry) : q ≠ 0 := by
  rintro rfl
  have value := holds.1
  have pos := holds.2.1
  rw [value] at pos
  exact lt_irrefl _ pos

/-- What is written rescaled stands for its value, when that has the digits. -/
theorem holds_rescale (known : getAssetType key.asset = some type) {value : Mpd} {q : ℚ≥0}
    (finite : value.isFinite) (same : value.value = q) (pos : 0 < q)
    (grid : OnGrid (-type.precSave) (q : ℚ)) :
    Holds key q (mpdRescale value (-type.precSave)) := by
  have kept : (mpdRescale value (-type.precSave)).value = q := by
    rw [Libmpdec.rescale_value _ finite, same, truncateAt_of_onGrid grid]
  refine ⟨kept, ?_, type, known, Libmpdec.rescale_finite _ finite⟩
  rw [kept]
  exact_mod_cast pos

omit [Libmpdec] in
/-- The digits of what is held. -/
theorem Ledger.Refines.grid (refines : l.Refines f) (known : getAssetType key.asset = some type) :
    OnGrid (-type.precSave) (f key : ℚ) := by
  cases found : balanceGet l key with
  | none =>
      rw [refines.absent found]
      exact .zero _
  | some entry =>
      obtain ⟨value, _, type', known', neg, coeff, rfl⟩ := refines.present found
      rw [known] at known'
      obtain rfl := Option.some.inj known'
      rw [← value]
      cases neg with
      | false => exact ⟨coeff, by simp [Mpd.value]⟩
      | true => exact ⟨-coeff, by simp [Mpd.value]⟩

omit [Libmpdec] in
/-- An entry is written. -/
theorem Ledger.Refines.put {q : ℚ≥0} (refines : l.Refines f) (holds : Holds key q entry) :
    (l.put key entry).Refines (Function.update f key q) := by
  intro other
  by_cases same : other = key
  · subst same
    simp only [Ledger.put, dictFind_replace, Function.update_self]
    exact holds
  · simp only [Ledger.put, dictFind_replace_ne same, Function.update_of_ne same]
    exact refines other

omit [Libmpdec] in
/-- An entry is deleted. -/
theorem Ledger.Refines.del (refines : l.Refines f) (key : BalanceKey) :
    (balanceDel l key).Refines (Function.update f key 0) := by
  intro other
  by_cases same : other = key
  · subst same
    simp only [balanceDel, dictFind_delete, Function.update_self]
  · simp only [balanceDel, dictFind_delete_ne same, Function.update_of_ne same]
    exact refines other

omit [Libmpdec] in
theorem Ledger.Refines.observe (refines : l.Refines f) (result : Mpd) (expected : ℚ) :
    (l.observe result expected).Refines f :=
  refines

/-! ## The functions -/

/-- The answer to a call the store does or refuses. -/
def Answers (l : Ledger) (answer : Option Mpd × Ledger) : Option Store → Prop
  | none => answer = (none, l)
  | some f' => answer.1.isSome ∧ answer.2.Refines f'

omit [Libmpdec] in
theorem ifKnown_unknown {asset : String} (unknown : getAssetType asset = none)
    (stored : Option Store) : ifKnown asset stored = none := by
  unfold ifKnown assetExist
  rw [unknown]
  rfl

omit [Libmpdec] in
theorem ifKnown_known {asset : String} (known : getAssetType asset = some type)
    (stored : Option Store) : ifKnown asset stored = stored := by
  unfold ifKnown assetExist
  rw [known]
  rfl

omit [Settings] in
theorem negative_iff (finite : amount.isFinite) :
    mpdCmp amount mpdZero < 0 ↔ amount.value < 0 := by
  rw [mpdCmp_lt_zero finite mpdZero_isFinite, mpdZero_value]

theorem balanceSet_answers (refines : l.Refines f) (payment : Payment key.asset amount) :
    Answers l (balanceSet l key amount) (ifKnown key.asset (f.set key amount.value)) := by
  obtain ⟨finite, grid⟩ := payment
  unfold balanceSet
  cases known : getAssetType key.asset with
  | none =>
      rw [ifKnown_unknown known]
      rfl
  | some type =>
      rw [ifKnown_known known]
      unfold Balances.set
      simp only [negative_iff finite]
      by_cases negative : amount.value < 0
      · rw [if_pos negative, if_pos negative]
        rfl
      · rw [if_neg negative, if_neg negative]
        have nonneg := not_lt.mp negative
        by_cases zero : mpdCmp amount mpdZero = 0
        · rw [if_pos zero]
          rw [mpdCmp_eq_zero finite mpdZero_isFinite, mpdZero_value] at zero
          refine ⟨rfl, ?_⟩
          rw [zero, Rat.toNNRat_zero]
          exact refines.del key
        · rw [if_neg zero]
          rw [mpdCmp_eq_zero finite mpdZero_isFinite, mpdZero_value] at zero
          have coe : ((amount.value.toNNRat : ℚ≥0) : ℚ) = amount.value := Rat.coe_toNNRat _ nonneg
          refine ⟨rfl, refines.put (holds_rescale known finite coe.symm ?_ ?_)⟩
          · rw [← NNRat.coe_pos, coe]
            exact lt_of_le_of_ne nonneg (Ne.symm zero)
          · rw [coe]
            exact grid type known

theorem balanceAdd_answers (refines : l.Refines f) (payment : Payment key.asset amount)
    (sums : (ifKnown key.asset (f.add key amount.value)).isSome → f key ≠ 0 →
      SigDigits mpdCtx (f key + amount.value)) :
    Answers l (balanceAdd l key amount) (ifKnown key.asset (f.add key amount.value)) := by
  obtain ⟨finite, grid⟩ := payment
  unfold balanceAdd
  cases known : getAssetType key.asset with
  | none =>
      rw [ifKnown_unknown known]
      rfl
  | some type =>
      rw [ifKnown_known known] at sums ⊢
      unfold Balances.add at sums ⊢
      simp only [negative_iff finite]
      by_cases negative : amount.value < 0
      · rw [if_pos negative, if_pos negative]
        rfl
      · rw [if_neg negative, if_neg negative]
        have nonneg := not_lt.mp negative
        rw [if_neg negative] at sums
        have coe : ((amount.value.toNNRat : ℚ≥0) : ℚ) = amount.value := Rat.coe_toNNRat _ nonneg
        cases found : balanceGet l key with
        | none =>
            have set : Answers l (balanceSet l key amount)
                (ifKnown key.asset (f.set key amount.value)) :=
              balanceSet_answers refines ⟨finite, grid⟩
            rw [ifKnown_known known, Balances.set, if_neg negative] at set
            rw [refines.absent found, zero_add]
            exact set
        | some entry =>
            have holds := refines.present found
            have total : ((f key + amount.value.toNNRat : ℚ≥0) : ℚ) = f key + amount.value := by
              rw [NNRat.coe_add, coe]
            have sum : (mpdAdd entry amount).value = (f key + amount.value.toNNRat : ℚ≥0) := by
              rw [total, ← holds.1]
              apply mpdAdd_exact holds.finite finite
              rw [holds.1]
              exact sums rfl holds.ne_zero
            refine ⟨rfl, (refines.observe _ _).put (holds_rescale known
              (Libmpdec.add_finite holds.finite finite) sum ?_ ?_)⟩
            · exact add_pos_of_pos_of_nonneg (pos_iff_ne_zero.mpr holds.ne_zero) zero_le
            · rw [total]
              exact (refines.grid known).add (grid type known)

/-- An entry that suffices is charged. -/
theorem Ledger.deduct_refines (refines : l'.Refines f') (known : getAssetType key.asset = some type)
    {q : ℚ≥0} (holds : Holds key q entry) (finite : amount.isFinite)
    (nonneg : 0 ≤ amount.value) (le : amount.value ≤ q)
    (grid : OnGrid (-type.precSave) amount.value) (own : OnGrid (-type.precSave) (q : ℚ))
    (sums : SigDigits mpdCtx (q - amount.value)) :
    (l'.deduct type key entry amount).2.Refines
      (Function.update f' key (q - amount.value.toNNRat)) := by
  have coe : ((amount.value.toNNRat : ℚ≥0) : ℚ) = amount.value := Rat.coe_toNNRat _ nonneg
  have there : amount.value.toNNRat ≤ q := by
    rw [← NNRat.coe_le_coe, coe]
    exact le
  have rest : ((q - amount.value.toNNRat : ℚ≥0) : ℚ) = q - amount.value := by
    rw [NNRat.coe_sub there, coe]
  have subFinite := Libmpdec.sub_finite holds.finite finite
  have difference : (mpdSub entry amount).value = (q - amount.value.toNNRat : ℚ≥0) := by
    rw [rest, ← holds.1]
    apply (mpdSub_exact_iff holds.finite finite).mpr
    rw [holds.1]
    exact sums
  unfold deduct
  by_cases zero : mpdCmp (mpdSub entry amount) mpdZero = 0
  · simp only [if_pos zero]
    rw [mpdCmp_eq_zero subFinite mpdZero_isFinite, mpdZero_value, difference] at zero
    rw [NNRat.coe_eq_zero.mp zero]
    exact (refines.observe _ _).del key
  · simp only [if_neg zero]
    rw [mpdCmp_eq_zero subFinite mpdZero_isFinite, mpdZero_value, difference] at zero
    refine (refines.observe _ _).put (holds_rescale known subFinite difference ?_ ?_)
    · rw [pos_iff_ne_zero]
      exact fun none_ => zero (NNRat.coe_eq_zero.mpr none_)
    · rw [rest]
      exact own.sub grid

theorem balanceSub_answers (refines : l.Refines f) (payment : Payment key.asset amount)
    (sums : (ifKnown key.asset (f.sub key amount.value)).isSome →
      SigDigits mpdCtx (f key - amount.value)) :
    Answers l (balanceSub l key amount) (ifKnown key.asset (f.sub key amount.value)) := by
  obtain ⟨finite, grid⟩ := payment
  unfold balanceSub
  cases known : getAssetType key.asset with
  | none =>
      rw [ifKnown_unknown known]
      rfl
  | some type =>
      rw [ifKnown_known known] at sums ⊢
      unfold Balances.sub at sums ⊢
      simp only [negative_iff finite]
      by_cases negative : amount.value < 0
      · rw [if_pos negative, if_pos (Balances.lacks_negative negative)]
        rfl
      rw [if_neg negative]
      cases found : balanceGet l key with
      | none =>
          rw [if_pos (Balances.lacks_empty (refines.absent found))]
          rfl
      | some entry =>
          have holds := refines.present found
          simp only [mpdCmp_lt_zero holds.finite finite, holds.1]
          by_cases less : (f key : ℚ) < amount.value
          · rw [if_pos less, if_pos (Balances.lacks_less less)]
            rfl
          · have enough : ¬ f.Lacks key amount.value :=
              Balances.not_lacks.mpr ⟨not_lt.mp negative, holds.ne_zero, not_lt.mp less⟩
            rw [if_neg enough] at sums
            rw [if_neg less, if_neg enough]
            exact ⟨rfl, Ledger.deduct_refines refines known holds finite (not_lt.mp negative)
              (not_lt.mp less) (grid type known) (refines.grid known) (sums rfl)⟩

theorem balanceMove_answers {source target : BalanceType} {userId : ℕ} {asset : String}
    (apart : source ≠ target) (refines : l.Refines f) (payment : Payment asset amount)
    (sums : (ifKnown asset (f.move ⟨userId, source, asset⟩ ⟨userId, target, asset⟩
        amount.value)).isSome →
      (f ⟨userId, target, asset⟩ ≠ 0 →
        SigDigits mpdCtx (f ⟨userId, target, asset⟩ + amount.value)) ∧
      SigDigits mpdCtx (f ⟨userId, source, asset⟩ - amount.value)) :
    Answers l (balanceMove source target l userId asset amount)
      (ifKnown asset (f.move ⟨userId, source, asset⟩ ⟨userId, target, asset⟩ amount.value)) := by
  obtain ⟨finite, grid⟩ := payment
  unfold balanceMove
  cases known : getAssetType asset with
  | none =>
      rw [ifKnown_unknown known]
      rfl
  | some type =>
      rw [ifKnown_known known] at sums ⊢
      unfold Balances.move at sums ⊢
      simp only [negative_iff finite]
      by_cases negative : amount.value < 0
      · rw [if_pos negative, if_pos (Balances.lacks_negative negative)]
        rfl
      rw [if_neg negative]
      cases found : balanceGet l ⟨userId, source, asset⟩ with
      | none =>
          rw [if_pos (Balances.lacks_empty (refines.absent found))]
          rfl
      | some entry =>
          have holds := refines.present found
          simp only [mpdCmp_lt_zero holds.finite finite, holds.1]
          by_cases less : (f ⟨userId, source, asset⟩ : ℚ) < amount.value
          · rw [if_pos less, if_pos (Balances.lacks_less less)]
            rfl
          · have enough : ¬ f.Lacks ⟨userId, source, asset⟩ amount.value :=
              Balances.not_lacks.mpr ⟨not_lt.mp negative, holds.ne_zero, not_lt.mp less⟩
            rw [if_neg enough] at sums
            rw [if_neg less, if_neg enough]
            obtain ⟨targetSum, sourceSum⟩ := sums rfl
            have added : Answers l (balanceAdd l ⟨userId, target, asset⟩ amount)
                (ifKnown asset (f.add ⟨userId, target, asset⟩ amount.value)) :=
              balanceAdd_answers refines ⟨finite, grid⟩ fun _ present => targetSum present
            rw [ifKnown_known known, Balances.add, if_neg negative] at added
            obtain ⟨answered, refines'⟩ := added
            split
            · rename_i call
              rw [call] at answered
              cases answered
            · rename_i call
              rw [call] at refines'
              have kept : Function.update f ⟨userId, target, asset⟩
                  (f ⟨userId, target, asset⟩ + amount.value.toNNRat) ⟨userId, source, asset⟩ =
                    f ⟨userId, source, asset⟩ :=
                Function.update_of_ne (by simpa using apart) _ _
              exact ⟨rfl, Ledger.deduct_refines refines' known holds finite (not_lt.mp negative)
                (not_lt.mp less) (grid type known) (refines.grid known) sourceSum⟩

/-! ## Sequences of calls -/

/-- A call that is refused answers `NULL` and changes nothing, any other does to
the dictionary what it does to the store. -/
theorem BalanceCall.run_refines {call : BalanceCall} (refines : l.Refines f)
    (admissible : call.Admissible f) :
    (call.spec f = none → call.run l = (some none, l)) ∧
      ∀ f', call.spec f = some f' → (call.run l).1 ≠ some none ∧ (call.run l).2.Refines f' := by
  -- what the lemmas on the functions say of a call that returns a pointer
  have pointer {answer : Option Mpd × Ledger} (run : call.run l = answer.map some id)
      (answers : Answers l answer (call.spec f)) :
      (call.spec f = none → call.run l = (some none, l)) ∧
        ∀ f', call.spec f = some f' → (call.run l).1 ≠ some none ∧ (call.run l).2.Refines f' := by
    constructor
    · intro refused
      rw [refused] at answers
      rw [run, answers]
      rfl
    · intro f' stored
      rw [stored] at answers
      rw [run]
      refine ⟨?_, answers.2⟩
      intro null
      obtain ⟨result, ledger⟩ := answer
      obtain rfl : result = none := Option.some.inj null
      cases answers.1
  have payment := admissible.payment
  have sums := admissible.sums
  cases call with
  | set key amount => exact pointer rfl (balanceSet_answers refines (payment _ _ rfl))
  | add key amount =>
      apply pointer rfl (balanceAdd_answers refines (payment _ _ rfl) _)
      intro stored present
      exact sums stored _ (by simp [BalanceCall.sums, present])
  | sub key amount =>
      apply pointer rfl (balanceSub_answers refines (payment _ _ rfl) _)
      intro stored
      exact sums stored _ (by simp [BalanceCall.sums])
  | freeze userId asset amount =>
      apply pointer rfl (balanceMove_answers (by decide) refines (payment _ _ rfl) _)
      intro stored
      exact ⟨fun present => sums stored _ (by simp [BalanceCall.sums, present]),
        sums stored _ (by simp [BalanceCall.sums])⟩
  | unfreeze userId asset amount =>
      apply pointer rfl (balanceMove_answers (by decide) refines (payment _ _ rfl) _)
      intro stored
      exact ⟨fun present => sums stored _ (by simp [BalanceCall.sums, present]),
        sums stored _ (by simp [BalanceCall.sums])⟩
  | del key => exact ⟨nofun, fun f' stored => ⟨nofun, Option.some.inj stored ▸ refines.del key⟩⟩

/-- Run calls one after the other. -/
def runCalls (l : Ledger) (calls : List BalanceCall) : Ledger :=
  calls.foldl (fun l call => (call.run l).2) l

omit [Libmpdec] in
/-- What calls do to the store; a call that is refused does nothing. -/
def specCalls (f : Store) (calls : List BalanceCall) : Store :=
  calls.foldl (fun f call => (call.spec f).getD f) f

omit [Libmpdec] in
/-- Every call is admissible when its turn comes. -/
def Admits : Store → List BalanceCall → Prop
  | _, [] => True
  | f, call :: calls => call.Admissible f ∧ Admits ((call.spec f).getD f) calls

theorem runCalls_refines {calls : List BalanceCall} (refines : l.Refines f)
    (admits : Admits f calls) : (runCalls l calls).Refines (specCalls f calls) := by
  induction calls generalizing l f with
  | nil => exact refines
  | cons call calls ih =>
      have step := call.run_refines refines admits.1
      apply ih _ admits.2
      show (call.run l).2.Refines _
      cases stored : call.spec f with
      | none =>
          rw [step.1 stored]
          exact refines
      | some f' => exact (step.2 f' stored).2

omit [Libmpdec] in
theorem Ledger.Refines.holds (refines : l.Refines f) (key : BalanceKey) :
    l.holds key = f key := by
  cases found : dictFind l.balances key with
  | none =>
      have empty := refines.absent found
      rw [Ledger.holds_of_none found, empty]
      rfl
  | some entry => rw [Ledger.holds_of_some found, (refines.present found).1]

omit [Libmpdec] in
/-- A move between the balances of a user leaves what every user owns. -/
theorem owns_of_move {source target : BalanceType} {userId : ℕ} {asset : String} {q : ℚ}
    (apart : source ≠ target) (refines : l.Refines f) (refines' : l'.Refines f')
    (moved : ifKnown asset (f.move ⟨userId, source, asset⟩ ⟨userId, target, asset⟩ q) = some f')
    (user' : ℕ) (asset' : String) : l'.owns user' asset' = l.owns user' asset' := by
  unfold ifKnown at moved
  split at moved
  swap
  · cases moved
  unfold Ledger.owns
  rw [refines.holds, refines.holds, refines'.holds, refines'.holds, ← NNRat.coe_add,
    ← NNRat.coe_add]
  congr 1
  by_cases own : user' = userId ∧ asset' = asset
  · obtain ⟨rfl, rfl⟩ := own
    have sum := Balances.move_sum (by simpa using apart) moved
    cases source <;> cases target
    · exact absurd rfl apart
    · exact sum
    · rw [add_comm, sum, add_comm]
    · exact absurd rfl apart
  · have other (type type' : BalanceType) :
        (⟨user', type, asset'⟩ : BalanceKey) ≠ ⟨userId, type', asset⟩ := by
      intro same
      injection same with user _ name
      exact own ⟨user, name⟩
    rw [Balances.move_other moved (other _ _) (other _ _),
      Balances.move_other moved (other _ _) (other _ _)]

/-- From an empty dictionary any sequence of admissible calls is what it is for
the store. After it a call answers `NULL` exactly when the store refuses it, and
then nothing has changed; freezing and unfreezing leave what everybody owns. -/
theorem balance_store {calls : List BalanceCall} (admits : Admits 0 calls) :
    (runCalls { balances := ∅ } calls).Refines (specCalls 0 calls) ∧
      ∀ call : BalanceCall, call.Admissible (specCalls 0 calls) →
        ((call.run (runCalls { balances := ∅ } calls)).1 = some none ↔
          call.spec (specCalls 0 calls) = none) ∧
        (call.spec (specCalls 0 calls) = none →
          (call.run (runCalls { balances := ∅ } calls)).2 = runCalls { balances := ∅ } calls) ∧
        ∀ f', call.spec (specCalls 0 calls) = some f' →
          (call.run (runCalls { balances := ∅ } calls)).2.Refines f' ∧
          ((∃ userId asset amount, call = .freeze userId asset amount ∨
              call = .unfreeze userId asset amount) →
            ∀ user asset, (call.run (runCalls { balances := ∅ } calls)).2.owns user asset =
              (runCalls { balances := ∅ } calls).owns user asset) := by
  have empty : ({ balances := ∅ } : Ledger).Refines 0 := by
    intro key
    simp only [dictFind_empty]
    rfl
  have refines := runCalls_refines empty admits
  refine ⟨refines, fun call admissible => ?_⟩
  obtain ⟨refused, done⟩ := call.run_refines refines admissible
  refine ⟨⟨fun null => ?_, fun none_ => by rw [refused none_]⟩, fun none_ => by rw [refused none_],
    fun f' stored => ⟨(done f' stored).2, ?_⟩⟩
  · cases stored : call.spec (specCalls 0 calls) with
    | none => rfl
    | some f' => exact absurd null (done f' stored).1
  · rintro ⟨userId, asset, amount, rfl | rfl⟩ user' asset'
    · exact owns_of_move (by decide) refines (done f' stored).2 stored user' asset'
    · exact owns_of_move (by decide) refines (done f' stored).2 stored user' asset'

end Store

section Small

attribute [local instance] smallSettings Libmpdec.reference

/-- Deposit three, freeze one, and charge more than is left. -/
def smallCalls : List BalanceCall :=
  [.set ⟨1, .available, "BTC"⟩ (.finite false 3 0), .freeze 1 "BTC" (.finite false 1 0),
    .sub ⟨1, .available, "BTC"⟩ (.finite false 5 0)]

theorem small_payment (coeff : ℕ) : Payment "BTC" (.finite false coeff 0) := by
  constructor
  · rfl
  intro type known
  have prec : type.precSave = 12 := by
    obtain rfl := Option.some.inj known
    rfl
  rw [prec]
  refine ⟨coeff * 10 ^ 12, ?_⟩
  norm_num [Mpd.value]
  ring

theorem small_admits : Admits 0 smallCalls := by
  have two : ∀ q ∈ [(2 : ℚ)], SigDigits mpdCtx q := by
    intro q mem
    obtain rfl := List.mem_singleton.mp mem
    exact .of_whole (by decide)
  refine ⟨⟨?_, fun _ => nofun⟩, ⟨?_, fun _ => ?_⟩,
    ⟨?_, fun stored => absurd stored (by decide +kernel)⟩, trivial⟩
  · rintro _ _ ⟨⟩
    exact small_payment 3
  · rintro _ _ ⟨⟩
    exact small_payment 1
  · have sums : BalanceCall.sums (specCalls 0 (smallCalls.take 1))
        (.freeze 1 "BTC" (.finite false 1 0)) = [(2 : ℚ)] := by decide +kernel
    exact sums ▸ two
  · rintro _ _ ⟨⟩
    exact small_payment 5

theorem balance_store_small :
    (runCalls { balances := ∅ } smallCalls).Refines (specCalls 0 smallCalls) ∧
      specCalls 0 smallCalls ⟨1, .freeze, "BTC"⟩ = 1 :=
  ⟨(balance_store small_admits).1, by decide +kernel⟩

end Small

end ViabtcServer.MatchEngine
