import ViabtcServer.MatchEngine.Balance
import Mathlib.Data.Finsupp.Basic
import Mathlib.Algebra.BigOperators.Finsupp.Basic

/-!
# What the ledger holds

The ledger read as a finitely supported function from balance keys to numbers.
While no operation rounds, each balance call posts amounts to this function:
what is added is cut to the stored precision, what is taken away is rounded up
to it.
-/

namespace ViabtcServer.MatchEngine

open Decimal Container

/-! ## Accounts -/

/-- The sum of an asset over all users and both balance types. -/
def Ledger.total (l : Ledger) (asset : String) : ℚ :=
  dictSum (fun key value => if key.asset = asset then value.value else 0) l.balances

theorem Ledger.holds_of_some {l : Ledger} {key : BalanceKey} {entry : Mpd}
    (found : dictFind l.balances key = some entry) : l.holds key = entry.value := by
  simp [holds, found]

theorem Ledger.holds_of_none {l : Ledger} {key : BalanceKey}
    (absent : dictFind l.balances key = none) : l.holds key = 0 := by
  simp [holds, absent]

/-- The ledger as a finitely supported function. -/
noncomputable def Ledger.accounts (l : Ledger) : BalanceKey →₀ ℚ :=
  Finsupp.onFinset l.balances.keys.toFinset l.holds fun key differ => by
    rw [List.mem_toFinset]
    by_contra absent
    exact differ (holds_of_none (AList.lookup_eq_none.mpr absent))

@[simp]
theorem Ledger.accounts_apply (l : Ledger) (key : BalanceKey) : l.accounts key = l.holds key := rfl

/-- The sum of one asset over an assignment of numbers to keys. -/
noncomputable def assetSum (asset : String) : (BalanceKey →₀ ℚ) →+ ℚ :=
  Finsupp.liftAddHom fun key => if key.asset = asset then AddMonoidHom.id ℚ else 0

@[simp]
theorem assetSum_single (asset : String) (key : BalanceKey) (q : ℚ) :
    assetSum asset (Finsupp.single key q) = if key.asset = asset then q else 0 := by
  unfold assetSum
  rw [Finsupp.liftAddHom_apply_single]
  split <;> rfl

theorem Ledger.total_eq_assetSum (l : Ledger) (asset : String) :
    l.total asset = assetSum asset l.accounts := by
  have term : ∀ (key : BalanceKey) (q : ℚ),
      (if key.asset = asset then AddMonoidHom.id ℚ else 0 : ℚ →+ ℚ) q =
        if key.asset = asset then q else 0 := by
    intro key q
    split <;> rfl
  have support : l.accounts.support ⊆ l.balances.keys.toFinset := Finsupp.support_onFinset_subset
  have sum := Finsupp.sum_of_support_subset l.accounts support
    (fun key => ((if key.asset = asset then AddMonoidHom.id ℚ else 0 : ℚ →+ ℚ) : ℚ → ℚ))
    fun _ _ => map_zero _
  unfold assetSum
  rw [Finsupp.liftAddHom_apply, sum, List.sum_toFinset _ l.balances.keys_nodup]
  unfold total dictSum AList.keys List.keys
  rw [List.map_map]
  refine congrArg List.sum (List.map_congr_left fun entry mem => ?_)
  rw [Function.comp_apply, term, accounts_apply, holds_of_some (mem_entries_iff.mp mem)]

theorem single_type_ne {type type' : BalanceType} (differ : type' ≠ type) {user user' : ℕ}
    {asset asset' : String} {q : ℚ} :
    Finsupp.single (⟨user, type, asset⟩ : BalanceKey) q ⟨user', type', asset'⟩ = 0 :=
  Finsupp.single_eq_of_ne (by simp [differ])

/-! ## Writing entries -/

@[simp]
theorem Ledger.holds_observe (l : Ledger) (result : Mpd) (expected : ℚ) (key : BalanceKey) :
    (l.observe result expected).holds key = l.holds key := rfl

@[simp]
theorem Ledger.accounts_observe (l : Ledger) (result : Mpd) (expected : ℚ) :
    (l.observe result expected).accounts = l.accounts := rfl

@[simp]
theorem Ledger.exact_observe (l : Ledger) (result : Mpd) (expected : ℚ) :
    (l.observe result expected).exact = true ↔ l.exact = true ∧ result.value = expected := by
  simp [observe]

@[simp]
theorem Ledger.exact_put (l : Ledger) (key : BalanceKey) (value : Mpd) :
    (l.put key value).exact = l.exact := rfl

@[simp]
theorem exact_balanceDel (l : Ledger) (key : BalanceKey) :
    (balanceDel l key).exact = l.exact := rfl

theorem Ledger.accounts_put (l : Ledger) (key : BalanceKey) (value : Mpd) :
    (l.put key value).accounts = l.accounts + Finsupp.single key (value.value - l.holds key) := by
  ext other
  by_cases same : other = key
  · subst same
    simp [put, holds]
  · simp [put, holds, dictFind_replace_ne same, Finsupp.single_eq_of_ne same]

theorem Ledger.accounts_del (l : Ledger) (key : BalanceKey) :
    (balanceDel l key).accounts = l.accounts + Finsupp.single key (-l.holds key) := by
  ext other
  by_cases same : other = key
  · subst same
    simp [balanceDel, holds]
  · simp [balanceDel, holds, dictFind_delete_ne same, Finsupp.single_eq_of_ne same]

section Sound

variable [Settings]

/-- An entry as every balance call leaves it: a number that is not negative, of
a known asset and with at most the digits that asset is stored with. -/
structure EntrySound (key : BalanceKey) (entry : Mpd) : Prop where
  finite : entry.isFinite
  nonneg : 0 ≤ entry.value
  digits : ∃ type, getAssetType key.asset = some type ∧ FracDigits type.precSave entry.value

/-- Every entry is sound. -/
def Ledger.Sound (l : Ledger) : Prop :=
  ∀ key entry, dictFind l.balances key = some entry → EntrySound key entry

variable {l : Ledger} {key : BalanceKey}

theorem Ledger.Sound.holds_nonneg (sound : l.Sound) (key : BalanceKey) : 0 ≤ l.holds key := by
  cases found : dictFind l.balances key with
  | none => rw [holds_of_none found]
  | some entry =>
      rw [holds_of_some found]
      exact (sound key entry found).nonneg

theorem Ledger.Sound.holds_onGrid (sound : l.Sound) (key : BalanceKey) {type : AssetType}
    (known : getAssetType key.asset = some type) : OnGrid (-type.precSave) (l.holds key) := by
  cases found : dictFind l.balances key with
  | none =>
      rw [holds_of_none found]
      exact OnGrid.zero _
  | some entry =>
      rw [holds_of_some found]
      obtain ⟨type', known', digits⟩ := (sound key entry found).digits
      obtain rfl : type = type' := Option.some.inj (known.symm.trans known')
      exact digits.onGrid

theorem Ledger.Sound.observe (sound : l.Sound) (result : Mpd) (expected : ℚ) :
    (l.observe result expected).Sound := sound

theorem Ledger.Sound.put (sound : l.Sound) {entry : Mpd} (ok : EntrySound key entry) :
    (l.put key entry).Sound := by
  intro other found stored
  by_cases same : other = key
  · subst same
    obtain rfl : entry = found := by simpa [Ledger.put] using stored
    exact ok
  · refine sound other found ?_
    simpa [Ledger.put, dictFind_replace_ne same] using stored

theorem Ledger.Sound.del (sound : l.Sound) : (balanceDel l key).Sound := by
  intro other found stored
  by_cases same : other = key
  · subst same
    simp [balanceDel] at stored
  · refine sound other found ?_
    simpa [balanceDel, dictFind_delete_ne same] using stored

/-- `l'` is `l` with `amounts` posted to its accounts. -/
structure Ledger.Posts (l l' : Ledger) (amounts : BalanceKey →₀ ℚ) : Prop where
  sound : l'.Sound
  accounts : l'.accounts = l.accounts + amounts

theorem Ledger.Sound.posts (sound : l.Sound) : l.Posts l 0 :=
  ⟨sound, (add_zero _).symm⟩

theorem Ledger.Posts.trans {l l' l'' : Ledger} {first second : BalanceKey →₀ ℚ}
    (one : l.Posts l' first) (two : l'.Posts l'' second) : l.Posts l'' (first + second) :=
  ⟨two.sound, by rw [two.accounts, one.accounts, add_assoc]⟩

theorem Ledger.Posts.holds {l' : Ledger} {amounts : BalanceKey →₀ ℚ} (posts : l.Posts l' amounts)
    (key : BalanceKey) : l'.holds key = l.holds key + amounts key := by
  rw [← accounts_apply, posts.accounts]
  rfl

end Sound

/-! ## The balance calls -/

section Calls

variable [Libmpdec] [Settings] {l : Ledger} {key : BalanceKey} {type : AssetType} {amount : Mpd}

theorem balanceSet_exact (l : Ledger) (key : BalanceKey) (amount : Mpd) :
    (balanceSet l key amount).2.exact = l.exact := by
  unfold balanceSet
  split
  · rfl
  · split
    · rfl
    · split <;> rfl

theorem balanceAdd_exact (h : (balanceAdd l key amount).2.exact = true) : l.exact = true := by
  unfold balanceAdd at h
  split at h
  · exact h
  · split at h
    · exact h
    · split at h
      · simp only [Ledger.exact_put, Ledger.exact_observe] at h
        exact h.1
      · rwa [balanceSet_exact] at h

omit [Settings] in
theorem Ledger.deduct_exact {entry : Mpd} (h : (l.deduct type key entry amount).2.exact = true) :
    l.exact = true ∧ (mpdSub entry amount).value = entry.value - amount.value := by
  simp only [deduct] at h
  split at h
  · simpa using h
  · simpa using h

theorem balanceSub_exact (h : (balanceSub l key amount).2.exact = true) : l.exact = true := by
  unfold balanceSub at h
  split at h
  · exact h
  · split at h
    · exact h
    · split at h
      · exact h
      · split at h
        · exact h
        · exact (Ledger.deduct_exact h).1

theorem balanceMove_exact {source target : BalanceType} {userId : ℕ} {asset : String}
    (h : (balanceMove source target l userId asset amount).2.exact = true) : l.exact = true := by
  unfold balanceMove at h
  split at h
  · exact h
  · split at h
    · exact h
    · split at h
      · exact h
      · split at h
        · exact h
        · split at h
          · rename_i failed
            have before : (balanceAdd l ⟨userId, target, asset⟩ amount).2.exact = true := by
              rw [failed]
              exact h
            exact balanceAdd_exact before
          · rename_i added
            have before : (balanceAdd l ⟨userId, target, asset⟩ amount).2.exact = true := by
              rw [added]
              exact (Ledger.deduct_exact h).1
            exact balanceAdd_exact before

theorem entrySound_rescale (known : getAssetType key.asset = some type) (prec : 0 ≤ type.precSave)
    {value : Mpd} (finite : value.isFinite) (nonneg : 0 ≤ value.value) :
    EntrySound key (mpdRescale value (-type.precSave)) := by
  refine ⟨rescale_isFinite _ finite, ?_, type, known, ?_⟩
  · rw [Libmpdec.rescale_value _ finite]
    exact truncateAt_nonneg nonneg
  · rw [Libmpdec.rescale_value _ finite]
    exact fracDigits_truncateAt prec _

/-- Setting a balance posts the difference to what was there. -/
theorem balanceSet_posts (sound : l.Sound) (known : getAssetType key.asset = some type)
    (prec : 0 ≤ type.precSave) (finite : amount.isFinite) (nonneg : 0 ≤ amount.value) :
    ∃ result l', balanceSet l key amount = (some result, l') ∧
      l.Posts l' (Finsupp.single key
        (truncateAt (-type.precSave) amount.value - l.holds key)) := by
  have notNeg : ¬ mpdCmp amount mpdZero < 0 := by
    rw [mpdCmp_lt_zero finite mpdZero_isFinite]
    simpa using nonneg
  by_cases zero : mpdCmp amount mpdZero = 0
  · refine ⟨_, _, by simp only [balanceSet, known, if_neg notNeg, if_pos zero]; rfl, sound.del, ?_⟩
    rw [mpdCmp_eq_zero finite mpdZero_isFinite, mpdZero_value] at zero
    rw [Ledger.accounts_del, zero, truncateAt_zero, zero_sub]
  · refine ⟨_, _, by simp only [balanceSet, known, if_neg notNeg, if_neg zero]; rfl,
      sound.put (entrySound_rescale known prec finite nonneg), ?_⟩
    rw [Ledger.accounts_put, Libmpdec.rescale_value _ finite]

/-- Adding posts the amount cut to the stored precision. -/
theorem balanceAdd_posts (sound : l.Sound) (key : BalanceKey)
    (known : getAssetType key.asset = some type)
    (prec : 0 ≤ type.precSave) (finite : amount.isFinite) (nonneg : 0 ≤ amount.value) :
    ∃ result l', balanceAdd l key amount = (some result, l') ∧
      (l'.exact = true →
        l.Posts l' (Finsupp.single key (truncateAt (-type.precSave) amount.value))) := by
  have notNeg : ¬ mpdCmp amount mpdZero < 0 := by
    rw [mpdCmp_lt_zero finite mpdZero_isFinite]
    simpa using nonneg
  cases found : balanceGet l key with
  | none =>
      obtain ⟨result, l', call, posts⟩ := balanceSet_posts sound known prec finite nonneg
      rw [Ledger.holds_of_none found, sub_zero] at posts
      exact ⟨result, l', by simp only [balanceAdd, known, if_neg notNeg, found, call],
        fun _ => posts⟩
  | some entry =>
      have ok := sound key entry found
      have sumFinite := Libmpdec.add_finite ok.finite finite
      refine ⟨_, _, by simp only [balanceAdd, known, if_neg notNeg, found]; rfl, fun exact => ?_⟩
      have sum : (mpdAdd entry amount).value = entry.value + amount.value := by
        simp only [Ledger.exact_put, Ledger.exact_observe] at exact
        exact exact.2
      have sumNonneg : 0 ≤ (mpdAdd entry amount).value := by
        rw [sum]
        exact add_nonneg ok.nonneg nonneg
      refine ⟨(sound.observe _ _).put (entrySound_rescale known prec sumFinite sumNonneg), ?_⟩
      have grid := sound.holds_onGrid key known
      rw [Ledger.holds_of_some found] at grid
      rw [Ledger.accounts_put, Ledger.accounts_observe, Ledger.holds_observe,
        Ledger.holds_of_some found, Libmpdec.rescale_value _ sumFinite, sum,
        truncateAt_add grid ok.nonneg nonneg, add_sub_cancel_left]

/-- Deducting posts the amount rounded up to the stored precision. -/
theorem Ledger.deduct_posts (sound : l.Sound) (key : BalanceKey)
    (known : getAssetType key.asset = some type)
    (prec : 0 ≤ type.precSave) {entry : Mpd} (entryFinite : entry.isFinite)
    (holds : l.holds key = entry.value) (finite : amount.isFinite)
    (le : amount.value ≤ entry.value)
    (exact : (l.deduct type key entry amount).2.exact = true) :
    l.Posts (l.deduct type key entry amount).2
      (Finsupp.single key (-raiseAt (-type.precSave) amount.value)) := by
  have difference := (deduct_exact exact).2
  have differenceFinite := Libmpdec.sub_finite entryFinite finite
  have grid := sound.holds_onGrid key known
  rw [holds] at grid
  unfold deduct
  by_cases zero : mpdCmp (mpdSub entry amount) mpdZero = 0
  · simp only [if_pos zero]
    rw [mpdCmp_eq_zero differenceFinite mpdZero_isFinite, mpdZero_value, difference] at zero
    have same : amount.value = entry.value := by linarith
    refine ⟨(sound.observe _ _).del, ?_⟩
    rw [accounts_del, accounts_observe, holds_observe, holds, same, raiseAt_of_onGrid grid]
  · simp only [if_neg zero]
    have nonneg : 0 ≤ (mpdSub entry amount).value := by
      rw [difference]
      exact sub_nonneg.mpr le
    refine ⟨(sound.observe _ _).put (entrySound_rescale known prec differenceFinite nonneg), ?_⟩
    rw [accounts_put, accounts_observe, holds_observe, holds,
      Libmpdec.rescale_value _ differenceFinite, difference, truncateAt_sub grid le]
    congr 2
    ring

/-- A positive amount that is there can be taken away. -/
theorem Ledger.Sound.find_of_pos (sound : l.Sound) (finite : amount.isFinite)
    (pos : 0 < amount.value) (le : amount.value ≤ l.holds key) :
    ∃ entry, balanceGet l key = some entry ∧ EntrySound key entry ∧
      l.holds key = entry.value ∧ ¬ mpdCmp amount mpdZero < 0 ∧ ¬ mpdCmp entry amount < 0 := by
  cases found : dictFind l.balances key with
  | none =>
      rw [holds_of_none found] at le
      linarith
  | some entry =>
      have ok := sound key entry found
      have holds := holds_of_some found
      refine ⟨entry, found, ok, holds, ?_, ?_⟩
      · rw [mpdCmp_lt_zero finite mpdZero_isFinite]
        simpa using pos.le
      · rw [mpdCmp_lt_zero ok.finite finite, ← holds]
        exact not_lt.mpr le

/-- Subtracting posts the amount rounded up to the stored precision. -/
theorem balanceSub_posts (sound : l.Sound) (key : BalanceKey)
    (known : getAssetType key.asset = some type)
    (prec : 0 ≤ type.precSave) (finite : amount.isFinite) (pos : 0 < amount.value)
    (le : amount.value ≤ l.holds key) :
    ∃ result l', balanceSub l key amount = (some result, l') ∧
      (l'.exact = true →
        l.Posts l' (Finsupp.single key (-raiseAt (-type.precSave) amount.value))) := by
  obtain ⟨entry, found, ok, holds, notNeg, notLess⟩ := sound.find_of_pos finite pos le
  refine ⟨_, _, by simp only [balanceSub, known, if_neg notNeg, found, if_neg notLess]; rfl, ?_⟩
  intro exact
  exact Ledger.deduct_posts sound key known prec ok.finite holds finite (holds ▸ le) exact

/-- A subtraction that answers has posted the amount rounded up. -/
theorem balanceSub_answered (sound : l.Sound) (known : getAssetType key.asset = some type)
    (prec : 0 ≤ type.precSave) (finite : amount.isFinite) {result : Mpd} {l' : Ledger}
    (call : balanceSub l key amount = (some result, l')) (exact : l'.exact = true) :
    l.Posts l' (Finsupp.single key (-raiseAt (-type.precSave) amount.value)) := by
  simp only [balanceSub, known] at call
  split at call
  · cases call
  split at call
  · cases call
  rename_i entry found
  split at call
  · cases call
  rename_i notLess
  have ok := sound key entry found
  rw [mpdCmp_lt_zero ok.finite finite, not_lt] at notLess
  have same : (l.deduct type key entry amount).2 = l' := (Prod.mk.inj call).2
  rw [← same] at exact ⊢
  exact Ledger.deduct_posts sound key known prec ok.finite (Ledger.holds_of_some found) finite
    notLess exact

/-- Freezing and unfreezing post one amount to both balances. -/
theorem balanceMove_posts (sound : l.Sound) {source target : BalanceType}
    (differ : source ≠ target) {userId : ℕ} {asset : String}
    (known : getAssetType asset = some type) (finite : amount.isFinite) (pos : 0 < amount.value)
    (digits : FracDigits type.precSave amount.value)
    (le : amount.value ≤ l.holds ⟨userId, source, asset⟩) :
    ∃ result l', balanceMove source target l userId asset amount = (some result, l') ∧
      (l'.exact = true →
        l.Posts l' (Finsupp.single ⟨userId, target, asset⟩ amount.value -
          Finsupp.single ⟨userId, source, asset⟩ amount.value)) := by
  have prec := digits.nonneg
  obtain ⟨entry, found, ok, holds, notNeg, notLess⟩ := sound.find_of_pos finite pos le
  obtain ⟨_, added, call, addPosts⟩ := balanceAdd_posts sound
    ⟨userId, target, asset⟩ known prec finite pos.le
  refine ⟨_, _, by simp only [balanceMove, known, if_neg notNeg, found, if_neg notLess, call]; rfl,
    ?_⟩
  intro exact
  have one := addPosts (Ledger.deduct_exact exact).1
  have keep : added.holds ⟨userId, source, asset⟩ = entry.value := by
    rw [one.holds, Finsupp.single_eq_of_ne (by simpa using differ), add_zero, holds]
  have two := Ledger.deduct_posts one.sound ⟨userId, source, asset⟩ known prec ok.finite
    keep finite (holds ▸ le) exact
  have both := one.trans two
  rwa [digits.truncateAt_eq, digits.raiseAt_eq, Finsupp.single_neg, ← sub_eq_add_neg] at both

end Calls

end ViabtcServer.MatchEngine
