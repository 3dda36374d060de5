import ViabtcServer.Decimal.Reference
import ViabtcServer.MarketPrice.Candles
import ViabtcServer.MarketPrice.Dirty

/-!
# The levels of a market

Every deal is counted at all four levels. Where the deals come in the order of time,
what is stored at one level follows from the level below.
-/

namespace ViabtcServer.MarketPrice

open Decimal Container MatchEngine Chart

/-! ## What is stored -/

/-- The second of a deal. -/
def Deal.second (deal : Deal) : ℤ :=
  truncate deal.timestamp

/-- The k-lines of `klines` whose times are `inside`, in the order of time. -/
def klinesIn (klines : Dict ℤ KlineInfo) (inside : ℤ → Bool) : List KlineInfo :=
  ((klines.keys.filter inside).insertionSort (· ≤ ·)).filterMap (dictFind klines)

/-- Both are missing, or they show the same candle. -/
def SameCandle : Option KlineInfo → Option KlineInfo → Prop :=
  Option.Rel fun a b => a.IsFinite ∧ b.IsFinite ∧ a.candle = b.candle

/-- Dates change on whole hours only, from the epoch on. -/
def WholeHours [LocalTime] : Prop :=
  ∀ t, 0 ≤ t → LocalTime.date (t / 3600 * 3600) = LocalTime.date t

section Levels

variable [LocalTime]

/-- The deals of a k-line. -/
def dealsOf (deals : List Deal) (type : KlineType) (start : ℤ) : List Deal :=
  deals.filter fun d => klineStart type d.second = start

/-- Of the slots that are kept, those of the deals have their k-lines, and no others. -/
structure MarketInfo.Counted (info : MarketInfo) (kept : KlineType → ℤ → Prop)
    (deals : List Deal) : Prop where
  absent : ∀ {type start}, kept type start → dictFind (info.klines type) start = none →
    dealsOf deals type start = []
  counts : ∀ {type start kinfo}, kept type start → dictFind (info.klines type) start = some kinfo →
    kinfo.Counts (dealsOf deals type start)

/-- Every slot. -/
def allKept (_ : KlineType) (_ : ℤ) : Prop := True

variable {info : MarketInfo} {kept : KlineType → ℤ → Prop} {deals : List Deal} {d : Deal}
  {type : KlineType} {start : ℤ}

theorem dealsOf_append_same (same : klineStart type d.second = start) :
    dealsOf (deals ++ [d]) type start = dealsOf deals type start ++ [d] := by
  simp [dealsOf, same]

theorem dealsOf_append_other (other : klineStart type d.second ≠ start) :
    dealsOf (deals ++ [d]) type start = dealsOf deals type start := by
  simp [dealsOf, other]

theorem MarketInfo.Counted.mem_iff (counted : info.Counted kept deals)
    (here : kept type start) : (dictFind (info.klines type) start).isSome ↔
      ∃ d ∈ deals, klineStart type d.second = start := by
  cases found : dictFind (info.klines type) start with
  | none =>
      have none_ := List.filter_eq_nil_iff.mp (counted.absent here found)
      constructor
      · rintro ⟨⟩
      · rintro ⟨d, mem, same⟩
        exact absurd (decide_eq_true same) (none_ d mem)
  | some kinfo =>
      refine ⟨fun _ => ?_, fun _ => rfl⟩
      have some_ : dealsOf deals type start ≠ [] := by
        intro none_
        apply (counted.counts here found).of.ne_nil
        rw [none_]
        rfl
      rcases List.exists_mem_of_ne_nil _ some_ with ⟨d, mem⟩
      rcases List.mem_filter.mp mem with ⟨mem, same⟩
      exact ⟨d, mem, of_decide_eq_true same⟩

section Count

variable [Libmpdec] [DecimalText] {now : Time} {padding : KlineType → ℕ}

omit [Libmpdec] [DecimalText] in
theorem createMarket_counted (name : String) : (createMarket name).Counted kept [] where
  absent _ _ := rfl
  counts _ found := by
    rw [createMarket, dictFind_empty] at found
    cases found

/-- A deal enters one k-line of each level. -/
theorem MarketInfo.Counted.count (counted : info.Counted kept deals)
    (fit : SumsFit (deals ++ [d])) :
    (info.count now padding d).Counted kept (deals ++ [d]) := by
  constructor
  · intro type start here missing
    simp only [MarketInfo.count, updateKline] at missing
    by_cases same : start = klineStart type (truncate d.timestamp)
    · rw [same, dictFind_replace] at missing
      cases missing
    · rw [dictFind_replace_ne same] at missing
      rw [dealsOf_append_other (Ne.symm same)]
      exact counted.absent here missing
  · intro type start kinfo here found
    simp only [MarketInfo.count, updateKline] at found
    by_cases same : start = klineStart type (truncate d.timestamp)
    · rw [same, dictFind_replace] at found
      obtain rfl := Option.some.inj found
      rw [dealsOf_append_same same.symm]
      have part : SumsFit (dealsOf deals type start ++ [d]) :=
        fit.sublist (List.Sublist.append_right List.filter_sublist _)
      cases before : dictFind (info.klines type) start with
      | none =>
          rw [← same, before, Option.getD_none]
          rw [counted.absent here before] at part ⊢
          exact klineInfoUpdate_counts part
      | some kinfo =>
          rw [← same, before, Option.getD_some]
          exact (counted.counts here before).update part
    · rw [dictFind_replace_ne same] at found
      rw [dealsOf_append_other (Ne.symm same)]
      exact counted.counts here found

/-- The market `name` has counted these deals. -/
def State.Counted (s : State) (name : String) (kept : KlineType → ℤ → Prop)
    (deals : List Deal) : Prop :=
  match dictFind s.markets name with
  | none => deals = []
  | some info => info.Counted kept deals

theorem State.Counted.update {s : State} (counted : s.Counted d.market kept deals)
    (fit : SumsFit (deals ++ [d])) :
    (marketUpdate s now padding d).Counted d.market kept (deals ++ [d]) := by
  unfold State.Counted at counted ⊢
  rw [marketUpdate, dictFind_replace]
  apply MarketInfo.Counted.count _ fit
  cases found : dictFind s.markets d.market with
  | none =>
      rw [found] at counted
      subst counted
      exact createMarket_counted d.market
  | some info =>
      rw [found] at counted
      exact counted

/-- `market_update` for one deal after the other. -/
def updateAll (s : State) (updates : List (Time × (KlineType → ℕ) × Deal)) : State :=
  updates.foldl (fun s u => marketUpdate s u.1 u.2.1 u.2.2) s

/-- A market new at first, after its deals. -/
theorem updateAll_counted {s : State} {name : String} (fresh : dictFind s.markets name = none)
    {updates : List (Time × (KlineType → ℕ) × Deal)}
    (market : ∀ u ∈ updates, u.2.2.market = name) (fit : SumsFit (updates.map fun u => u.2.2)) :
    (updateAll s updates).Counted name kept (updates.map fun u => u.2.2) := by
  induction updates using List.reverseRecOn with
  | nil =>
      unfold State.Counted
      rw [updateAll, List.foldl_nil, fresh]
      rfl
  | append_singleton updates u ih =>
      rw [List.map_append, List.map_singleton] at fit ⊢
      have earlier := ih (fun v mem => market v (List.mem_append_left _ mem))
        (fit.sublist (List.sublist_append_left _ _))
      obtain rfl : u.2.2.market = name :=
        market u (List.mem_append_right _ (List.mem_singleton_self _))
      rw [updateAll, List.foldl_append]
      exact earlier.update fit

end Count

/-! ## One level and the next -/

omit [LocalTime] in
theorem mem_klinesIn_keys {klines : Dict ℤ KlineInfo} {inside : ℤ → Bool} {t : ℤ} :
    t ∈ (klines.keys.filter inside).insertionSort (· ≤ ·) ↔
      (dictFind klines t).isSome ∧ inside t = true := by
  rw [(List.perm_insertionSort _ _).mem_iff, List.mem_filter]
  exact and_congr_left fun _ => AList.mem_keys.symm.trans AList.lookup_isSome.symm

omit [LocalTime] in
theorem klinesIn_keys_sorted (klines : Dict ℤ KlineInfo) (inside : ℤ → Bool) :
    ((klines.keys.filter inside).insertionSort (· ≤ ·)).Pairwise (· < ·) := by
  have nodup : ((klines.keys.filter inside).insertionSort (· ≤ ·)).Nodup :=
    (List.perm_insertionSort _ _).nodup_iff.mpr (klines.keys_nodup.filter _)
  have sorted := List.pairwise_insertionSort (· ≤ ·) (klines.keys.filter inside)
  exact (sorted.and nodup).imp fun both => lt_of_le_of_ne both.1 both.2

variable [Libmpdec]

omit [Libmpdec] in
/-- What is stored at some times, and the deals it counts. -/
theorem MarketInfo.Counted.items (counted : info.Counted kept deals) {times : List ℤ}
    (here : ∀ t ∈ times, kept type t) : ∃ parts,
      List.Forall₂ KlineInfo.Counts (times.filterMap (dictFind (info.klines type))) parts ∧
        parts.flatten = (times.map (dealsOf deals type)).flatten := by
  induction times with
  | nil => exact ⟨[], .nil, rfl⟩
  | cons t times ih =>
      rcases ih fun u mem => here u (List.mem_cons_of_mem _ mem) with ⟨parts, all, same⟩
      have own := here t List.mem_cons_self
      cases found : dictFind (info.klines type) t with
      | none =>
          refine ⟨parts, ?_, ?_⟩
          · rw [List.filterMap_cons_none found]
            exact all
          · rw [List.map_cons, List.flatten_cons, counted.absent own found, List.nil_append, same]
      | some kinfo =>
          refine ⟨dealsOf deals type t :: parts, ?_, ?_⟩
          · rw [List.filterMap_cons_some found]
            exact .cons (counted.counts own found) all
          · rw [List.flatten_cons, List.map_cons, List.flatten_cons, same]

/-- What merging the stored k-lines of some slots gives. -/
theorem mergeAll_klinesIn (counted : info.Counted allKept deals) (fit : SumsFit deals)
    {inside : ℤ → Bool} {part : List Deal}
    (sorted : deals.Pairwise fun d e => klineStart type d.second ≤ klineStart type e.second)
    (same : part = deals.filter fun d => inside (klineStart type d.second)) :
    (part = [] → mergeAll (klinesIn (info.klines type) inside) = none) ∧
      (part ≠ [] → ∃ kinfo, mergeAll (klinesIn (info.klines type) inside) = some kinfo ∧
        kinfo.Counts part) := by
  let slots := ((info.klines type).keys.filter inside).insertionSort (· ≤ ·)
  have stored : ∀ t ∈ slots, (dictFind (info.klines type) t).isSome ∧ inside t = true :=
    fun t mem => mem_klinesIn_keys.mp mem
  have whole : part = (slots.map (dealsOf deals type)).flatten := by
    rw [same]
    apply filter_slots sorted (klinesIn_keys_sorted _ _) fun t mem => (stored t mem).2
    intro d mem here
    exact mem_klinesIn_keys.mpr ⟨(counted.mem_iff trivial).mpr ⟨d, mem, rfl⟩, here⟩
  rcases @MarketInfo.Counted.items _ _ _ _ type counted slots fun _ _ => trivial with
    ⟨parts, all, flat⟩
  rw [← flat] at whole
  have fits : SumsFit parts.flatten := by
    rw [← whole, same]
    exact fit.sublist List.filter_sublist
  rw [whole]
  exact mergeAll_cases all fits

/-- A level is what the one below merges to, where every slot of it consists of slots
of the level below. -/
theorem level_agrees (counted : info.Counted allKept deals) (fit : SumsFit deals)
    {fine coarse : KlineType}
    (sorted : deals.Pairwise fun d e => klineStart fine d.second ≤ klineStart fine e.second)
    (nested : ∀ d ∈ deals, klineStart coarse (klineStart fine d.second) =
      klineStart coarse d.second) (start : ℤ) :
    SameCandle (dictFind (info.klines coarse) start)
      (mergeAll (klinesIn (info.klines fine) fun t => klineStart coarse t = start)) := by
  let inside : ℤ → Bool := fun t => klineStart coarse t = start
  have same : dealsOf deals coarse start = deals.filter fun d =>
      inside (klineStart fine d.second) := by
    apply List.filter_congr
    intro d mem
    simp only [inside]
    rw [nested d mem]
  rcases mergeAll_klinesIn counted fit sorted same with ⟨none_, some_⟩
  cases found : dictFind (info.klines coarse) start with
  | none =>
      rw [none_ (counted.absent trivial found)]
      exact .none
  | some kinfo =>
      have counts := counted.counts trivial found
      have nonempty : dealsOf deals coarse start ≠ [] := by
        intro empty
        rw [empty] at counts
        exact counts.of.ne_nil rfl
      rcases some_ nonempty with ⟨merged, same, counts'⟩
      rw [same]
      exact .some ⟨counts.finite, counts'.finite, counts.of.unique counts'.of⟩

/-! ## The four levels -/

omit [LocalTime] [Libmpdec] in
theorem truncate_mono {a b : ℚ} (le : a ≤ b) : truncate a ≤ truncate b := by
  rcases le_total 0 a with nonneg | neg
  · exact le_truncate (nonneg.trans le) ((truncate_le nonneg).trans le)
  · rcases le_total 0 b with nonneg' | neg'
    · have below : truncate a ≤ 0 := by
        rw [← neg_neg a, truncate_neg]
        have := truncate_nonneg (neg_nonneg.mpr neg)
        omega
      exact below.trans (truncate_nonneg nonneg')
    · have flip : truncate (-b) ≤ truncate (-a) :=
        le_truncate (neg_nonneg.mpr neg)
          ((truncate_le (neg_nonneg.mpr neg')).trans (neg_le_neg le))
      rw [truncate_neg, truncate_neg] at flip
      omega

omit [LocalTime] [Libmpdec] in
/-- Rounding toward zero keeps the order. -/
theorem tdiv_mul_mono {a b step : ℤ} (pos : 0 < step) (le : a ≤ b) :
    a.tdiv step * step ≤ b.tdiv step * step := by
  apply Int.mul_le_mul_of_nonneg_right _ pos.le
  exact Int.tdiv_le_tdiv pos le

omit [LocalTime] [Libmpdec] in
/-- The hour of a minute is the hour of its seconds. -/
theorem hour_of_minute (t : ℤ) : (t.tdiv 60 * 60).tdiv 3600 = t.tdiv 3600 := by
  have past {t : ℤ} (nonneg : 0 ≤ t) : (t.tdiv 60 * 60).tdiv 3600 = t.tdiv 3600 := by
    rw [Int.tdiv_eq_ediv_of_nonneg nonneg, Int.tdiv_eq_ediv_of_nonneg (by omega),
      Int.tdiv_eq_ediv_of_nonneg nonneg]
    omega
  rcases le_total 0 t with nonneg | neg
  · exact past nonneg
  · have flip := @past (-t) (by omega)
    rw [Int.neg_tdiv, Int.neg_mul, Int.neg_tdiv, Int.neg_tdiv] at flip
    omega

end Levels

/-! ## Two deals -/

section Small

attribute [local instance] Libmpdec.reference smallText smallTime

/-- Two units at ten, and three at twelve in the same minute. -/
def smallUpdates : List (Time × (KlineType → ℕ) × Deal) :=
  [(1, fun _ => 0, ⟨121 / 2, "BTCCNY", .ofInt 10, .ofInt 2, .bid, 1⟩),
    (2, fun _ => 0, ⟨201 / 2, "BTCCNY", .ofInt 12, .ofInt 3, .ask, 2⟩)]

/-- Whole sums of less than 34 digits. -/
theorem SumsFit.of_whole {deals : List Deal}
    (finite : (deals.all fun d => d.price.isFinite && d.amount.isFinite) = true)
    (whole : (deals.sublists.all fun part =>
      let volume : ℚ := (part.map fun d => d.amount.value).sum
      let deal : ℚ := (part.map fun d => d.price.value * d.amount.value).sum
      decide ((volume.den = 1 ∧ |volume.num| < 10 ^ mpdPrec) ∧
        deal.den = 1 ∧ |deal.num| < 10 ^ mpdPrec)) = true) : SumsFit deals where
  finite d mem := (Bool.and_eq_true _ _).mp (List.all_eq_true.mp finite d mem)
  volume part sub := SigDigits.of_whole
    (of_decide_eq_true (List.all_eq_true.mp whole part (List.mem_sublists.mpr sub))).1
  deal part sub := SigDigits.of_whole
    (of_decide_eq_true (List.all_eq_true.mp whole part (List.mem_sublists.mpr sub))).2

theorem smallUpdates_fit : SumsFit (smallUpdates.map fun u => u.2.2) :=
  .of_whole (by decide) (by decide +kernel)

end Small

end ViabtcServer.MarketPrice
