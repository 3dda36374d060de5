import ViabtcServer.MarketPrice.Series
import Mathlib.Data.Int.ConditionallyCompleteOrder

/-!
# Months

`get_market_kline_month` goes on to the next month before it knows whether there is a
candle, and does not move the start where there is none: unless the first month has a
day or a day before it is found, the candles are labelled wrong or the loop never ends.
-/

namespace ViabtcServer.MarketPrice

open Decimal Container MatchEngine Chart

/-! ## The months of a query -/

/-- The month `i` months after another. -/
def monthAt (month : ℤ × ℤ) (i : ℕ) : ℤ × ℤ :=
  nextMonth^[i] month

theorem nextMonth_monthAt (month : ℤ × ℤ) (i : ℕ) :
    nextMonth (monthAt month i) = monthAt month (i + 1) :=
  (Function.iterate_succ_apply' nextMonth i month).symm

section Months

variable [LocalTime]

/-- Where that month begins. -/
def monthBegin (month : ℤ × ℤ) (i : ℕ) : ℤ :=
  getMonthStart (monthAt month i)

/-- Every month begins after the one before. -/
def MonthsGrow : Prop :=
  ∀ month, getMonthStart month < getMonthStart (nextMonth month)

/-- The month of a time. -/
def monthOf (t : ℤ) : ℤ × ℤ :=
  ((LocalTime.date t).1, (LocalTime.date t).2.1)

variable {month : ℤ × ℤ} {i j : ℕ} {stop : ℤ} {klines : Dict ℤ KlineInfo}

theorem MonthsGrow.step (grow : MonthsGrow) : monthBegin month i < monthBegin month (i + 1) := by
  unfold monthBegin
  rw [← nextMonth_monthAt]
  exact grow _

theorem MonthsGrow.strictMono (grow : MonthsGrow) : StrictMono (monthBegin month) :=
  strictMono_nat_of_lt_succ fun _ => grow.step

/-- How many months there are up to `stop`. -/
theorem MonthsGrow.exists_count (grow : MonthsGrow) (month : ℤ × ℤ) (stop : ℤ) :
    ∃ count : ℕ, ∀ i, monthBegin month i ≤ stop ↔ i < count := by
  have far : ∃ i, stop < monthBegin month i := by
    have above (i : ℕ) : monthBegin month 0 + i ≤ monthBegin month i := by
      induction i with
      | zero => simp
      | succ i ih =>
          have := @MonthsGrow.step _ month i grow
          push_cast
          omega
    refine ⟨(stop - monthBegin month 0).toNat + 1, ?_⟩
    have := above ((stop - monthBegin month 0).toNat + 1)
    push_cast at this
    omega
  refine ⟨Nat.find far, fun i => ?_⟩
  rw [Nat.lt_find_iff]
  constructor
  · intro le j before
    have early := (grow.strictMono : StrictMono (monthBegin month)).monotone before
    exact not_lt.mpr (early.trans le)
  · intro all
    exact not_lt.mp (all i le_rfl)

/-- The days stored in a month, up to `stop`. -/
def monthDays (klines : Dict ℤ KlineInfo) (stop : ℤ) (month : ℤ × ℤ) (i : ℕ) : List KlineInfo :=
  klinesIn klines fun d => monthBegin month i ≤ d ∧ d < monthBegin month (i + 1) ∧ d ≤ stop

/-- Of these the ones that are whole days from the start of the month. -/
def stepDays (klines : Dict ℤ KlineInfo) (stop : ℤ) (month : ℤ × ℤ) (i : ℕ) : List KlineInfo :=
  klinesIn klines fun d => (monthBegin month i ≤ d ∧ d < monthBegin month (i + 1) ∧ d ≤ stop) ∧
    86400 ∣ d - monthBegin month i

variable [Libmpdec]

/-- The candle of a month: its days merged, or flat at the close of the last day stored
before it. -/
structure MonthCandle (klines : Dict ℤ KlineInfo) (stop : ℤ) (month : ℤ × ℤ) (i : ℕ)
    (kinfo : KlineInfo) : Prop where
  merged : monthDays klines stop month i ≠ [] →
    mergeAll (monthDays klines stop month i) = some kinfo
  flat : monthDays klines stop month i = [] → ∃ u item,
    Nearest klines u (monthBegin month i) u item ∧ kinfo = klineInfoNew item.close

/-- One candle for each month up to `stop`, labelled with its start, but none for months
before the first day stored. -/
def MonthsRight (klines : Dict ℤ KlineInfo) (stop : ℤ) (month : ℤ × ℤ)
    (candles : List (ℤ × KlineInfo)) : Prop :=
  ∃ count skipped, (∀ i, monthBegin month i ≤ stop ↔ i < count) ∧ skipped ≤ count ∧
    (∀ i < skipped, ∀ u, u < monthBegin month (i + 1) → u ≤ stop → dictFind klines u = none) ∧
    ∃ candle : ℕ → KlineInfo,
      candles = (List.range' skipped (count - skipped)).map
        (fun i => (monthBegin month i, candle i)) ∧
      ∀ i, skipped ≤ i → i < count → MonthCandle klines stop month i (candle i)

/-- The days stored in the months of a query are whole days from the start of their
month. -/
def OnWholeDays (klines : Dict ℤ KlineInfo) (stop : ℤ) (month : ℤ × ℤ) : Prop :=
  ∀ i u, monthBegin month i ≤ u → u < monthBegin month (i + 1) → u ≤ stop →
    (dictFind klines u).isSome → 86400 ∣ u - monthBegin month i

omit [LocalTime] [Libmpdec] in
/-- What is stored at sorted times depends on which of them have something stored. -/
theorem filterMap_eq_of_stored {times times' : List ℤ} (sorted : times.Pairwise (· < ·))
    (sorted' : times'.Pairwise (· < ·))
    (same : ∀ u, (dictFind klines u).isSome → (u ∈ times ↔ u ∈ times')) :
    times.filterMap (dictFind klines) = times'.filterMap (dictFind klines) := by
  have only (l : List ℤ) : l.filterMap (dictFind klines) =
      (l.filter fun u => (dictFind klines u).isSome).filterMap (dictFind klines) := by
    rw [List.filterMap_filter]
    apply List.filterMap_congr
    intro u _
    cases dictFind klines u <;> rfl
  rw [only times, only times']
  congr 1
  apply (sorted.filter _).eq_of_mem_iff (sorted'.filter _)
  intro u
  rw [List.mem_filter, List.mem_filter]
  exact and_congr_left fun stored => same u stored

/-- What the loop merges of a month is what is stored on its steps. -/
theorem monthKline_steps (i : ℕ) :
    monthKline klines stop (monthBegin month i) (monthBegin month (i + 1)) =
      mergeAll (stepDays klines stop month i) := by
  unfold monthKline mergeTimes stepDays klinesIn mergeAll
  congr 1
  apply filterMap_eq_of_stored (ticksTo_sorted (by decide)) (klinesIn_keys_sorted _ _)
  intro u stored
  rw [mem_ticksTo (by decide), mem_klinesIn_keys, decide_eq_true_eq]
  constructor
  · rintro ⟨above, below, whole⟩
    exact ⟨stored, ⟨above, by omega, by omega⟩, whole⟩
  · rintro ⟨_, ⟨above, below, before⟩, whole⟩
    exact ⟨above, by omega, whole⟩

/-- Where days are whole days apart these are the days of the month. -/
theorem monthKline_eq (whole : OnWholeDays klines stop month) (i : ℕ) :
    monthKline klines stop (monthBegin month i) (monthBegin month (i + 1)) =
      mergeAll (monthDays klines stop month i) := by
  rw [monthKline_steps]
  congr 1
  apply filterMap_eq_of_stored (klinesIn_keys_sorted _ _) (klinesIn_keys_sorted _ _)
  intro u stored
  rw [mem_klinesIn_keys, mem_klinesIn_keys, decide_eq_true_eq, decide_eq_true_eq]
  constructor
  · rintro ⟨_, inside, _⟩
    exact ⟨stored, inside⟩
  · rintro ⟨_, above, below, before⟩
    exact ⟨stored, ⟨above, below, before⟩, whole i u above below before stored⟩

omit [LocalTime] in
/-- A month has a candle precisely when it has days. -/
theorem mergeAll_eq_none {items : List KlineInfo} : mergeAll items = none ↔ items = [] := by
  cases items using List.reverseRecOn with
  | nil => exact ⟨fun _ => rfl, fun _ => rfl⟩
  | append_singleton items item =>
      rw [mergeAll, List.foldl_append]
      simp [mergeItem]

omit [Libmpdec] in
theorem monthDays_eq_nil (empty : monthDays klines stop month i = []) {u : ℤ}
    (above : monthBegin month i ≤ u) (below : u < monthBegin month (i + 1)) (before : u ≤ stop) :
    dictFind klines u = none := by
  cases found : dictFind klines u with
  | none => rfl
  | some item =>
      have here : u ∈ ((klines.keys.filter fun d => monthBegin month i ≤ d ∧
          d < monthBegin month (i + 1) ∧ d ≤ stop).insertionSort (· ≤ ·)) :=
        mem_klinesIn_keys.mpr ⟨by rw [found]; rfl, decide_eq_true ⟨above, below, before⟩⟩
      rw [← found]
      exact List.filterMap_eq_nil_iff.mp empty u here

/-! ## The loop -/

/-- `klast` closes where the last day before `t` does. -/
def ClosesAt (klines : Dict ℤ KlineInfo) (t : ℤ) (klast : KlineInfo) : Prop :=
  ∃ u item, Nearest klines u t u item ∧ klast.close = item.close

omit [LocalTime] in
/-- A merge closes where its last item does. -/
theorem mergeAll_close {items : List KlineInfo} {kinfo : KlineInfo}
    (merged : mergeAll items = some kinfo) :
    items.getLast?.map KlineInfo.close = some kinfo.close := by
  cases items using List.reverseRecOn with
  | nil => cases merged
  | append_singleton items item =>
      rw [mergeAll, List.foldl_append] at merged
      obtain rfl := Option.some.inj merged
      rw [List.getLast?_concat]
      rfl

/-- The candle of a month leaves the close for the next one. -/
theorem MonthCandle.closes {kinfo : KlineInfo} (candle : MonthCandle klines stop month i kinfo)
    (grow : MonthsGrow) (next : monthBegin month (i + 1) ≤ stop) :
    ClosesAt klines (monthBegin month (i + 1)) kinfo := by
  have step := @MonthsGrow.step _ month i grow
  by_cases empty : monthDays klines stop month i = []
  · rcases candle.flat empty with ⟨u, item, near, rfl⟩
    refine ⟨u, item, ⟨near.stored, ⟨le_rfl, by have := near.inside.2; omega⟩, ?_⟩, rfl⟩
    intro v above below
    by_cases before : v < monthBegin month i
    · exact near.last v above before
    · exact monthDays_eq_nil empty (not_lt.mp before) below (by omega)
  · rcases Option.map_eq_some_iff.mp (mergeAll_close (candle.merged empty)) with
      ⟨item, last, close⟩
    rcases exists_last (klinesIn_keys_sorted _ _) last with ⟨u, mem, stored, none_⟩
    rcases of_decide_eq_true (mem_klinesIn_keys.mp mem).2 with ⟨above, below, _⟩
    refine ⟨u, item, ⟨stored, ⟨le_rfl, below⟩, ?_⟩, close.symm⟩
    intro v later before
    cases found : dictFind klines v with
    | none => rfl
    | some other =>
        rw [← found]
        apply none_ v _ later
        exact mem_klinesIn_keys.mpr
          ⟨by rw [found]; rfl, decide_eq_true ⟨by omega, before, by omega⟩⟩

/-- One round of the loop where there is a candle. -/
theorem monthLoop_candle (whole : OnWholeDays klines stop month)
    (inside : monthBegin month i ≤ stop)
    {klast : Option KlineInfo} (known : monthDays klines stop month i = [] →
      ∃ k, klast = some k ∧ ClosesAt klines (monthBegin month i) k) :
    ∃ kinfo, MonthCandle klines stop month i kinfo ∧
      ∀ fuel, monthLoop klines stop (fuel + 1) (monthBegin month i) (monthAt month i) klast =
        (monthLoop klines stop fuel (monthBegin month (i + 1)) (monthAt month (i + 1))
          (some kinfo)).map ((monthBegin month i, kinfo) :: ·) := by
  have merged : monthKline klines stop (monthBegin month i)
      (getMonthStart (monthAt month (i + 1))) = mergeAll (monthDays klines stop month i) :=
    monthKline_eq whole i
  by_cases empty : monthDays klines stop month i = []
  · rcases known empty with ⟨k, rfl, u, item, near, close⟩
    refine ⟨klineInfoNew k.close, ⟨fun full => absurd empty full, fun _ => ?_⟩, ?_⟩
    · exact ⟨u, item, near, by rw [close]⟩
    · intro fuel
      rw [empty] at merged
      simp only [monthLoop, if_pos inside, nextMonth_monthAt, merged]
      rfl
  · cases same : mergeAll (monthDays klines stop month i) with
    | none => exact absurd (mergeAll_eq_none.mp same) empty
    | some kinfo =>
        refine ⟨kinfo, ⟨fun _ => same, fun none_ => absurd none_ empty⟩, ?_⟩
        intro fuel
        rw [same] at merged
        simp only [monthLoop, if_pos inside, nextMonth_monthAt, merged]
        rfl

/-- From a month with a candle on, the loop makes one candle for each month. -/
theorem monthLoop_regular (grow : MonthsGrow) (whole : OnWholeDays klines stop month) {count : ℕ}
    (upTo : ∀ i, monthBegin month i ≤ stop ↔ i < count) (rounds : ℕ) :
    ∀ i, i + rounds = count → ∀ klast : Option KlineInfo,
      (i < count → monthDays klines stop month i = [] →
        ∃ k, klast = some k ∧ ClosesAt klines (monthBegin month i) k) →
      ∃ candle : ℕ → KlineInfo,
        (∀ fuel, rounds ≤ fuel →
          monthLoop klines stop fuel (monthBegin month i) (monthAt month i) klast =
            some ((List.range' i rounds).map fun j => (monthBegin month j, candle j))) ∧
        ∀ j, i ≤ j → j < count → MonthCandle klines stop month j (candle j) := by
  induction rounds with
  | zero =>
      intro i same klast _
      have past : ¬ monthBegin month i ≤ stop := fun le => by
        have := (upTo i).mp le
        omega
      refine ⟨fun _ => klineInfoNew mpdZero, ?_, fun j above below => by omega⟩
      intro fuel _
      cases fuel <;> simp only [monthLoop, if_neg past] <;> rfl
  | succ rounds ih =>
      intro i same klast known
      have inside := (upTo i).mpr (by omega)
      rcases monthLoop_candle whole inside (known (by omega)) with ⟨kinfo, own, step⟩
      have next : i + 1 < count → monthDays klines stop month (i + 1) = [] →
          ∃ k, some kinfo = some k ∧ ClosesAt klines (monthBegin month (i + 1)) k :=
        fun before _ => ⟨kinfo, rfl, own.closes grow ((upTo (i + 1)).mpr before)⟩
      rcases ih (i + 1) (by omega) (some kinfo) next with ⟨candle, run, rest⟩
      refine ⟨Function.update candle i kinfo, ?_, ?_⟩
      · intro fuel enough
        cases fuel with
        | zero => omega
        | succ fuel =>
            rw [step, run fuel (by omega), Option.map_some, List.range'_succ, List.map_cons,
              Function.update_self]
            congr 2
            apply List.map_congr_left
            intro j mem
            have above := (List.mem_range'_1.mp mem).1
            rw [Function.update_of_ne (by omega)]
      · intro j above below
        by_cases first : j = i
        · subst first
          rw [Function.update_self]
          exact own
        · rw [Function.update_of_ne first]
          exact rest j (by omega) below

/-- Without a candle the start stays where it is: the first candle, if it ever comes, has
the label of the first month and days of a later one. -/
theorem monthLoop_stuck (inside : monthBegin month 0 ≤ stop) :
    ∀ (fuel i : ℕ) {candles : List (ℤ × KlineInfo)},
      monthLoop klines stop fuel (monthBegin month 0) (monthAt month i) none = some candles →
      ∃ j kinfo rest fuel', i ≤ j ∧ candles = (monthBegin month 0, kinfo) :: rest ∧
        (∀ e, i ≤ e → e < j →
          monthKline klines stop (monthBegin month 0) (monthBegin month (e + 1)) = none) ∧
        monthKline klines stop (monthBegin month 0) (monthBegin month (j + 1)) = some kinfo ∧
        monthLoop klines stop fuel' (monthBegin month (j + 1)) (monthAt month (j + 1))
          (some kinfo) = some rest := by
  intro fuel
  induction fuel with
  | zero =>
      intro i candles run
      simp only [monthLoop, if_pos inside] at run
      cases run
  | succ fuel ih =>
      intro i candles run
      simp only [monthLoop, if_pos inside, nextMonth_monthAt] at run
      cases found : monthKline klines stop (monthBegin month 0)
          (getMonthStart (monthAt month (i + 1))) with
      | some kinfo =>
          simp only [found] at run
          rcases Option.map_eq_some_iff.mp run with ⟨rest, tail, rfl⟩
          exact ⟨i, kinfo, rest, fuel, le_rfl, rfl, fun e _ _ => by omega, found, tail⟩
      | none =>
          simp only [found] at run
          rcases ih (i + 1) run with ⟨j, kinfo, rest, fuel', after, first, nothing, rest_⟩
          refine ⟨j, kinfo, rest, fuel', by omega, first, ?_, rest_⟩
          intro e above below
          by_cases same : e = i
          · subst same
            exact found
          · exact nothing e (by omega) below

/-- What the loop makes of a month after a candle that closed at `price`. -/
def madeOf (klines : Dict ℤ KlineInfo) (stop : ℤ) (month : ℤ × ℤ) (i : ℕ) (price : Mpd) :
    KlineInfo :=
  (monthKline klines stop (monthBegin month i) (monthBegin month (i + 1))).getD (klineInfoNew price)

/-- One round after a candle. -/
theorem monthLoop_round {fuel : ℕ} {klast : KlineInfo} {candles : List (ℤ × KlineInfo)}
    (run : monthLoop klines stop fuel (monthBegin month i) (monthAt month i) (some klast) =
      some candles) :
    stop < monthBegin month i ∧ candles = [] ∨
      ∃ fuel' rest,
        candles = (monthBegin month i, madeOf klines stop month i klast.close) :: rest ∧
        monthLoop klines stop fuel' (monthBegin month (i + 1)) (monthAt month (i + 1))
          (some (madeOf klines stop month i klast.close)) = some rest := by
  unfold madeOf
  by_cases inside : monthBegin month i ≤ stop
  · right
    cases fuel with
    | zero => cases (by simpa only [monthLoop, if_pos inside] using run : none = some candles)
    | succ fuel =>
        have next : getMonthStart (monthAt month (i + 1)) = monthBegin month (i + 1) := rfl
        simp only [monthLoop, if_pos inside, nextMonth_monthAt, next] at run
        cases found : monthKline klines stop (monthBegin month i) (monthBegin month (i + 1)) with
        | some kinfo =>
            simp only [found] at run
            rcases Option.map_eq_some_iff.mp run with ⟨rest, tail, rfl⟩
            exact ⟨fuel, rest, rfl, tail⟩
        | none =>
            simp only [found] at run
            rcases Option.map_eq_some_iff.mp run with ⟨rest, tail, rfl⟩
            exact ⟨fuel, rest, rfl, tail⟩
  · left
    refine ⟨not_le.mp inside, ?_⟩
    cases fuel with
    | zero =>
        simp only [monthLoop, if_neg inside] at run
        exact (Option.some.inj run).symm
    | succ fuel =>
        simp only [monthLoop, if_neg inside] at run
        exact (Option.some.inj run).symm

/-- Candles labelled month by month are made one from the other. -/
theorem monthLoop_made {candle : ℕ → KlineInfo} (n : ℕ) :
    ∀ {i fuel : ℕ} {klast : KlineInfo},
      monthLoop klines stop fuel (monthBegin month i) (monthAt month i) (some klast) =
        some ((List.range' i n).map fun j => (monthBegin month j, candle j)) →
      ∀ j, i ≤ j → j < i + n → ∃ price, candle j = madeOf klines stop month j price := by
  induction n with
  | zero =>
      intro i fuel klast _ j above below
      omega
  | succ n ih =>
      intro i fuel klast run j above below
      rw [List.range'_succ, List.map_cons] at run
      rcases monthLoop_round run with ⟨_, nothing⟩ | ⟨fuel', rest, same, tail⟩
      · cases nothing
      · rcases List.cons.inj same with ⟨head, rfl⟩
        by_cases first : j = i
        · subst first
          exact ⟨_, (Prod.mk.inj head).2⟩
        · exact ih tail j (by omega) (by omega)

omit [Libmpdec] in
/-- A first label says which months are skipped. -/
theorem labels_head (grow : MonthsGrow) {first count skipped : ℕ} {kinfo : KlineInfo}
    {rest : List (ℤ × KlineInfo)} {candle : ℕ → KlineInfo}
    (same : (monthBegin month first, kinfo) :: rest =
      (List.range' skipped (count - skipped)).map fun i => (monthBegin month i, candle i)) :
    skipped = first ∧ first < count ∧ kinfo = candle first ∧
      rest = (List.range' (first + 1) (count - (first + 1))).map
        fun i => (monthBegin month i, candle i) := by
  cases left : count - skipped with
  | zero => rw [left] at same; cases same
  | succ n =>
      rw [left, List.range'_succ, List.map_cons] at same
      rcases List.cons.inj same with ⟨head, tail⟩
      rcases Prod.mk.inj head with ⟨label, content⟩
      obtain rfl := (grow.strictMono : StrictMono (monthBegin month)).injective label
      refine ⟨rfl, by omega, content, ?_⟩
      rw [tail, show count - (first + 1) = n by omega]

omit [LocalTime] in
/-- A month's candle has something stored in it. -/
theorem monthKline_stored {t t' : ℤ} {kinfo : KlineInfo}
    (some_ : monthKline klines stop t t' = some kinfo) :
    ∃ u, (t ≤ u ∧ u < t' ∧ u ≤ stop ∧ 86400 ∣ u - t) ∧ (dictFind klines u).isSome := by
  unfold monthKline mergeTimes at some_
  cases items : (ticksTo t (min (t' - 1) stop) 86400).filterMap (dictFind klines) with
  | nil => rw [items] at some_; cases some_
  | cons item rest =>
      have mem : item ∈ (ticksTo t (min (t' - 1) stop) 86400).filterMap (dictFind klines) := by
        rw [items]
        exact List.mem_cons_self
      rcases List.mem_filterMap.mp mem with ⟨u, here, stored⟩
      rcases (mem_ticksTo (by decide)).mp here with ⟨above, below, whole⟩
      exact ⟨u, ⟨above, by omega, by omega, whole⟩, by rw [stored]; rfl⟩

omit [LocalTime] in
/-- What is stored on the steps of a month is merged. -/
theorem monthKline_none {t t' u : ℤ} (none_ : monthKline klines stop t t' = none) (above : t ≤ u)
    (below : u < t') (before : u ≤ stop) (whole : 86400 ∣ u - t) : dictFind klines u = none := by
  unfold monthKline mergeTimes at none_
  have empty : (ticksTo t (min (t' - 1) stop) 86400).filterMap (dictFind klines) = [] :=
    mergeAll_eq_none.mp none_
  exact List.filterMap_eq_nil_iff.mp empty u
    ((mem_ticksTo (by decide)).mpr ⟨above, by omega, whole⟩)

/-- Where the labels are those of the months none is skipped, and each candle is made of
its own month. -/
theorem made_of_labels (grow : MonthsGrow) (inside : monthBegin month 0 ≤ stop) {fuel : ℕ}
    {klast : Option KlineInfo} {count skipped : ℕ} {candle : ℕ → KlineInfo}
    (upTo : ∀ i, monthBegin month i ≤ stop ↔ i < count)
    (run : monthLoop klines stop fuel (monthBegin month 0) (monthAt month 0) klast =
      some ((List.range' skipped (count - skipped)).map fun i => (monthBegin month i, candle i))) :
    skipped = 0 ∧
      (∀ i < count, ∃ price, candle i = madeOf klines stop month i price) ∧
      (monthKline klines stop (monthBegin month 0) (monthBegin month 1) = none →
        ∃ k, klast = some k ∧ candle 0 = klineInfoNew k.close) := by
  have whole {kinfo : KlineInfo} {rest : List (ℤ × KlineInfo)} {fuel' : ℕ}
      (same : (List.range' skipped (count - skipped)).map
        (fun i => (monthBegin month i, candle i)) = (monthBegin month 0, kinfo) :: rest)
      (own : ∃ price, kinfo = madeOf klines stop month 0 price)
      (tail : monthLoop klines stop fuel' (monthBegin month 1) (monthAt month 1) (some kinfo) =
        some rest) :
      skipped = 0 ∧ ∀ i < count, ∃ price, candle i = madeOf klines stop month i price := by
    rcases labels_head grow same.symm with ⟨none_, some_, head, rest_⟩
    refine ⟨none_, fun i below => ?_⟩
    cases i with
    | zero => rw [← head]; exact own
    | succ i =>
        rw [rest_] at tail
        exact monthLoop_made _ tail (i + 1) (by omega) (by omega)
  cases klast with
  | some klast =>
      rcases monthLoop_round run with ⟨past, _⟩ | ⟨fuel', rest, same, tail⟩
      · omega
      · rcases whole same ⟨_, rfl⟩ tail with ⟨none_, all⟩
        refine ⟨none_, all, fun nothing => ⟨klast, rfl, ?_⟩⟩
        rw [← (labels_head grow same.symm).2.2.1]
        unfold madeOf
        rw [zero_add, nothing]
        rfl
  | none =>
      rcases monthLoop_stuck inside fuel 0 run with
        ⟨j, kinfo, rest, fuel', _, same, nothing, later, tail⟩
      cases j with
      | zero =>
          rcases whole same ⟨mpdZero, by unfold madeOf; rw [later]; rfl⟩ tail with ⟨none_, all⟩
          refine ⟨none_, all, fun nothing => ?_⟩
          cases later.symm.trans nothing
      | succ j =>
          -- the second label is that of a month after the second one
          rcases monthKline_stored later with ⟨u, ⟨above, _, before, grid⟩, stored⟩
          have outside : monthBegin month 1 ≤ u := by
            by_contra within
            rw [monthKline_none (nothing 0 le_rfl (by omega)) above (not_le.mp within) before grid]
              at stored
            cases stored
          have two : 1 < count := (upTo 1).mp (outside.trans before)
          rcases labels_head grow same.symm with ⟨_, _, _, rest_⟩
          rcases monthLoop_round tail with ⟨_, rfl⟩ | ⟨fuel'', rest', rfl, _⟩
          · have := congrArg List.length rest_
            simp only [List.length_nil, List.length_map, List.length_range'] at this
            omega
          · have := (labels_head grow rest_).1
            omega

/-! ## Days off the steps -/

/-- The stored days are of deals with positive amounts, whose sums are exact. -/
structure DaysCounted (klines : Dict ℤ KlineInfo) : Prop where
  sane : ∀ u item, dictFind klines u = some item → item.Sane
  positive : ∀ u item, dictFind klines u = some item → 0 < item.volume.value
  digits : ∀ items : List KlineInfo, items.Sublist (klinesIn klines fun _ => true) →
    SigDigits mpdCtx ((items.map fun i => i.volume.value).sum)

omit [LocalTime] [Libmpdec] in
/-- The stored k-lines of some times are among all. -/
theorem klinesIn_sublist {p q : ℤ → Bool} (part : ∀ t, p t = true → q t = true) :
    (klinesIn klines p).Sublist (klinesIn klines q) := by
  apply List.Sublist.filterMap
  apply List.sublist_of_subperm_of_pairwise _ (klinesIn_keys_sorted _ _) (klinesIn_keys_sorted _ _)
  apply List.subperm_of_subset ((klinesIn_keys_sorted _ _).imp fun less => less.ne)
  intro t mem
  rcases mem_klinesIn_keys.mp mem with ⟨stored, here⟩
  exact mem_klinesIn_keys.mpr ⟨stored, part t here⟩

omit [LocalTime] [Libmpdec] in
theorem klinesIn_perm (p : ℤ → Bool) :
    (klinesIn klines p).Perm ((klines.keys.filter p).filterMap (dictFind klines)) :=
  (List.perm_insertionSort _ _).filterMap _

omit [LocalTime] in
/-- The volume of merged days is their sum. -/
theorem DaysCounted.volume (days : DaysCounted klines) {p : ℤ → Bool} {kinfo : KlineInfo}
    (merged : mergeAll (klinesIn klines p) = some kinfo) :
    kinfo.volume.value = ((klinesIn klines p).map fun i => i.volume.value).sum := by
  have sane : ∀ item ∈ klinesIn klines p, item.Sane := by
    intro item mem
    rcases List.mem_filterMap.mp mem with ⟨u, _, stored⟩
    exact days.sane u item stored
  have some_ : klinesIn klines p ≠ [] := by
    intro empty
    rw [mergeAll_eq_none.mpr empty] at merged
    cases merged
  rcases mergeAll_merges some_ sane with ⟨kinfo', merged', merges⟩
  obtain rfl := Option.some.inj (merged.symm.trans merged')
  apply (merges.exact sane).1
  intro n
  apply days.digits
  exact (List.take_sublist n _).trans (klinesIn_sublist fun _ _ => rfl)

omit [LocalTime] [Libmpdec] in
/-- Without one of the days the sum is less. -/
theorem DaysCounted.lost (days : DaysCounted klines) {p q : ℤ → Bool}
    (part : ∀ t, p t = true → q t = true) {u : ℤ} (stored : (dictFind klines u).isSome)
    (only : q u = true) (off : p u = false) :
    ((klinesIn klines p).map fun i => i.volume.value).sum <
      ((klinesIn klines q).map fun i => i.volume.value).sum := by
  rcases Option.isSome_iff_exists.mp stored with ⟨item, found⟩
  have positive : ∀ r : ℤ → Bool, ∀ v ∈ (klinesIn klines r).map fun i => i.volume.value, 0 < v := by
    intro r v mem
    rcases List.mem_map.mp mem with ⟨i, here, rfl⟩
    rcases List.mem_filterMap.mp here with ⟨t, _, at_⟩
    exact days.positive t i at_
  let left := fun t => q t && !p t
  have split : (klinesIn klines q).Perm (klinesIn klines p ++ klinesIn klines left) := by
    have keys := (List.filter_append_perm p (klines.keys.filter q)).symm
    rw [List.filter_filter, List.filter_filter] at keys
    have inner : klines.keys.filter (fun t => p t && q t) = klines.keys.filter p := by
      apply List.filter_congr
      intro t _
      cases here : p t with
      | false => rfl
      | true => rw [part t here]; rfl
    have outer : klines.keys.filter (fun t => !p t && q t) = klines.keys.filter left := by
      apply List.filter_congr
      intro t _
      exact Bool.and_comm _ _
    rw [inner, outer] at keys
    have stored := keys.filterMap (dictFind klines)
    rw [List.filterMap_append] at stored
    exact (klinesIn_perm q).trans
      (stored.trans ((klinesIn_perm p).symm.append (klinesIn_perm left).symm))
  rw [(split.map _).sum_eq, List.map_append, List.sum_append, lt_add_iff_pos_right]
  have mem : item ∈ klinesIn klines left := by
    refine List.mem_filterMap.mpr ⟨u, mem_klinesIn_keys.mpr ⟨stored, ?_⟩, found⟩
    simp only [left, only, off, Bool.not_false, Bool.and_self]
  exact (days.positive u item found).trans_le
    (List.single_le_sum (fun v here => (positive left v here).le) _
      (List.mem_map_of_mem (f := fun i : KlineInfo => i.volume.value) mem))

/-- A month with a day off the steps does not get its candle. -/
theorem DaysCounted.off (days : DaysCounted klines) {u : ℤ} (above : monthBegin month i ≤ u)
    (below : u < monthBegin month (i + 1)) (before : u ≤ stop)
    (stored : (dictFind klines u).isSome) (off : ¬ 86400 ∣ u - monthBegin month i) (price : Mpd) :
    mergeAll (monthDays klines stop month i) ≠ some (madeOf klines stop month i price) := by
  intro merged
  have part : ∀ t, decide ((monthBegin month i ≤ t ∧ t < monthBegin month (i + 1) ∧ t ≤ stop) ∧
      86400 ∣ t - monthBegin month i) = true →
      decide (monthBegin month i ≤ t ∧ t < monthBegin month (i + 1) ∧ t ≤ stop) = true :=
    fun t here => decide_eq_true (of_decide_eq_true here).1
  have less : ((stepDays klines stop month i).map fun i => i.volume.value).sum <
      ((monthDays klines stop month i).map fun i => i.volume.value).sum :=
    days.lost part stored (decide_eq_true ⟨above, below, before⟩)
      (decide_eq_false fun here => off here.2)
  have volume := days.volume merged
  rw [show ((klinesIn klines fun d => monthBegin month i ≤ d ∧ d < monthBegin month (i + 1) ∧
    d ≤ stop) = monthDays klines stop month i) from rfl] at volume
  rw [← volume] at less
  unfold madeOf at less
  rw [monthKline_steps] at less
  cases steps : mergeAll (stepDays klines stop month i) with
  | none =>
      rw [steps, mergeAll_eq_none.mp steps] at less
      exact less.ne mpdZero_value.symm
  | some kinfo =>
      rw [steps, Option.getD_some, days.volume steps] at less
      exact lt_irrefl _ less

/-- The search finds a day before the first month, and its close is that of the last day
stored before it. -/
def FindsLastDay (klines : Dict ℤ KlineInfo) (start : ℤ) (month : ℤ × ℤ) : Prop :=
  ∃ kbefor, getLastKline klines (monthBegin month 0 - 86400) (start - 86400 * 30) 86400 =
    some kbefor ∧ ClosesAt klines (monthBegin month 0) kbefor

/-- The loop ends with the right candles where the days stored are whole days from the
start of their month and there is a day in the first month up to `stop`, or the search
before it finds the last close. Where the sums of positive amounts are exact it does
only there. -/
theorem months_right_iff {info : MarketInfo} {start : ℤ} (grow : MonthsGrow) :
    let right := ∃ fuel candles, getMarketKlineMonth fuel info start stop = some candles ∧
      MonthsRight (info.klines .day) stop (monthOf start) candles
    let condition := OnWholeDays (info.klines .day) stop (monthOf start) ∧
      (monthBegin (monthOf start) 0 ≤ stop →
        monthDays (info.klines .day) stop (monthOf start) 0 ≠ [] ∨
          FindsLastDay (info.klines .day) start (monthOf start))
    (condition → right) ∧ (DaysCounted (info.klines .day) → (right ↔ condition)) := by
  have enough : OnWholeDays (info.klines .day) stop (monthOf start) ∧
      (monthBegin (monthOf start) 0 ≤ stop →
        monthDays (info.klines .day) stop (monthOf start) 0 ≠ [] ∨
          FindsLastDay (info.klines .day) start (monthOf start)) →
      ∃ fuel candles, getMarketKlineMonth fuel info start stop = some candles ∧
        MonthsRight (info.klines .day) stop (monthOf start) candles := by
    rintro ⟨whole, either⟩
    rcases grow.exists_count (monthOf start) stop with ⟨count, upTo⟩
    have known : 0 < count → monthDays (info.klines .day) stop (monthOf start) 0 = [] →
        ∃ k, getLastKline (info.klines .day) (monthBegin (monthOf start) 0 - 86400)
          (start - 86400 * 30) 86400 = some k ∧
          ClosesAt (info.klines .day) (monthBegin (monthOf start) 0) k := by
      intro some_ empty
      rcases either ((upTo 0).mpr some_) with full | finds
      · exact absurd empty full
      · exact finds
    rcases monthLoop_regular grow whole upTo count 0 (zero_add _) _ known with
      ⟨candle, run, right⟩
    refine ⟨count, _, run count le_rfl, count, 0, upTo, Nat.zero_le _, ?_, candle, rfl, right⟩
    intro i before
    omega
  refine ⟨enough, fun days => ⟨?_, enough⟩⟩
  rintro ⟨fuel, _, run, count, skipped, upTo, _, _, candle, rfl, right⟩
  by_cases inside : monthBegin (monthOf start) 0 ≤ stop
  · rcases made_of_labels grow inside upTo run with ⟨rfl, made, first⟩
    have whole : OnWholeDays (info.klines .day) stop (monthOf start) := by
      intro i u above below before stored
      by_contra off
      have here : i < count := (upTo i).mp (above.trans before)
      rcases made i here with ⟨price, same⟩
      have some_ : monthDays (info.klines .day) stop (monthOf start) i ≠ [] := by
        intro empty
        rw [monthDays_eq_nil empty above below before] at stored
        cases stored
      apply days.off above below before stored off price
      rw [← same]
      exact (right i (Nat.zero_le _) here).merged some_
    refine ⟨whole, fun _ => ?_⟩
    by_cases empty : monthDays (info.klines .day) stop (monthOf start) 0 = []
    · right
      have nothing := monthKline_eq whole 0
      rw [empty] at nothing
      rcases first nothing with ⟨kbefor, found, flat⟩
      rcases (right 0 le_rfl ((upTo 0).mp inside)).flat empty with ⟨u, item, near, same⟩
      have close := congrArg KlineInfo.close (flat.symm.trans same)
      exact ⟨kbefor, found, u, item, near, close⟩
    · exact Or.inl empty
  · refine ⟨fun i u above below before _ => ?_, fun first => absurd first inside⟩
    have later := (grow.strictMono : StrictMono (monthBegin (monthOf start))).monotone
      (Nat.zero_le i)
    omega

end Months

/-! ## A first month without a day -/

section Small

/-- The days from March 1st of the year 0 to the first of a month, months counted from
January of the year 0. -/
def daysBefore (months : ℤ) : ℤ :=
  let year := (months - 2) / 12
  let month := (months - 2) % 12
  365 * year + year / 4 - year / 100 + year / 400 + (153 * month + 2) / 5

theorem daysBefore_lt (months : ℤ) : daysBefore months < daysBefore (months + 1) := by
  simp only [daysBefore]
  omega

/-- The calendar of UTC. -/
@[reducible]
def utcTime : LocalTime where
  date t :=
    let days := t / 86400 + 719468
    let era := days / 146097
    let day := days % 146097
    let year := (day - day / 1460 + day / 36524 - day / 146096) / 365
    let rest := day - (365 * year + year / 4 - year / 100)
    let month := (5 * rest + 2) / 153
    let first := rest - (153 * month + 2) / 5
    (era * 400 + year - 1900 + (month + 2) / 12, (month + 2) % 12, first + 1)
  mktime day := (daysBefore (12 * (day.1 + 1900) + day.2.1) - 719468 + day.2.2 - 1) * 86400

attribute [local instance] Libmpdec.reference smallText utcTime

theorem utcTime_grow : MonthsGrow := by
  intro month
  have less := daysBefore_lt (12 * (month.1 + 1900) + month.2)
  simp only [getMonthStart, nextMonth, LocalTime.mktime]
  split
  case isTrue last =>
    rw [last] at less ⊢
    rw [show 12 * (month.1 + 1 + 1900) + 0 = 12 * (month.1 + 1900) + 11 + 1 by ring]
    omega
  case isFalse =>
    change _ < (daysBefore (12 * (month.1 + 1900) + (month.2 + 1)) - 719468 + 1 - 1) * 86400
    rw [← add_assoc]
    omega

example : LocalTime.date 1709164800 = (124, 1, 29) ∧
    LocalTime.mktime (124, 1, 29) = 1709164800 := by
  decide +kernel

/-- A market with one day, the `n`th of 1970. -/
def dayMarket (n : ℤ) : MarketInfo :=
  { createMarket "BTCCNY" with
    klines := fun
      | .day => dictReplace ∅ (n * 86400) { klineInfoNew mpdTen with volume := mpdTen }
      | _ => ∅ }

/-- With a day in February and none in January, the candle of February is labelled as the
one of January. -/
theorem february_as_january : ¬ ∀ {info : MarketInfo} {start stop : ℤ}, 0 < start → start ≤ stop →
    ∃ fuel candles, getMarketKlineMonth fuel info start stop = some candles ∧
      MonthsRight (info.klines .day) stop (monthOf start) candles := by
  intro all
  rcases @all (dayMarket 40) (10 * 86400) (70 * 86400) (by decide) (by decide) with
    ⟨fuel, _, run, count, skipped, upTo, _, _, candle, rfl, _⟩
  have empty : monthKline ((dayMarket 40).klines .day) (70 * 86400)
      (monthBegin (monthOf (10 * 86400)) 0) (monthBegin (monthOf (10 * 86400)) 1) = none := by
    decide +kernel
  have missed : getLastKline ((dayMarket 40).klines .day)
      (monthBegin (monthOf (10 * 86400)) 0 - 86400) (10 * 86400 - 86400 * 30) 86400 = none := by
    decide +kernel
  rcases (made_of_labels utcTime_grow (by decide +kernel) upTo run).2.2 empty with ⟨k, found, _⟩
  cases missed.symm.trans found

theorem dayMarket_find {n u : ℤ} {item : KlineInfo}
    (found : dictFind ((dayMarket n).klines .day) u = some item) :
    u = n * 86400 ∧ item = { klineInfoNew mpdTen with volume := mpdTen } := by
  change dictFind (dictReplace ∅ (n * 86400) _) u = some item at found
  by_cases same : u = n * 86400
  · subst same
    rw [dictFind_replace] at found
    exact ⟨rfl, (Option.some.inj found).symm⟩
  · rw [dictFind_replace_ne same, dictFind_empty] at found
    cases found

theorem months_right_small :
    ∃ fuel candles, getMarketKlineMonth fuel (dayMarket 4) (10 * 86400) (70 * 86400) =
      some candles ∧
      MonthsRight ((dayMarket 4).klines .day) (70 * 86400) (monthOf (10 * 86400)) candles := by
  have days : DaysCounted ((dayMarket 4).klines .day) := by
    refine ⟨?_, ?_, ?_⟩
    · intro u item found
      rcases dayMarket_find found with ⟨_, rfl⟩
      have finite : (klineInfoNew mpdTen).IsFinite := klineInfoNew_isFinite rfl
      exact ⟨{ finite with volume := rfl }, le_rfl, le_rfl⟩
    · intro u item found
      rcases dayMarket_find found with ⟨_, rfl⟩
      decide +kernel
    · intro items part
      rcases List.sublist_singleton.mp part with rfl | rfl
      · exact SigDigits.of_whole (by decide +kernel)
      · exact SigDigits.of_whole (by decide +kernel)
  have whole : OnWholeDays ((dayMarket 4).klines .day) (70 * 86400) (monthOf (10 * 86400)) := by
    intro i u above below before stored
    rcases Option.isSome_iff_exists.mp stored with ⟨item, found⟩
    rcases dayMarket_find found with ⟨rfl, _⟩
    exact dvd_sub (Dvd.intro_left _ rfl) (Dvd.intro_left _ rfl)
  exact ((months_right_iff utcTime_grow).2 days).mpr ⟨whole, fun _ => Or.inl (by decide +kernel)⟩

end Small

end ViabtcServer.MarketPrice
