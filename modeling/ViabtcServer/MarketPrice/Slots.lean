import ViabtcServer.MarketPrice.Series

/-!
# Slots and keys

Hour and day k-lines are stored under starts of their own, and the candles of an hour or
more begin at starts computed from one offset. A deal is in the candle of its slot
precisely when the key of its k-line is on the steps of that slot.
-/

namespace ViabtcServer.MarketPrice

open Decimal Container MatchEngine Chart

/-! ## Slots -/

section Slots

variable {step interval start stop key t s s' : ℤ} {n : ℕ}

theorem mem_ticks_iff (pos : 0 < step) (length : interval = n * step) :
    key ∈ ticks s step n ↔ step ∣ key - s ∧ s ≤ key ∧ key < s + interval := by
  constructor
  · intro mem
    rcases lt_of_mem_ticks pos length mem with ⟨above, below⟩
    rcases mem_ticks.mp mem with ⟨i, _, rfl⟩
    exact ⟨⟨i, by ring⟩, above, below⟩
  · rintro ⟨grid, above, below⟩
    exact mem_ticks_slot pos length above below grid

/-- The slots are apart. -/
theorem slot_unique (wide : 0 < interval) (mem : s ∈ ticksTo start stop interval)
    (mem' : s' ∈ ticksTo start stop interval) (inside : s ≤ t ∧ t < s + interval)
    (inside' : s' ≤ t ∧ t < s' + interval) : s = s' := by
  rcases ((mem_ticksTo wide).mp mem).2.2 with ⟨a, same⟩
  rcases ((mem_ticksTo wide).mp mem').2.2 with ⟨b, same'⟩
  have left : a < b + 1 := by
    apply lt_of_mul_lt_mul_left _ wide.le
    linarith
  have right : b < a + 1 := by
    apply lt_of_mul_lt_mul_left _ wide.le
    linarith
  rw [show a = b by omega, ← same'] at same
  omega

/-- Rounding a start up to the last slot that begins before it does not leave the steps. -/
theorem dvd_sub_advance (whole : step ∣ interval) {base : ℤ} :
    step ∣ key - advance base start interval ↔ step ∣ key - base := by
  unfold advance
  rw [← Int.sub_sub]
  exact dvd_sub_left (whole.mul_left _)

end Slots

/-! ## K-lines in candles -/

section Placed

variable [Libmpdec] {klines : Dict ℤ KlineInfo} {step interval start stop bound key t s : ℤ}

/-- The k-line under `key` is one of those merged into the candle. -/
def MergedIn (klines : Dict ℤ KlineInfo) (step : ℤ) (n : ℕ) (key : ℤ) (candle : ℤ × KlineInfo) :
    Prop :=
  key ∈ ticks candle.1 step n ∧ mergeAll (slotItems klines step n candle.1) = some candle.2

/-- Exactly one candle has the k-line under `key` merged into it, the one whose slot
contains the time `t`. -/
def Placed (klines : Dict ℤ KlineInfo) (step interval : ℤ) (answer : List (ℤ × KlineInfo))
    (key t : ℤ) : Prop :=
  ∃ candle ∈ answer, MergedIn klines step (interval / step).toNat key candle ∧
    (candle.1 ≤ t ∧ t < candle.1 + interval) ∧
    ∀ other ∈ answer, MergedIn klines step (interval / step).toNat key other → other = candle

omit [Libmpdec] in
/-- The labels of a series are some of the starts. -/
theorem klineSeries_labels {slot : ℤ → Option KlineInfo} (starts : List ℤ) :
    ∀ klast, ((klineSeries slot klast starts).map Prod.fst).Sublist starts := by
  induction starts with
  | nil =>
      intro klast
      exact List.Sublist.slnil
  | cons start starts ih =>
      intro klast
      unfold klineSeries
      cases slot start with
      | some kinfo => exact (ih _).cons_cons start
      | none =>
          cases klast with
          | some klast => exact (ih _).cons_cons start
          | none => exact (ih _).cons start

omit [Libmpdec] in
/-- A slot with something in it has its candle. -/
theorem mem_klineSeries {slot : ℤ → Option KlineInfo} {kinfo : KlineInfo}
    (some_ : slot s = some kinfo) (starts : List ℤ) :
    ∀ klast, s ∈ starts → (s, kinfo) ∈ klineSeries slot klast starts := by
  induction starts with
  | nil =>
      intro klast mem
      cases mem
  | cons start starts ih =>
      intro klast mem
      unfold klineSeries
      rcases List.mem_cons.mp mem with rfl | later
      · rw [some_]
        exact List.mem_cons_self
      · cases slot start with
        | some kinfo => exact List.mem_cons_of_mem _ (ih _ later)
        | none =>
            cases klast with
            | some klast => exact List.mem_cons_of_mem _ (ih _ later)
            | none => exact ih _ later

/-- A stored k-line is in the candle of the slot of `t` alone precisely when its key is
on the steps of that slot. -/
theorem placed_iff (pos : 0 < step) (whole : step ∣ interval) (wide : 0 < interval)
    (stored : (dictFind klines key).isSome) (mem : s ∈ ticksTo start stop interval)
    (inside : s ≤ t ∧ t < s + interval) :
    Placed klines step interval (klineRange klines step bound start stop interval) key t ↔
      step ∣ key - start ∧ s ≤ key ∧ key < s + interval := by
  have length : interval = ((interval / step).toNat : ℤ) * step := by
    rw [Int.toNat_of_nonneg (Int.ediv_nonneg wide.le pos.le), Int.ediv_mul_cancel whole]
  have label (candle : ℤ × KlineInfo)
      (here : candle ∈ klineRange klines step bound start stop interval) :
      candle.1 ∈ ticksTo start stop interval :=
    (klineSeries_labels _ _).subset (List.mem_map_of_mem here)
  have relative : step ∣ key - s ↔ step ∣ key - start := by
    have dvd : step ∣ s - start := whole.trans ((mem_ticksTo wide).mp mem).2.2
    rw [show key - start = key - s + (s - start) by ring]
    exact (dvd_add_left dvd).symm
  rw [← relative, ← mem_ticks_iff pos length]
  constructor
  · rintro ⟨candle, here, ⟨merged, _⟩, around, _⟩
    rw [slot_unique wide mem (label candle here) inside around]
    exact merged
  · intro merged
    have some_ : slotItems klines step (interval / step).toNat s ≠ [] := by
      intro empty
      rw [List.filterMap_eq_nil_iff.mp empty key merged] at stored
      cases stored
    cases same : mergeAll (slotItems klines step (interval / step).toNat s) with
    | none =>
        cases items : slotItems klines step (interval / step).toNat s using
          List.reverseRecOn with
        | nil => exact absurd items some_
        | append_singleton items item =>
            rw [items, mergeAll, List.foldl_append] at same
            cases same
    | some kinfo =>
        refine ⟨(s, kinfo), mem_klineSeries same _ _ mem, ⟨merged, same⟩, inside, ?_⟩
        rintro ⟨s', kinfo'⟩ here ⟨merged', same'⟩
        obtain rfl : s = s' := slot_unique wide mem (label _ here)
          (lt_of_mem_ticks pos length merged) (lt_of_mem_ticks pos length merged')
        rw [Option.some.inj (same.symm.trans same')]

end Placed

/-! ## Candles of an hour and more -/

section Covers

variable [Libmpdec] [LocalTime]

/-- Every deal stored at a level whose time is in a slot is in exactly one candle, the
one of that slot. -/
structure Covers (info : MarketInfo) (type : KlineType) (step interval start stop : ℤ)
    (deals : List Deal) (answer : List (ℤ × KlineInfo)) : Prop where
  labels : (answer.map Prod.fst).Pairwise (· < ·)
  placed : ∀ d ∈ deals, (dictFind (info.klines type) (klineStart type d.second)).isSome →
    ∀ s ∈ ticksTo start stop interval, s ≤ d.second → d.second < s + interval →
      Placed (info.klines type) step interval answer (klineStart type d.second) d.second

variable {info : MarketInfo} {type : KlineType} {step interval start stop bound now : ℤ}
  {deals : List Deal}

/-- That is so precisely when the keys of the k-lines are on the steps of the slots. -/
theorem covers_iff (pos : 0 < step) (whole : step ∣ interval) (wide : 0 < interval) :
    Covers info type step interval start stop deals
        (klineRange (info.klines type) step bound start stop interval) ↔
      ∀ d ∈ deals, (dictFind (info.klines type) (klineStart type d.second)).isSome →
        ∀ s ∈ ticksTo start stop interval, s ≤ d.second → d.second < s + interval →
          step ∣ klineStart type d.second - start ∧ s ≤ klineStart type d.second ∧
            klineStart type d.second < s + interval := by
  constructor
  · intro covers d mem stored s here above below
    exact (placed_iff pos whole wide stored here ⟨above, below⟩).mp
      (covers.placed d mem stored s here above below)
  · intro all
    refine ⟨(ticksTo_sorted wide).sublist (klineSeries_labels _ _), ?_⟩
    intro d mem stored s here above below
    exact (placed_iff pos whole wide stored here ⟨above, below⟩).mpr
      (all d mem stored s here above below)

variable [Settings] [LocalHour]

/-- The local midnight of `t` is whole days from the offset of the time zone, and in the
slot at `s`. -/
def OnSlot (interval s t : ℤ) : Prop :=
  86400 ∣ getDayStart t - getTimezoneOffset ∧ s ≤ getDayStart t ∧ getDayStart t < s + interval

/-- Candles of hours cover the deals precisely when the day they begin on begins on a
whole hour, candles of days and weeks precisely when the local midnight of each deal is
on its slot. -/
theorem slots_cover_iff (past : ∀ d ∈ deals, 0 ≤ d.timestamp) :
    (3600 ≤ interval → interval < 86400 → interval % 3600 = 0 → 86400 % interval = 0 →
      (Covers info .hour 3600 interval (hourStart now start interval) stop deals
          (getMarketKlineHour info now start stop interval) ↔
        ∀ d ∈ deals, (dictFind (info.klines .hour) (klineStart .hour d.second)).isSome →
          ∀ s ∈ ticksTo (hourStart now start interval) stop interval,
            s ≤ d.second → d.second < s + interval →
              3600 ∣ getDayStart (max start (hourBound now)))) ∧
    (86400 ≤ interval → interval < 86400 * 7 → interval % 86400 = 0 →
      (Covers info .day 86400 interval (dayStart start interval) stop deals
          (getMarketKlineDay info start stop interval) ↔
        ∀ d ∈ deals, (dictFind (info.klines .day) (klineStart .day d.second)).isSome →
          ∀ s ∈ ticksTo (dayStart start interval) stop interval,
            s ≤ d.second → d.second < s + interval → OnSlot interval s d.second)) ∧
    (interval = 86400 * 7 →
      (Covers info .day 86400 interval (weekStart start interval) stop deals
          (getMarketKlineWeek info start stop interval) ↔
        ∀ d ∈ deals, (dictFind (info.klines .day) (klineStart .day d.second)).isSome →
          ∀ s ∈ ticksTo (weekStart start interval) stop interval,
            s ≤ d.second → d.second < s + interval → OnSlot interval s d.second)) := by
  refine ⟨?_, ?_, ?_⟩
  · intro _ _ hours _
    have whole : (3600 : ℤ) ∣ interval := Int.dvd_of_emod_eq_zero hours
    have wide : 0 < interval := by omega
    apply (covers_iff (by decide) whole wide).trans
    apply forall₂_congr
    intro d mem
    refine forall₄_congr fun stored s here above => forall_congr' fun below => ?_
    have nonneg : 0 ≤ d.second := truncate_nonneg (past d mem)
    have steps := whole.trans ((mem_ticksTo wide).mp here).2.2
    have base : 3600 ∣ s - hourStart now start interval ↔
        3600 ∣ s - getDayStart (max start (hourBound now)) :=
      dvd_sub_advance whole
    have key : 3600 ∣ klineStart .hour d.second - hourStart now start interval ↔
        3600 ∣ klineStart .hour d.second - getDayStart (max start (hourBound now)) :=
      dvd_sub_advance whole
    rw [key]
    rw [base] at steps
    simp only [klineStart, Int.tdiv_eq_ediv_of_nonneg nonneg]
    constructor
    · rintro ⟨aligned, _⟩
      omega
    · intro aligned
      omega
  · intro _ _ days
    have whole : (86400 : ℤ) ∣ interval := Int.dvd_of_emod_eq_zero days
    apply (covers_iff (by decide) whole (by omega)).trans
    refine forall₅_congr fun d _ _ s _ => forall₂_congr fun _ _ => and_congr_left fun _ => ?_
    unfold dayStart
    rw [Int.add_comm, ← Int.sub_sub]
    exact dvd_sub_left (whole.mul_left _)
  · rintro rfl
    have whole : (86400 : ℤ) ∣ 86400 * 7 := Dvd.intro _ rfl
    apply (covers_iff (by decide) whole (by decide)).trans
    refine forall₅_congr fun d _ _ s _ => forall₂_congr fun _ _ => and_congr_left fun _ => ?_
    unfold weekStart
    rw [dvd_sub_advance whole]
    simp only [klineStart]
    omega

end Covers

/-! ## Half an hour -/

section Small

attribute [local instance] Libmpdec.reference smallText smallRetention

/-- Two units at ten in the second 100000. -/
def lateDeal : Deal :=
  ⟨100000, "BTCCNY", .ofInt 10, .ofInt 2, .bid, 1⟩

def lateUpdates : List (Time × (KlineType → ℕ) × Deal) :=
  [(1, fun _ => 0, lateDeal)]

/-- The market after that deal. -/
def lateInfo [LocalTime] : MarketInfo :=
  (createMarket "BTCCNY").count 1 (fun _ => 0) lateDeal

theorem lateInfo_eq [LocalTime] :
    dictFind (updateAll ⟨∅, 0, 0⟩ lateUpdates).markets "BTCCNY" = some lateInfo :=
  dictFind_replace

/-- It is stored at every level. -/
theorem lateInfo_stored [LocalTime] (type : KlineType) :
    (dictFind (lateInfo.klines type) (klineStart type lateDeal.second)).isSome := by
  have new : lateInfo.klines type =
      updateKline ∅ (klineStart type lateDeal.second) lateDeal :=
    rfl
  rw [new, updateKline, dictFind_replace]
  rfl

section HalfHour

/-- January 1970 five and a half hours east of UTC. -/
@[reducible]
def halfHourTime : LocalTime where
  date t := (70, 0, (t + 19800) / 86400 + 1)
  mktime day := (day.2.2 - 1) * 86400 - 19800

attribute [local instance] halfHourTime

/-- Where days begin half an hour past, a deal is in no candle of an hour. -/
theorem half_hour_lost : ¬ ∀ {updates : List (Time × (KlineType → ℕ) × Deal)} {info : MarketInfo}
    {now start stop interval : ℤ}, (∀ u ∈ updates, u.2.2.market = "BTCCNY") →
    dictFind (updateAll ⟨∅, 0, 0⟩ updates).markets "BTCCNY" = some info →
    0 < start → start ≤ stop → stop ≤ now → 3600 ≤ interval → interval < 86400 →
    interval % 3600 = 0 → 86400 % interval = 0 →
    Covers info .hour 3600 interval (hourStart now start interval) stop
      (updates.map fun u => u.2.2) (getMarketKlineHour info now start stop interval) := by
  intro all
  have covers := @all lateUpdates lateInfo 100000 100000 100000 3600 (by decide) lateInfo_eq
    (by decide) (by decide) (by decide) (by decide) (by decide) (by decide) (by decide)
  have inside : (99000 : ℤ) ≤ lateDeal.second ∧ lateDeal.second < 99000 + 3600 := by
    decide +kernel
  have mem : (99000 : ℤ) ∈ ticksTo (hourStart 100000 100000 3600) 100000 3600 := by
    decide +kernel
  have placed := covers.placed lateDeal (List.mem_singleton_self _) (lateInfo_stored .hour) 99000
    mem inside.1 inside.2
  have steps := (placed_iff (by decide) (by decide) (by decide) (lateInfo_stored .hour) mem
    inside).mp placed
  exact absurd steps.1 (by decide +kernel)

end HalfHour

attribute [local instance] smallTime

/-- In UTC it is where it belongs. -/
theorem slots_cover_small : Covers lateInfo .hour 3600 3600 (hourStart 100000 100000 3600) 100000
    [lateDeal] (getMarketKlineHour lateInfo 100000 100000 100000 3600) := by
  let hour : LocalHour := ⟨fun t => t / 3600 % 24⟩
  have past : ∀ d ∈ [lateDeal], 0 ≤ d.timestamp := by
    intro d mem
    rw [List.mem_singleton.mp mem]
    decide +kernel
  apply ((slots_cover_iff past).1 (by decide) (by decide) (by decide) (by decide)).mpr
  intro d _ _ s _ _ _
  decide +kernel

end Small

end ViabtcServer.MarketPrice
