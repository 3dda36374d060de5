import ViabtcServer.MarketPrice.Levels

/-!
# Rolling windows

The totals of a period are put together from the seconds up to the next full minute and
the minutes after it, the last of them before `now`. A deal in the second `now` is left
out when that second begins a minute, and no other.
-/

namespace ViabtcServer.MarketPrice

open Decimal Container MatchEngine Chart

/-! ## Runs with clearing -/

/-- What happens to a market: a deal, or the timer that clears. -/
inductive MarketStep
  | deal (now : Time) (padding : KlineType → ℕ) (deal : Deal)
  | clear (now : ℤ)

/-- The deals of a run. -/
def dealsIn (steps : List MarketStep) : List Deal :=
  steps.filterMap fun
    | .deal _ _ deal => some deal
    | .clear _ => none

section Run

variable [Libmpdec] [DecimalText] [LocalTime] [Settings]

def State.on (s : State) : MarketStep → State
  | .deal now padding deal => marketUpdate s now padding deal
  | .clear now => clearKline s now

def State.run (s : State) (steps : List MarketStep) : State :=
  steps.foldl State.on s

/-- No k-line of `name` that is to be kept is cleared in the run. -/
def Spares (name : String) (kept : KlineType → ℤ → Prop) : State → List MarketStep → Prop
  | _, [] => True
  | s, .deal now padding deal :: steps => Spares name kept (marketUpdate s now padding deal) steps
  | s, .clear now :: steps =>
      (∀ info, dictFind s.markets name = some info → ∀ type t, kept type t →
        dictFind ((info.clear now).klines type) t = dictFind (info.klines type) t) ∧
      Spares name kept (clearKline s now) steps

variable {s : State} {name : String} {kept : KlineType → ℤ → Prop} {deals : List Deal}
  {steps : List MarketStep}

omit [Libmpdec] [DecimalText] [LocalTime] in
/-- Every market is cleared. -/
theorem clearKline_find (now : ℤ) : dictFind (clearKline s now).markets name =
    (dictFind s.markets name).map fun info => info.clear now := by
  have loop (names : List String) (nodup : names.Nodup) : ∀ markets : Dict String MarketInfo,
      dictFind (clearMarkets now names markets) name =
        if name ∈ names then (dictFind markets name).map fun info => info.clear now
        else dictFind markets name := by
    induction names with
    | nil => exact fun markets => rfl
    | cons other names ih =>
        rcases List.nodup_cons.mp nodup with ⟨absent, others⟩
        intro markets
        rw [clearMarkets]
        by_cases own : name = other
        · subst own
          rw [if_pos List.mem_cons_self]
          cases found : dictFind markets name with
          | none =>
              simp only
              rw [ih others, if_neg absent, found]
              rfl
          | some info =>
              simp only
              rw [ih others, if_neg absent, dictFind_replace]
              rfl
        · have tail : name ∈ other :: names ↔ name ∈ names := by simp [own]
          simp only [tail]
          cases found : dictFind markets other with
          | none => exact ih others markets
          | some info =>
              simp only
              rw [ih others, dictFind_replace_ne own]
  unfold clearKline
  simp only
  rw [loop _ s.markets.keys_nodup]
  split
  · rfl
  · rename_i absent
    have missing : dictFind s.markets name = none :=
      AList.lookup_eq_none.mpr fun mem => absent (AList.mem_keys.mp mem)
    rw [missing]
    rfl

omit [Libmpdec] [DecimalText] in
theorem State.Counted.clear {now : ℤ} (counted : s.Counted name kept deals)
    (spares : ∀ info, dictFind s.markets name = some info → ∀ type t, kept type t →
      dictFind ((info.clear now).klines type) t = dictFind (info.klines type) t) :
    (clearKline s now).Counted name kept deals := by
  unfold State.Counted at counted ⊢
  rw [clearKline_find]
  cases found : dictFind s.markets name with
  | none =>
      rw [found] at counted
      exact counted
  | some info =>
      rw [found] at counted
      have same := spares info found
      constructor
      · intro type t here missing
        rw [same type t here] at missing
        exact counted.absent here missing
      · intro type t kinfo here stored
        rw [same type t here] at stored
        exact counted.counts here stored

/-- A run counts its deals in the slots that are kept. -/
theorem State.Counted.run (counted : s.Counted name kept deals)
    (market : ∀ d ∈ dealsIn steps, d.market = name) (fit : SumsFit (deals ++ dealsIn steps))
    (spares : Spares name kept s steps) :
    (s.run steps).Counted name kept (deals ++ dealsIn steps) := by
  induction steps generalizing s deals with
  | nil =>
      rw [show dealsIn [] = [] from rfl, List.append_nil]
      exact counted
  | cons step steps ih =>
      cases step with
      | clear now => exact ih (counted.clear spares.1) market fit spares.2
      | deal now padding d =>
          have more : dealsIn (.deal now padding d :: steps) = d :: dealsIn steps := rfl
          rw [more, List.append_cons] at fit ⊢
          rw [more] at market
          obtain rfl := market d List.mem_cons_self
          apply ih _ (fun e mem => market e (List.mem_cons_of_mem _ mem)) fit spares
          exact counted.update (fit.sublist (List.sublist_append_left _ _))

end Run

/-! ## The window -/

/-- The slots a window is put together from. -/
def windowKept (start : ℤ) : KlineType → ℤ → Prop
  | .sec, t => start ≤ t
  | .min, t => startMin start ≤ t
  | _, _ => False

def MarketStatus.candle (status : MarketStatus) : Candle ℚ :=
  ⟨status.open_.value, status.close.value, status.high.value, status.low.value,
    status.volume.value, status.deal.value⟩

/-- The answer is about exactly these deals. -/
structure MarketStatus.Totals (status : MarketStatus) (window : List Deal) : Prop where
  volume : status.volume.value = (window.map fun d => d.amount.value).sum
  deal : status.deal.value = (window.map fun d => d.price.value * d.amount.value).sum
  prices : window ≠ [] → status.candle.Of (window.map Deal.trade)

/-- The deals of a period. -/
def windowOf (deals : List Deal) (start : ℤ) : List Deal :=
  deals.filter fun d => start ≤ d.second

section Window

variable [Libmpdec] [LocalTime] {info : MarketInfo} {deals : List Deal} {now period : ℤ}

omit [Libmpdec] [LocalTime] in
/-- The full minute after `start`. -/
theorem startMin_spec (start : ℤ) : start < startMin start ∧ 60 ∣ startMin start := by
  have whole : 60 ∣ startMin start := ⟨start.tdiv 60 + 1, by unfold startMin; omega⟩
  refine ⟨?_, whole⟩
  unfold startMin
  rcases le_total 0 start with nonneg | neg
  · rw [Int.tdiv_eq_ediv_of_nonneg nonneg]
    omega
  · have flip : start.tdiv 60 = -((-start) / 60) := by
      rw [← Int.tdiv_eq_ediv_of_nonneg (by omega), Int.neg_tdiv, Int.neg_neg]
    rw [flip]
    omega

/-- The deals a window counts: those of its seconds up to the full minute, and those in
minutes that begin before `now`. -/
def countedOf (deals : List Deal) (now period : ℤ) : List Deal :=
  (windowOf deals (now - period)).filter fun d =>
    d.second < startMin (now - period) || klineStart .min d.second < now

omit [Libmpdec] in
/-- The seconds and minutes of a window count these deals. -/
theorem window_items (counted : info.Counted (windowKept (now - period)) deals)
    (sorted : (deals.map Deal.timestamp).Pairwise (· ≤ ·)) (past : ∀ d ∈ deals, 0 ≤ d.timestamp) :
    ∃ parts, List.Forall₂ KlineInfo.Counts
        ((ticksBelow (now - period) (startMin (now - period)) 1).filterMap
            (dictFind (info.klines .sec)) ++
          (ticksBelow (startMin (now - period)) now 60).filterMap (dictFind (info.klines .min)))
        parts ∧
      parts.flatten = countedOf deals now period := by
  have order (type : KlineType) (mono : ∀ {t u}, t ≤ u → klineStart type t ≤ klineStart type u) :
      deals.Pairwise fun d e => klineStart type d.second ≤ klineStart type e.second := by
    rw [List.pairwise_map] at sorted
    exact sorted.imp fun le => mono (truncate_mono le)
  rcases startMin_spec (now - period) with ⟨later, whole⟩
  have seconds : ∀ t ∈ ticksBelow (now - period) (startMin (now - period)) 1,
      windowKept (now - period) .sec t := fun t mem => ((mem_ticksTo one_pos).mp mem).1
  have minutes : ∀ t ∈ ticksBelow (startMin (now - period)) now 60,
      windowKept (now - period) .min t := fun t mem => ((mem_ticksTo (by decide)).mp mem).1
  rcases counted.items seconds with ⟨parts, all, flat⟩
  rcases counted.items minutes with ⟨parts', all', flat'⟩
  refine ⟨parts ++ parts', List.rel_append all all', ?_⟩
  have bySecond := @filter_slots _ _ _ (fun d : Deal => klineStart .sec d.second)
    (fun t => decide (now - period ≤ t ∧ t < startMin (now - period))) deals
    (ticksBelow (now - period) (startMin (now - period)) 1)
    (order .sec fun le => le) (ticksTo_sorted one_pos)
    (fun t mem => by
      rcases (mem_ticksTo one_pos).mp mem with ⟨above, below, _⟩
      exact decide_eq_true ⟨above, by omega⟩)
    (fun d _ here => by
      rcases of_decide_eq_true here with ⟨above, below⟩
      exact (mem_ticksTo one_pos).mpr ⟨above, by omega, one_dvd _⟩)
  have byMinute := @filter_slots _ _ _ (fun d : Deal => klineStart .min d.second)
    (fun t => decide (startMin (now - period) ≤ t ∧ t < now)) deals
    (ticksBelow (startMin (now - period)) now 60)
    (order .min (tdiv_mul_mono (by decide))) (ticksTo_sorted (by decide))
    (fun t mem => by
      rcases (mem_ticksTo (by decide)).mp mem with ⟨above, below, _⟩
      exact decide_eq_true ⟨above, by omega⟩)
    (fun d _ here => by
      rcases of_decide_eq_true here with ⟨above, below⟩
      refine (mem_ticksTo (by decide)).mpr ⟨above, by omega, ?_⟩
      exact (Int.dvd_sub ⟨d.second.tdiv 60, Int.mul_comm _ _⟩ whole))
  have slots (type : KlineType) (times : List ℤ) : times.map (dealsOf deals type) =
      times.map fun t => deals.filter fun d => decide (klineStart type d.second = t) := rfl
  rw [List.flatten_append, flat, flat', slots, slots, ← bySecond, ← byMinute]
  unfold countedOf windowOf
  rw [List.filter_filter]
  symm
  apply (filter_before_after (order .sec fun le => le) (startMin (now - period)) _).trans
  congr 1
  · apply List.filter_congr
    intro d mem
    rw [Bool.eq_iff_iff]
    simp only [Bool.and_eq_true, Bool.or_eq_true, decide_eq_true_eq]
    simp only [klineStart]
    tauto
  · apply List.filter_congr
    intro d mem
    have nonneg : 0 ≤ d.second := truncate_nonneg (past d mem)
    rw [Bool.eq_iff_iff]
    simp only [Bool.and_eq_true, Bool.or_eq_true, decide_eq_true_eq]
    simp only [klineStart, Int.tdiv_eq_ediv_of_nonneg nonneg]
    omega

/-- The answer is about these deals. -/
theorem getMarketStatus_totals (counted : info.Counted (windowKept (now - period)) deals)
    (fit : SumsFit deals) (sorted : (deals.map Deal.timestamp).Pairwise (· ≤ ·))
    (past : ∀ d ∈ deals, 0 ≤ d.timestamp) :
    (getMarketStatus info now period).Totals (countedOf deals now period) := by
  rcases window_items counted sorted past with ⟨parts, all, flat⟩
  have fits : SumsFit parts.flatten := by
    rw [flat]
    exact (fit.sublist List.filter_sublist).sublist List.filter_sublist
  have merged : mergeTimes (info.klines .min)
      (mergeTimes (info.klines .sec) none
        (ticksBelow (now - period) (startMin (now - period)) 1))
      (ticksBelow (startMin (now - period)) now 60) = mergeAll _ := List.foldl_append.symm
  rcases mergeAll_cases all fits with ⟨none_, some_⟩
  rw [flat] at none_ some_
  unfold getMarketStatus
  simp only [merged]
  by_cases empty : countedOf deals now period = []
  · rw [none_ empty, empty]
    exact ⟨mpdZero_value, mpdZero_value, fun some_ => absurd rfl some_⟩
  · rcases some_ empty with ⟨kinfo, same, counts⟩
    rw [same]
    exact ⟨counts.volume_eq, counts.deal_eq, fun _ => counts.of⟩

omit [Libmpdec] in
/-- Nothing of the window is left out unless a deal is made in the second `now` and a
minute begins with it. -/
theorem countedOf_eq (past : ∀ d ∈ deals, 0 ≤ d.timestamp ∧ d.second ≤ now)
    (apart : 60 ∣ now → startMin (now - period) ≤ now → ∀ d ∈ deals, d.second ≠ now) :
    countedOf deals now period = windowOf deals (now - period) := by
  apply List.filter_eq_self.mpr
  intro d mem
  have here := List.mem_of_mem_filter mem
  have nonneg : 0 ≤ d.second := truncate_nonneg (past d here).1
  have before := (past d here).2
  have other := fun whole full => apart whole full d here
  simp only [Bool.or_eq_true, decide_eq_true_eq]
  simp only [klineStart, Int.tdiv_eq_ediv_of_nonneg nonneg]
  omega

omit [Libmpdec] in
/-- Otherwise the volume is too small. -/
theorem countedOf_volume_lt (pos : 0 < period) (whole : 60 ∣ now)
    (full : startMin (now - period) ≤ now) (positive : ∀ d ∈ deals, 0 < d.amount.value)
    {d : Deal} (mem : d ∈ deals) (at_ : d.second = now) (nonneg : 0 ≤ now) :
    ((countedOf deals now period).map fun d => d.amount.value).sum <
      ((windowOf deals (now - period)).map fun d => d.amount.value).sum := by
  let q : Deal → Bool := fun d =>
    d.second < startMin (now - period) || klineStart .min d.second < now
  have split := (List.filter_append_perm q (windowOf deals (now - period))).map
    fun d : Deal => d.amount.value
  rw [← split.sum_eq, List.map_append, List.sum_append]
  have rest : d ∈ (windowOf deals (now - period)).filter fun d => !q d := by
    apply List.mem_filter.mpr
    constructor
    · apply List.mem_filter.mpr
      exact ⟨mem, decide_eq_true (by omega)⟩
    · simp only [q, Bool.not_eq_true', Bool.or_eq_false_iff, decide_eq_false_iff_not]
      simp only [klineStart, at_, Int.tdiv_eq_ediv_of_nonneg nonneg]
      omega
  have positive' : ∀ a ∈ ((windowOf deals (now - period)).filter fun d => !q d).map
      fun d => d.amount.value, 0 < a := by
    intro a mem
    rcases List.mem_map.mp mem with ⟨e, here, rfl⟩
    exact positive e (List.mem_of_mem_filter (List.mem_of_mem_filter here))
  have more := List.sum_pos _ positive' (List.ne_nil_of_mem (List.mem_map_of_mem rest))
  have same : countedOf deals now period = (windowOf deals (now - period)).filter q := rfl
  rw [same]
  linarith

omit [LocalTime] in
/-- Adding up and merging count alike. -/
theorem foldl_add_eq (items : List KlineInfo) (kinfo : Option KlineInfo) :
    items.foldl (fun total item => (mpdAdd total.1 item.volume, mpdAdd total.2 item.deal))
        ((kinfo.map KlineInfo.volume).getD mpdZero, (kinfo.map KlineInfo.deal).getD mpdZero) =
      (((items.foldl mergeItem kinfo).map KlineInfo.volume).getD mpdZero,
        ((items.foldl mergeItem kinfo).map KlineInfo.deal).getD mpdZero) := by
  induction items generalizing kinfo with
  | nil => rfl
  | cons item items ih =>
      rw [List.foldl_cons, List.foldl_cons, ← ih]
      cases kinfo <;> rfl

/-- The totals of today are those of the last day. -/
theorem getMarketStatusToday_totals :
    (getMarketStatusToday info now).volume = (getMarketStatus info now 86400).volume ∧
      (getMarketStatusToday info now).deal = (getMarketStatus info now 86400).deal := by
  have seconds := foldl_add_eq ((ticksBelow (now - 86400) (startMin (now - 86400)) 1).filterMap
    (dictFind (info.klines .sec))) none
  have minutes := foldl_add_eq ((ticksBelow (startMin (now - 86400)) now 60).filterMap
    (dictFind (info.klines .min))) (mergeTimes (info.klines .sec) none
      (ticksBelow (now - 86400) (startMin (now - 86400)) 1))
  have total : addTimes (info.klines .min) (addTimes (info.klines .sec) (mpdZero, mpdZero)
      (ticksBelow (now - 86400) (startMin (now - 86400)) 1))
        (ticksBelow (startMin (now - 86400)) now 60) = _ :=
    (congrArg (fun start => addTimes (info.klines .min) start _) seconds).trans minutes
  unfold getMarketStatusToday getMarketStatus
  simp only [total]
  unfold mergeTimes
  generalize List.foldl mergeItem _ _ = kinfo
  cases kinfo <;> exact ⟨rfl, rfl⟩

end Window

section Totals

variable [Libmpdec] [DecimalText] [LocalTime] [Settings] {s : State} {name : String}
  {info : MarketInfo} {steps : List MarketStep} {now period : ℤ}

/-- After a run of deals that spares the window, its totals are about exactly the deals
of the period precisely when no deal was made in the second `now` and a minute begins
with it. Today's totals are always those of the last day. -/
theorem window_totals_iff (fresh : dictFind s.markets name = none)
    (market : ∀ d ∈ dealsIn steps, d.market = name) (fit : SumsFit (dealsIn steps))
    (sorted : ((dealsIn steps).map Deal.timestamp).Pairwise (· ≤ ·))
    (past : ∀ d ∈ dealsIn steps, 0 ≤ d.timestamp ∧ d.second ≤ now)
    (positive : ∀ d ∈ dealsIn steps, 0 < d.amount.value) (pos : 0 < period)
    (spares : Spares name (windowKept (now - period)) s steps)
    (found : dictFind (s.run steps).markets name = some info) :
    ((getMarketStatus info now period).Totals (windowOf (dealsIn steps) (now - period)) ↔
      (60 ∣ now → startMin (now - period) ≤ now → ∀ d ∈ dealsIn steps, d.second ≠ now)) ∧
    (getMarketStatusToday info now).volume = (getMarketStatus info now 86400).volume ∧
    (getMarketStatusToday info now).deal = (getMarketStatus info now 86400).deal := by
  refine ⟨?_, getMarketStatusToday_totals⟩
  have start : s.Counted name (windowKept (now - period)) [] := by
    unfold State.Counted
    rw [fresh]
  have after := start.run market fit spares
  unfold State.Counted at after
  rw [found] at after
  have totals := getMarketStatus_totals after fit sorted fun d mem => (past d mem).1
  constructor
  · intro exact_ whole full d mem at_
    have nonneg : 0 ≤ d.second := truncate_nonneg (past d mem).1
    have less := countedOf_volume_lt pos whole full positive mem at_ (at_ ▸ nonneg)
    exact less.ne (totals.volume.symm.trans exact_.volume)
  · intro apart
    rw [List.nil_append] at totals
    rw [← countedOf_eq past apart]
    exact totals

end Totals

/-! ## A second that begins a minute -/

section Small

attribute [local instance] Libmpdec.reference smallText smallTime smallRetention

/-- One deal in the second 120. -/
def fullMinute : List MarketStep :=
  [.deal 1 (fun _ => 0) ⟨120, "BTCCNY", .ofInt 10, .ofInt 2, .bid, 1⟩]

theorem fullMinute_fit : SumsFit (dealsIn fullMinute) :=
  .of_whole (by decide) (by decide +kernel)

theorem fullMinute_past : ∀ d ∈ dealsIn fullMinute, 0 ≤ d.timestamp ∧ d.second ≤ 120 := by
  intro d mem
  obtain rfl := List.mem_singleton.mp mem
  constructor
  · norm_num
  · exact (truncate_intCast 120).le

/-- The market after that deal. -/
def fullMinuteInfo : MarketInfo :=
  (dictFind ((⟨∅, 0, 0⟩ : State).run fullMinute).markets "BTCCNY").get (by decide +kernel)

theorem fullMinuteInfo_eq :
    dictFind ((⟨∅, 0, 0⟩ : State).run fullMinute).markets "BTCCNY" = some fullMinuteInfo :=
  (Option.some_get _).symm

/-- Two minutes after the epoch the deal of that second is missing from the last
minute. -/
theorem deal_left_out : ¬ ∀ {steps : List MarketStep} {now period : ℤ} {info : MarketInfo},
    (∀ d ∈ dealsIn steps, d.market = "BTCCNY") → SumsFit (dealsIn steps) →
    ((dealsIn steps).map Deal.timestamp).Pairwise (· ≤ ·) →
    (∀ d ∈ dealsIn steps, 0 ≤ d.timestamp ∧ d.second ≤ now) → 0 < period →
    period ≤ Settings.secMax → Spares "BTCCNY" (windowKept (now - period)) ⟨∅, 0, 0⟩ steps →
    dictFind ((⟨∅, 0, 0⟩ : State).run steps).markets "BTCCNY" = some info →
    (getMarketStatus info now period).Totals (windowOf (dealsIn steps) (now - period)) := by
  intro all
  have totals := @all fullMinute 120 60 fullMinuteInfo (by decide) fullMinute_fit (by decide)
    fullMinute_past (by decide) (by decide) trivial fullMinuteInfo_eq
  have volume : (getMarketStatus fullMinuteInfo 120 60).volume.value ≠
      ((windowOf (dealsIn fullMinute) (120 - 60)).map fun d => d.amount.value).sum := by
    decide +kernel
  exact volume totals.volume

/-- A second later it is there. -/
theorem window_totals_small :
    (getMarketStatus fullMinuteInfo 121 60).Totals (windowOf (dealsIn fullMinute) (121 - 60)) := by
  have past : ∀ d ∈ dealsIn fullMinute, 0 ≤ d.timestamp ∧ d.second ≤ 121 := by
    intro d mem
    rcases fullMinute_past d mem with ⟨nonneg, before⟩
    exact ⟨nonneg, by omega⟩
  have positive : ∀ d ∈ dealsIn fullMinute, 0 < d.amount.value := by
    intro d mem
    obtain rfl := List.mem_singleton.mp mem
    decide +kernel
  exact (window_totals_iff dictFind_empty (by decide) fullMinute_fit (by decide) past positive
    (by decide) trivial fullMinuteInfo_eq).1.mpr fun whole => absurd whole (by decide)

end Small

end ViabtcServer.MarketPrice
