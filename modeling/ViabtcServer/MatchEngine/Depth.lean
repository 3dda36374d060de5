import ViabtcServer.Auction.Levels
import ViabtcServer.Decimal.Divmod
import ViabtcServer.MarketPrice.Kline
import ViabtcServer.MatchEngine.Priority

/-!
# The depth of a book

`get_depth` and `get_depth_merge` go through each side once and gather the orders that
come next as long as they belong to the level of the first one. The sides are sorted, so
that a run of orders is a whole level.
-/

namespace ViabtcServer.MatchEngine

open Decimal Container Auction
open MarketPrice (mpdText)

/-! ## The loops -/

/-- What an iterator over a side meets. -/
def Market.walk (m : Market) (heap : Ref → Option Order) (side : Side) : List Order :=
  (m.book side).filterMap heap

section Loops

variable [Libmpdec]

/-- The inner loop: `left` is added up until an order is not of the level. -/
def takeLevel (same : Order → Bool) : Mpd → List Order → Mpd × List Order
  | amount, [] => (amount, [])
  | amount, order :: rest =>
      if same order then takeLevel same (mpdAdd amount order.left) rest
      else (amount, order :: rest)

/-- The four outer loops: `first` is the price of the level that an order begins, `same`
tells whether a later order belongs to it. -/
def depthLoop (first : Order → Mpd) (same : Mpd → Order → Bool) : ℕ → List Order →
    List (Mpd × Mpd)
  | 0, _ => []
  | _, [] => []
  | limit + 1, order :: rest =>
      let price := first order
      let (amount, rest) := takeLevel (same price) order.left rest
      (price, amount) :: depthLoop first same limit rest

/-- Both loops of `get_depth`. -/
def depthLevels (limit : ℕ) (orders : List Order) : List (Mpd × Mpd) :=
  depthLoop (fun order => order.price) (fun price order => mpdCmp price order.price = 0) limit
    orders

variable [Divmod]

/-- The price of the level an ask begins: rounded up. -/
def askLevelPrice (interval : Mpd) (order : Order) : Mpd :=
  let (q, r) := mpdDivmod order.price interval
  let price := mpdMul q interval
  if mpdCmp r mpdZero ≠ 0 then mpdAdd price interval else price

/-- The price of the level a bid begins: rounded down. -/
def bidLevelPrice (interval : Mpd) (order : Order) : Mpd :=
  let (q, _) := mpdDivmod order.price interval
  mpdMul q interval

/-- The loop of `get_depth_merge` over the asks. -/
def mergeAsks (interval : Mpd) (limit : ℕ) (orders : List Order) : List (Mpd × Mpd) :=
  depthLoop (askLevelPrice interval) (fun price order => mpdCmp price order.price ≥ 0) limit
    orders

/-- The loop over the bids. -/
def mergeBids (interval : Mpd) (limit : ℕ) (orders : List Order) : List (Mpd × Mpd) :=
  depthLoop (bidLevelPrice interval) (fun price order => mpdCmp price order.price ≤ 0) limit
    orders

/-- The levels of an answer, each a price with an amount. -/
structure Depth where
  asks : List (Mpd × Mpd)
  bids : List (Mpd × Mpd)

omit [Libmpdec] [Divmod] in
def Depth.side (depth : Depth) : Side → List (Mpd × Mpd)
  | .ask => depth.asks
  | .bid => depth.bids

omit [Divmod] in
/-- `get_depth`, but for the text. -/
def getDepth (m : Market) (heap : Ref → Option Order) (limit : ℕ) : Depth where
  asks := depthLevels limit (m.walk heap .ask)
  bids := depthLevels limit (m.walk heap .bid)

/-- `get_depth_merge`, but for the text. -/
def getDepthMerge (m : Market) (heap : Ref → Option Order) (limit : ℕ) (interval : Mpd) :
    Depth where
  asks := mergeAsks interval limit (m.walk heap .ask)
  bids := mergeBids interval limit (m.walk heap .bid)

variable [DecimalText]

omit [Libmpdec] [Divmod] in
def levelJson (level : Mpd × Mpd) : Json :=
  .array [.string (mpdText level.1), .string (mpdText level.2)]

omit [Libmpdec] [Divmod] in
/-- The object the two functions return. -/
def Depth.json (depth : Depth) : Json :=
  .object [("asks", .array (depth.asks.map levelJson)), ("bids", .array (depth.bids.map levelJson))]

/-- `ORDER_BOOK_MAX_LEN`. -/
def orderBookMaxLen : ℕ := 101

/-- `on_cmd_order_book_depth`, without the cache. -/
def onCmdOrderBookDepth (e : Engine) (params : List Json) : Except ArgError Json :=
  match params with
  | [market, limit, interval] => do
      let (_, m) ← getMarket e.markets market
      let limit ← jsonInteger limit
      if toUint64 limit > orderBookMaxLen then .error .invalid
      else
        let interval ← jsonDecimal m.moneyPrec interval
        if mpdCmp interval mpdZero < 0 then .error .invalid
        else if mpdCmp interval mpdZero = 0 then
          pure (getDepth m e.world.heap (toUint64 limit)).json
        else pure (getDepthMerge m e.world.heap (toUint64 limit) interval).json
  | _ => .error .invalid

end Loops

/-! ## One pass over a sorted side -/

theorem Side.rank_injective (side : Side) : Function.Injective side.rank := by
  cases side with
  | ask => exact fun _ _ same => same
  | bid => exact neg_injective

section Pass

variable [Libmpdec] {side : Side} {key : Order → ℚ} {first : Order → Mpd}
  {same : Mpd → Order → Bool} {orders rest : List Order} {order : Order} {limit : ℕ}

/-- The numbers a level is written with. -/
def levelValue (level : Mpd × Mpd) : ℚ × ℚ :=
  (level.1.value, level.2.value)

/-- The sums the loops form over orders of one key fit 34 digits. -/
structure SumsFit (key : Order → ℚ) (orders : List Order) : Prop where
  finite : ∀ order ∈ orders, order.left.isFinite
  sums : ∀ run, run <:+: orders → 2 ≤ run.length →
    (∀ one ∈ run, ∀ other ∈ run, key one = key other) →
      SigDigits mpdCtx (run.map fun order => order.left.value).sum

omit [Libmpdec] in
theorem SumsFit.suffix (fit : SumsFit key orders) (suffix_ : rest <:+ orders) :
    SumsFit key rest where
  finite order mem := fit.finite order (suffix_.subset mem)
  sums run infix_ := fit.sums run (infix_.trans suffix_.isInfix)

/-- What a loop sees of its list: the price of a level is the key of its first order, a
later order is taken where it has the same key, and the keys are in order. -/
structure Marks (side : Side) (key : Order → ℚ) (first : Order → Mpd)
    (same : Mpd → Order → Bool) (orders : List Order) : Prop where
  price : ∀ order ∈ orders, (first order).value = key order
  taken : orders.Pairwise fun one other => same (first one) other = true ↔ key other = key one
  sorted : orders.Pairwise fun one other => side.rank (key one) ≤ side.rank (key other)

omit [Libmpdec] in
theorem Marks.suffix (marks : Marks side key first same orders) (suffix_ : rest <:+ orders) :
    Marks side key first same rest where
  price order mem := marks.price order (suffix_.subset mem)
  taken := marks.taken.sublist suffix_.sublist
  sorted := marks.sorted.sublist suffix_.sublist

theorem takeLevel_eq (same : Order → Bool) (amount : Mpd) (orders : List Order) :
    takeLevel same amount orders =
      ((orders.takeWhile same).foldl (fun amount order => mpdAdd amount order.left) amount,
        orders.dropWhile same) := by
  induction orders generalizing amount with
  | nil => rfl
  | cons order rest ih =>
      unfold takeLevel
      cases taken : same order with
      | true =>
          rw [if_pos rfl, ih, List.takeWhile_cons_of_pos taken, List.dropWhile_cons_of_pos taken]
          rfl
      | false =>
          rw [if_neg (by simp), List.takeWhile_cons_of_neg (by simp [taken]),
            List.dropWhile_cons_of_neg (by simp [taken])]
          rfl

/-- The sum of a run is exact. -/
theorem SumsFit.foldl_left (fit : SumsFit key orders) {taken run : List Order} {amount : Mpd}
    (nonempty : taken ≠ []) (infix_ : taken ++ run <:+: orders)
    (alike : ∀ one ∈ taken ++ run, ∀ other ∈ taken ++ run, key one = key other)
    (finite : amount.isFinite)
    (sum : amount.value = (taken.map fun order => order.left.value).sum) :
    (run.foldl (fun amount order => mpdAdd amount order.left) amount).value =
      ((taken ++ run).map fun order => order.left.value).sum := by
  induction run generalizing taken amount with
  | nil => rw [List.append_nil, ← sum]; rfl
  | cons order run ih =>
      rw [List.append_cons] at infix_ alike ⊢
      have left := fit.finite order (infix_.subset (by simp))
      have digits : SigDigits mpdCtx (amount.value + order.left.value) := by
        have front : taken ++ [order] <:+: orders :=
          (List.prefix_append (taken ++ [order]) run).isInfix.trans infix_
        have long : 2 ≤ (taken ++ [order]).length := by
          have positive := List.length_pos_iff.mpr nonempty
          rw [List.length_append, List.length_singleton]
          omega
        have fits := fit.sums _ front long fun one mem other mem' =>
          alike one (List.mem_append_left _ mem) other (List.mem_append_left _ mem')
        rw [List.map_append, List.sum_append, ← sum] at fits
        simpa using fits
      apply ih (by simp) infix_ alike (Libmpdec.add_finite finite left)
      rw [mpdAdd_exact finite left digits, sum]
      simp

omit [Libmpdec] in
/-- The orders of a level are those the inner loop takes. -/
theorem Marks.parts (marks : Marks side key first same (order :: rest)) :
    (∀ other ∈ order :: rest.takeWhile (same (first order)), key other = key order) ∧
      ∀ other ∈ rest.dropWhile (same (first order)), key other ≠ key order := by
  rcases List.pairwise_cons.mp marks.taken with ⟨taken, _⟩
  rcases List.pairwise_cons.mp marks.sorted with ⟨least, sorted⟩
  constructor
  · intro other mem
    rcases List.mem_cons.mp mem with rfl | mem
    · rfl
    · exact (taken other ((List.takeWhile_subset _) mem)).mp (List.mem_takeWhile_imp mem)
  · intro other mem eq
    -- the order that ended the loop is behind the level, and the others behind it
    cases stop : rest.dropWhile (same (first order)) with
    | nil =>
        rw [stop] at mem
        cases mem
    | cons next later =>
        have suffix_ : next :: later <:+ rest := stop ▸ List.dropWhile_suffix _
        have inside : next ∈ rest := suffix_.subset List.mem_cons_self
        have beyond : key next ≠ key order := by
          intro equal
          have refused := List.head?_dropWhile_not (same (first order)) rest
          rw [stop] at refused
          have kept := (taken next inside).mpr equal
          simp [kept] at refused
        have gone : side.rank (key order) < side.rank (key next) := by
          apply lt_of_le_of_ne (least next inside)
          intro equal
          exact beyond (side.rank_injective equal).symm
        rw [stop] at mem
        rcases List.mem_cons.mp mem with rfl | mem
        · exact beyond eq
        · have after := (List.pairwise_cons.mp (sorted.sublist suffix_.sublist)).1 other mem
          rw [eq] at after
          exact absurd after (not_le.mpr gone)

/-- A loop lists the levels of its key. -/
theorem depthLoop_levels (side : Side) (marks : Marks side key first same orders)
    (fit : SumsFit key orders) (limit : ℕ) : (depthLoop first same limit orders).map levelValue =
      (levels key (fun order => order.left.value) orders).take limit := by
  induction limit generalizing orders with
  | zero => rfl
  | succ limit ih =>
      cases orders with
      | nil => rfl
      | cons order rest =>
          rcases marks.parts with ⟨alike, differ⟩
          have whole : order :: rest = (order :: rest.takeWhile (same (first order))) ++
              rest.dropWhile (same (first order)) := by
            rw [List.cons_append, List.takeWhile_append_dropWhile]
          have suffix_ : rest.dropWhile (same (first order)) <:+ order :: rest :=
            (List.dropWhile_suffix _).trans (List.suffix_cons order rest)
          have sum : ((rest.takeWhile (same (first order))).foldl
              (fun amount order => mpdAdd amount order.left) order.left).value =
                ((order :: rest.takeWhile (same (first order))).map fun order =>
                  order.left.value).sum := by
            apply fit.foldl_left (List.cons_ne_nil order [])
            · exact ⟨[], rest.dropWhile (same (first order)), whole.symm⟩
            · exact fun one mem other mem' => (alike one mem).trans (alike other mem').symm
            · exact fit.finite order List.mem_cons_self
            · simp
          conv_rhs => rw [whole, levels_run_append (List.cons_ne_nil _ _) alike differ]
          simp only [depthLoop, takeLevel_eq]
          rw [List.map_cons, ih (marks.suffix suffix_) (fit.suffix suffix_),
            List.take_succ_cons]
          congr 1
          exact Prod.ext (marks.price order List.mem_cons_self) sum

end Pass

/-! ## Buckets -/

/-- The multiple of the interval that a price is gathered under. -/
def Side.bucket (interval : ℚ) : Side → ℚ → ℚ
  | .ask, price => ⌈price / interval⌉ * interval
  | .bid, price => ⌊price / interval⌋ * interval

section Buckets

variable {interval price price' : ℚ}

theorem bucket_ask (interval price : ℚ) :
    Side.ask.bucket interval price = ⌈price / interval⌉ * interval := rfl

theorem bucket_bid (interval price : ℚ) :
    Side.bid.bucket interval price = ⌊price / interval⌋ * interval := rfl

/-- The least multiple that is not below the price. -/
theorem bucket_ask_isLeast (positive : 0 < interval) (price : ℚ) :
    IsLeast {multiple | (∃ k : ℤ, multiple = k * interval) ∧ price ≤ multiple}
      (Side.ask.bucket interval price) := by
  constructor
  · exact ⟨⟨_, rfl⟩, (div_le_iff₀ positive).mp (Int.le_ceil _)⟩
  · rintro _ ⟨⟨k, rfl⟩, le⟩
    have ceil : ⌈price / interval⌉ ≤ k := Int.ceil_le.mpr ((div_le_iff₀ positive).mpr le)
    exact mul_le_mul_of_nonneg_right (by exact_mod_cast ceil) positive.le

/-- The greatest multiple that is not above the price. -/
theorem bucket_bid_isGreatest (positive : 0 < interval) (price : ℚ) :
    IsGreatest {multiple | (∃ k : ℤ, multiple = k * interval) ∧ multiple ≤ price}
      (Side.bid.bucket interval price) := by
  constructor
  · exact ⟨⟨_, rfl⟩, (le_div_iff₀ positive).mp (Int.floor_le _)⟩
  · rintro _ ⟨⟨k, rfl⟩, le⟩
    have floor : k ≤ ⌊price / interval⌋ := Int.le_floor.mpr ((le_div_iff₀ positive).mpr le)
    exact mul_le_mul_of_nonneg_right (by exact_mod_cast floor) positive.le

/-- A later price comes under a bucket that is not before. -/
theorem bucket_mono (side : Side) (positive : 0 < interval)
    (le : side.rank price ≤ side.rank price') :
    side.rank (side.bucket interval price) ≤ side.rank (side.bucket interval price') := by
  cases side with
  | ask =>
      have ceil := Int.ceil_mono ((div_le_div_iff_of_pos_right positive).mpr le)
      exact mul_le_mul_of_nonneg_right (by exact_mod_cast ceil) positive.le
  | bid =>
      have floor := Int.floor_mono
        ((div_le_div_iff_of_pos_right positive).mpr (neg_le_neg_iff.mp le))
      exact neg_le_neg (mul_le_mul_of_nonneg_right (by exact_mod_cast floor) positive.le)

/-- The later price is in the bucket of the earlier one exactly if it is within it. -/
theorem bucket_ask_eq_iff (positive : 0 < interval) (le : price ≤ price') :
    price' ≤ Side.ask.bucket interval price ↔
      Side.ask.bucket interval price' = Side.ask.bucket interval price := by
  constructor
  · intro within
    apply le_antisymm
    · exact (bucket_ask_isLeast positive price').2
        ⟨(bucket_ask_isLeast positive price).1.1, within⟩
    · exact bucket_mono .ask positive le
  · intro same
    rw [← same]
    exact (bucket_ask_isLeast positive price').1.2

theorem bucket_bid_eq_iff (positive : 0 < interval) (le : price' ≤ price) :
    Side.bid.bucket interval price ≤ price' ↔
      Side.bid.bucket interval price' = Side.bid.bucket interval price := by
  constructor
  · intro within
    apply le_antisymm
    · exact neg_le_neg_iff.mp (bucket_mono .bid positive (neg_le_neg le))
    · exact (bucket_bid_isGreatest positive price').2
        ⟨(bucket_bid_isGreatest positive price).1.1, within⟩
  · intro same
    rw [← same]
    exact (bucket_bid_isGreatest positive price').1.2

end Buckets

/-! ## The loops over a book -/

/-- The integer parts of the quotients fit 34 digits, and so do the prices that asks are
raised to. -/
structure QuotientsFit (interval : ℚ) (side : Side) (orders : List Order) : Prop where
  quotient : ∀ order ∈ orders, |truncate (order.price.value / interval)| < 10 ^ mpdPrec
  raised : side = .ask → ∀ order ∈ orders,
    (truncate (order.price.value / interval) : ℚ) ≠ order.price.value / interval →
      SigDigits mpdCtx (side.bucket interval order.price.value)

/-- The multiples of the interval below the prices fit 34 digits. -/
def ProductsFit (interval : ℚ) (orders : List Order) : Prop :=
  ∀ order ∈ orders, SigDigits mpdCtx (truncate (order.price.value / interval) * interval)

/-- A book and an interval whose quotients and sums fit 34 digits, and which have no digits
behind the least exponent of the context. -/
structure DepthInput (m : Market) (heap : Ref → Option Order) (interval : Mpd) : Prop where
  index : IndexInv m heap
  positive : ∀ side, ∀ order ∈ m.walk heap side, 0 < order.price.value
  fine : ∀ side, ∀ order ∈ m.walk heap side, OnGrid mpdEtiny order.price.value
  finite : interval.isFinite
  step : 0 < interval.value
  stepFine : OnGrid mpdEtiny interval.value
  quotients : ∀ side, QuotientsFit interval.value side (m.walk heap side)
  sums : ∀ side, SumsFit (fun order => order.price.value) (m.walk heap side)
  mergedSums : ∀ side, SumsFit (fun order => side.bucket interval.value order.price.value)
    (m.walk heap side)

/-- The levels of a side. -/
def Market.levels (m : Market) (heap : Ref → Option Order) (side : Side) : List (ℚ × ℚ) :=
  Auction.levels (fun order : Order => order.price.value) (fun order => order.left.value)
    (m.walk heap side)

/-- The buckets of a side. -/
def Market.buckets (m : Market) (heap : Ref → Option Order) (interval : ℚ) (side : Side) :
    List (ℚ × ℚ) :=
  Auction.levels (fun order : Order => side.bucket interval order.price.value)
    (fun order => order.left.value) (m.walk heap side)

section Book

variable {m : Market} {heap : Ref → Option Order} {interval : Mpd} {side : Side}

/-- The orders of a side are sorted by price. -/
theorem BookInv.walk_sorted (inv : BookInv m heap) (side : Side) :
    (m.walk heap side).Pairwise fun one other =>
      side.rank one.price.value ≤ side.rank other.price.value := by
  apply (inv.orders_sorted side).imp_of_mem
  intro one other mem mem' lt
  rcases inv.mem_orders.mp mem with ⟨_, _, rfl⟩
  rcases inv.mem_orders.mp mem' with ⟨_, _, same⟩
  unfold Order.priority at lt
  rw [same, Prod.Lex.toLex_lt_toLex] at lt
  rcases lt with lt | ⟨eq, _⟩
  · exact lt.le
  · exact eq.le

theorem BookInv.walk_finite (inv : BookInv m heap) :
    ∀ order ∈ m.walk heap side, order.price.isFinite := by
  intro order mem
  rcases inv.mem_orders.mp mem with ⟨ref, rests, _⟩
  rcases inv.listed rests.2 with ⟨other, listed⟩
  have same : order = other := rests.eq listed.found
  exact same ▸ listed.finite

variable [Libmpdec]

theorem depthLevels_levels (inv : BookInv m heap)
    (fit : SumsFit (fun order => order.price.value) (m.walk heap side)) (limit : ℕ) :
    (depthLevels limit (m.walk heap side)).map levelValue =
      (m.levels heap side).take limit := by
  apply depthLoop_levels side _ fit
  constructor
  · intro order _
    rfl
  · apply (inv.walk_sorted side).imp_of_mem
    intro one other mem mem' _
    rw [decide_eq_true_eq, mpdCmp_eq_zero (inv.walk_finite one mem) (inv.walk_finite other mem'),
      eq_comm]
  · exact inv.walk_sorted side

variable [Divmod]

/-- The multiple below a price. -/
theorem bidLevelPrice_value (input : DepthInput m heap interval)
    (products : ProductsFit interval.value (m.walk heap side)) {order : Order}
    (mem : order ∈ m.walk heap side) : (bidLevelPrice interval order).isFinite ∧
      (bidLevelPrice interval order).value = Side.bid.bucket interval.value order.price.value := by
  have finite := input.index.toBookInv.walk_finite order mem
  have fits := (input.quotients side).quotient order mem
  rcases Divmod.quotient finite input.finite input.step.ne' fits with ⟨whole, value⟩
  have floor : truncate (order.price.value / interval.value) =
      ⌊order.price.value / interval.value⌋ :=
    truncate_of_nonneg (div_nonneg (input.positive side order mem).le input.step.le)
  constructor
  · exact Libmpdec.mul_finite whole input.finite
  · rw [bucket_bid, ← floor, ← value]
    apply (mpdMul_exact_iff whole input.finite).mpr
    rw [value]
    exact products order mem

/-- The multiple that is not below a price: an interval is added where the division leaves
a remainder. -/
theorem askLevelPrice_value (input : DepthInput m heap interval)
    (products : ProductsFit interval.value (m.walk heap .ask)) {order : Order}
    (mem : order ∈ m.walk heap .ask) : (askLevelPrice interval order).isFinite ∧
      (askLevelPrice interval order).value = Side.ask.bucket interval.value order.price.value := by
  have finite := input.index.toBookInv.walk_finite order mem
  have fits := (input.quotients .ask).quotient order mem
  have even := mpdDivmod_even finite input.finite input.step.ne' (input.fine .ask order mem)
    input.stepFine fits
  have floor : truncate (order.price.value / interval.value) =
      ⌊order.price.value / interval.value⌋ :=
    truncate_of_nonneg (div_nonneg (input.positive .ask order mem).le input.step.le)
  rcases bidLevelPrice_value input products mem with ⟨finite', below⟩
  rw [bucket_bid] at below
  change (if mpdCmp (mpdDivmod order.price interval).2 mpdZero ≠ 0 then
      mpdAdd (bidLevelPrice interval order) interval else bidLevelPrice interval order).isFinite ∧
    (if mpdCmp (mpdDivmod order.price interval).2 mpdZero ≠ 0 then
      mpdAdd (bidLevelPrice interval order) interval else bidLevelPrice interval order).value = _
  by_cases zero : mpdCmp (mpdDivmod order.price interval).2 mpdZero = 0
  · rw [if_neg (not_not.mpr zero)]
    refine ⟨finite', ?_⟩
    have whole := even.mp zero
    rw [floor] at whole
    rw [below, bucket_ask]
    conv_rhs => rw [← whole, Int.ceil_intCast]
  · rw [if_pos zero]
    have uneven := mt even.mpr zero
    have raised := (input.quotients .ask).raised rfl order mem uneven
    rw [floor] at uneven
    have next : ⌈order.price.value / interval.value⌉ =
        ⌊order.price.value / interval.value⌋ + 1 := by
      apply (Int.ceil_eq_floor_add_one_iff_notMem _).mpr
      rintro ⟨k, eq⟩
      rw [← eq, Int.floor_intCast] at uneven
      exact uneven rfl
    have sum : (bidLevelPrice interval order).value + interval.value =
        Side.ask.bucket interval.value order.price.value := by
      rw [below, bucket_ask, next]
      push_cast
      ring
    refine ⟨Libmpdec.add_finite finite' input.finite, ?_⟩
    rw [mpdAdd_exact finite' input.finite (sum ▸ raised), sum]

theorem mergeAsks_buckets (input : DepthInput m heap interval)
    (products : ProductsFit interval.value (m.walk heap .ask)) (limit : ℕ) :
    (mergeAsks interval limit (m.walk heap .ask)).map levelValue =
      (m.buckets heap interval.value .ask).take limit := by
  have inv := input.index.toBookInv
  apply depthLoop_levels .ask _ (input.mergedSums .ask)
  constructor
  · exact fun order mem => (askLevelPrice_value input products mem).2
  · apply (inv.walk_sorted .ask).imp_of_mem
    intro one other mem mem' le
    rcases askLevelPrice_value input products mem with ⟨finite, raised⟩
    rw [decide_eq_true_eq, ge_iff_le, mpdCmp_ge_zero finite (inv.walk_finite other mem'), raised]
    exact bucket_ask_eq_iff input.step le
  · exact (inv.walk_sorted .ask).imp fun le => bucket_mono .ask input.step le

theorem mergeBids_buckets (input : DepthInput m heap interval)
    (products : ProductsFit interval.value (m.walk heap .bid)) (limit : ℕ) :
    (mergeBids interval limit (m.walk heap .bid)).map levelValue =
      (m.buckets heap interval.value .bid).take limit := by
  have inv := input.index.toBookInv
  apply depthLoop_levels .bid _ (input.mergedSums .bid)
  constructor
  · exact fun order mem => (bidLevelPrice_value input products mem).2
  · apply (inv.walk_sorted .bid).imp_of_mem
    intro one other mem mem' le
    rcases bidLevelPrice_value input products mem with ⟨finite, below⟩
    rw [decide_eq_true_eq, mpdCmp_le_zero finite (inv.walk_finite other mem'), below]
    exact bucket_bid_eq_iff input.step (neg_le_neg_iff.mp le)
  · exact (inv.walk_sorted .bid).imp fun le => bucket_mono .bid input.step le

end Book

/-! ## The answers -/

/-- What the two functions have to answer, for every limit: the first levels, or the first
buckets, of each side in match order. -/
structure DepthRight [Libmpdec] [Divmod] (m : Market) (heap : Ref → Option Order)
    (interval : Mpd) : Prop where
  plain : ∀ limit side, ((getDepth m heap limit).side side).map levelValue =
    (m.levels heap side).take limit
  merged : ∀ limit side, ((getDepthMerge m heap limit interval).side side).map levelValue =
    (m.buckets heap interval.value side).take limit
  /-- An ask is under the least multiple not below its price, a bid under the greatest not
  above it. -/
  buckets : ∀ price,
    IsLeast {multiple | (∃ k : ℤ, multiple = k * interval.value) ∧ price ≤ multiple}
      (Side.ask.bucket interval.value price) ∧
    IsGreatest {multiple | (∃ k : ℤ, multiple = k * interval.value) ∧ multiple ≤ price}
      (Side.bid.bucket interval.value price)
  /-- Prices grow for asks and fall for bids. -/
  ordered : ∀ side,
    ((m.levels heap side).Pairwise fun one other => side.rank one.1 < side.rank other.1) ∧
      (m.buckets heap interval.value side).Pairwise fun one other =>
        side.rank one.1 < side.rank other.1
  /-- A limit that is not below the number of orders leaves nothing out. -/
  total : ∀ side,
    ((m.levels heap side).length ≤ (m.walk heap side).length ∧
      ((m.levels heap side).map Prod.snd).sum =
        ((m.walk heap side).map fun order => order.left.value).sum) ∧
    (m.buckets heap interval.value side).length ≤ (m.walk heap side).length ∧
      ((m.buckets heap interval.value side).map Prod.snd).sum =
        ((m.walk heap side).map fun order => order.left.value).sum
  /-- The buckets gather the levels. -/
  regrouped : ∀ side, m.buckets heap interval.value side =
    Auction.levels (fun level : ℚ × ℚ => side.bucket interval.value level.1) Prod.snd
      (m.levels heap side)

section Answers

variable [Libmpdec] [Divmod]

/-- The depth of a book, plain and merged, is that of its orders, as long as quotients,
products and sums fit 34 digits. -/
theorem depth_aggregates (m : Market) (heap : Ref → Option Order) (interval : Mpd)
    (input : DepthInput m heap interval)
    (products : ∀ side, ProductsFit interval.value (m.walk heap side)) :
    DepthRight m heap interval where
  plain limit side := by
    have levels := depthLevels_levels input.index.toBookInv (input.sums side) limit
    cases side with
    | ask => exact levels
    | bid => exact levels
  merged limit side := by
    cases side with
    | ask => exact mergeAsks_buckets input (products .ask) limit
    | bid => exact mergeBids_buckets input (products .bid) limit
  buckets price := ⟨bucket_ask_isLeast input.step price, bucket_bid_isGreatest input.step price⟩
  ordered side := by
    have sorted := input.index.toBookInv.walk_sorted side
    constructor
    · exact levels_ordered side.rank_injective sorted
    · exact levels_ordered side.rank_injective (sorted.imp fun le => bucket_mono side input.step le)
  total side := ⟨⟨length_levels_le, sum_levels _ _ _⟩, length_levels_le, sum_levels _ _ _⟩
  regrouped side := (levels_levels (side.bucket interval.value) _ _ _).symm

end Answers

/-! ## A product that is cut -/

section Small

attribute [local instance] smallSettings Libmpdec.reference Divmod.reference

/-- A lone bid at a price of 25 digits and four zeros. -/
def highBid : Order :=
  { newOrder 0 smallMarket smallBefore.world .limit 2 .bid (Mpd.ofInt 1)
      (.finite false 1208925819614629174706176 4) (Mpd.ofInt 0) (Mpd.ofInt 0) "web" with id := 1 }

def highHeap (ref : Ref) : Option Order :=
  if ref = 0 then some highBid else none

def highMarket : Market :=
  { smallMarket with
    orders := dictReplace ∅ 1 0
    users := dictReplace ∅ 2 [0]
    asks := []
    bids := [0] }

theorem highMarket_rests {ref : Ref} {o : Order} :
    highMarket.Rests highHeap ref o ↔ ref = 0 ∧ o = highBid := by
  constructor
  · rintro ⟨found, _⟩
    unfold highHeap at found
    split at found
    · exact ⟨‹_›, (Option.some.inj found).symm⟩
    · cases found
  · rintro ⟨rfl, rfl⟩
    exact ⟨rfl, List.mem_singleton_self 0⟩

theorem highMarket_index : IndexInv highMarket highHeap where
  listed {side ref} mem := by
    cases side with
    | ask => cases mem
    | bid =>
        rw [List.mem_singleton.mp mem]
        exact ⟨highBid, rfl, rfl, rfl, rfl⟩
  unique rests rests' _ :=
    (highMarket_rests.mp rests).1.trans (highMarket_rests.mp rests').1.symm
  sorted side := by
    cases side with
    | ask => exact List.Pairwise.nil
    | bid => exact List.pairwise_singleton _ _
  orders {id ref} := by
    simp only [highMarket_rests]
    by_cases own : id = 1
    · subst own
      change dictFind (dictReplace ∅ 1 0) 1 = some ref ↔ _
      rw [dictFind_replace]
      constructor
      · rintro ⟨⟩
        exact ⟨highBid, ⟨rfl, rfl⟩, rfl⟩
      · rintro ⟨_, ⟨rfl, _⟩, _⟩
        rfl
    · change dictFind (dictReplace ∅ 1 0) id = some ref ↔ _
      rw [dictFind_replace_ne own, dictFind_empty]
      constructor
      · intro found
        cases found
      · rintro ⟨_, ⟨_, rfl⟩, rfl⟩
        exact absurd rfl own
  users {user ref} := by
    simp only [highMarket_rests]
    unfold Market.userList
    by_cases own : user = 2
    · subst own
      change ref ∈ (dictFind (dictReplace ∅ 2 [0]) 2).getD [] ↔ _
      rw [dictFind_replace]
      constructor
      · intro mem
        exact ⟨highBid, ⟨List.mem_singleton.mp mem, rfl⟩, rfl⟩
      · rintro ⟨_, ⟨rfl, _⟩, _⟩
        exact List.mem_singleton_self 0
    · change ref ∈ (dictFind (dictReplace ∅ 2 [0]) user).getD [] ↔ _
      rw [dictFind_replace_ne own, dictFind_empty]
      constructor
      · intro mem
        cases mem
      · rintro ⟨_, ⟨_, rfl⟩, rfl⟩
        exact absurd rfl own
  userSorted user := by
    unfold Market.userList
    by_cases own : user = 2
    · subst own
      change SortedBy _ ((dictFind (dictReplace ∅ 2 [0]) 2).getD [])
      rw [dictFind_replace]
      exact List.pairwise_singleton _ _
    · change SortedBy _ ((dictFind (dictReplace ∅ 2 [0]) user).getD [])
      rw [dictFind_replace_ne own, dictFind_empty]
      exact List.Pairwise.nil

/-- The sums of a list of one order. -/
theorem sumsFit_singleton {key : Order → ℚ} {order : Order} (finite : order.left.isFinite) :
    SumsFit key [order] where
  finite _ mem := List.mem_singleton.mp mem ▸ finite
  sums _ infix_ long _ := absurd infix_.length_le (not_le.mpr long)

theorem sumsFit_nil {key : Order → ℚ} : SumsFit key [] where
  finite _ mem := absurd mem List.not_mem_nil
  sums _ infix_ long _ := absurd infix_.length_le (not_le.mpr (Nat.zero_lt_two.trans_le long))

theorem highMarket_input (interval : Mpd) (finite : interval.isFinite) (step : 0 < interval.value)
    (fine : OnGrid mpdEtiny interval.value)
    (fits : |truncate (highBid.price.value / interval.value)| < 10 ^ mpdPrec) :
    DepthInput highMarket highHeap interval where
  index := highMarket_index
  positive side order mem := by
    cases side with
    | ask => cases mem
    | bid =>
        rw [List.mem_singleton.mp mem]
        decide +kernel
  fine side order mem := by
    cases side with
    | ask => cases mem
    | bid =>
        rw [List.mem_singleton.mp mem]
        have whole : OnGrid 0 highBid.price.value := by decide +kernel
        exact whole.mono (by decide)
  finite := finite
  step := step
  stepFine := fine
  quotients side := by
    cases side with
    | ask =>
        exact ⟨fun _ mem => absurd mem List.not_mem_nil,
          fun _ _ mem => absurd mem List.not_mem_nil⟩
    | bid =>
        refine ⟨fun order mem => ?_, nofun⟩
        rw [List.mem_singleton.mp mem]
        exact fits
  sums side := by
    cases side with
    | ask => exact sumsFit_nil
    | bid => exact sumsFit_singleton rfl
  mergedSums side := by
    cases side with
    | ask => exact sumsFit_nil
    | bid => exact sumsFit_singleton rfl

/-- An interval of 31 digits. -/
def longInterval : Mpd := .finite false 1267650600228229401496703205376 (-8)

example : highBid.price.value / longInterval.value = 953674.31640625 := by decide +kernel

/-- The multiple below the price has 37 digits, and the bucket of the bid is cut to 34. -/
theorem bucket_cut : ¬∀ m heap interval, DepthInput m heap interval →
    DepthRight m heap interval := by
  intro all
  have eight : OnGrid (-8) longInterval.value := by decide +kernel
  have right := all highMarket highHeap longInterval
    (highMarket_input longInterval rfl (by decide +kernel) (eight.mono (by decide))
      (by decide +kernel))
  have differ : ((getDepthMerge highMarket highHeap 1 longInterval).side .bid).map levelValue ≠
      (highMarket.buckets highHeap longInterval.value .bid).take 1 := by
    decide +kernel
  exact differ (right.merged 1 .bid)

/-- Whole sums of less than 34 digits. -/
theorem SumsFit.of_whole {key : Order → ℚ} {orders : List Order}
    (finite : (orders.all fun order => order.left.isFinite) = true)
    (whole : (orders.sublists.all fun run =>
      let sum : ℚ := (run.map fun order => order.left.value).sum
      decide (sum.den = 1 ∧ |sum.num| < 10 ^ mpdPrec)) = true) : SumsFit key orders where
  finite order mem := List.all_eq_true.mp finite order mem
  sums run infix_ _ _ := SigDigits.of_whole
    (of_decide_eq_true (List.all_eq_true.mp whole run (List.mem_sublists.mpr infix_.sublist)))

theorem deepMarket_sums {key : Order → ℚ} (side : Side) :
    SumsFit key (deepMarket.walk deepEngine.world.heap side) := by
  cases side with
  | ask => exact .of_whole (by decide +kernel) (by decide +kernel)
  | bid => exact .of_whole (by decide +kernel) (by decide +kernel)

/-- The prices of the deep market are whole, and so are the multiples of two around them. -/
theorem deepMarket_whole (side : Side) :
    ∀ order ∈ deepMarket.walk deepEngine.world.heap side,
      0 < order.price.value ∧ |truncate (order.price.value / 2)| < 10 ^ mpdPrec ∧
        ((side.bucket 2 order.price.value).den = 1 ∧
          |(side.bucket 2 order.price.value).num| < 10 ^ mpdPrec) ∧
        (truncate (order.price.value / 2) * 2 : ℚ).den = 1 ∧
          |(truncate (order.price.value / 2) * 2 : ℚ).num| < 10 ^ mpdPrec := by
  cases side with
  | ask => decide +kernel
  | bid => decide +kernel

theorem deepMarket_fine (side : Side) :
    ∀ order ∈ deepMarket.walk deepEngine.world.heap side, OnGrid 0 order.price.value := by
  cases side with
  | ask => decide +kernel
  | bid => decide +kernel

theorem two_value : (Mpd.ofInt 2).value = 2 := by
  decide +kernel

theorem deepMarket_input : DepthInput deepMarket deepEngine.world.heap (.ofInt 2) where
  index := deepMarket_inv.index
  positive side order mem := (deepMarket_whole side order mem).1
  fine side order mem := (deepMarket_fine side order mem).mono (by decide)
  finite := rfl
  step := by decide +kernel
  stepFine := by
    rw [two_value]
    exact OnGrid.mono (by decide : mpdEtiny ≤ 0) ⟨2, by norm_num⟩
  quotients side := by
    rw [two_value]
    exact ⟨fun order mem => (deepMarket_whole side order mem).2.1,
      fun _ order mem _ => .of_whole (deepMarket_whole side order mem).2.2.1⟩
  sums := deepMarket_sums
  mergedSums side := deepMarket_sums side

/-- Two asks at ten are a level of five units, the levels of eleven and twelve one bucket;
two bids at nine are a level of five units, and with the level of eight one bucket. -/
theorem depth_aggregates_small : DepthRight deepMarket deepEngine.world.heap (.ofInt 2) ∧
    deepMarket.levels deepEngine.world.heap .ask = [(10, 5), (11, 2), (12, 1)] ∧
    deepMarket.levels deepEngine.world.heap .bid = [(9, 5), (8, 1), (7, 1)] ∧
    deepMarket.buckets deepEngine.world.heap 2 .ask = [(10, 5), (12, 3)] ∧
    deepMarket.buckets deepEngine.world.heap 2 .bid = [(8, 6), (6, 1)] := by
  constructor
  · apply depth_aggregates _ _ _ deepMarket_input
    intro side order mem
    rw [two_value]
    exact .of_whole (deepMarket_whole side order mem).2.2.2
  · decide +kernel

end Small

end ViabtcServer.MatchEngine
