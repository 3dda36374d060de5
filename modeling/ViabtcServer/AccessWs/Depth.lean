import ViabtcServer.AccessWs.Feed
import ViabtcServer.Chart.Ladder
import ViabtcServer.MarketPrice.Backed

/-!
# Differences of depths

`aw_depth.c` sends its subscribers the difference between two answers about the depth of
a market: the levels that are new or changed, and those that are gone with the amount
zero. What a client keeps of them is the second answer.
-/

namespace ViabtcServer.AccessWs

open Container Decimal Chart
open MarketPrice (mpdText decimal jsonStringValue PrintedText)

/-! ## JSON -/

/-- `json_object_get`. -/
def jsonObjectGet : MatchEngine.Json → String → Option MatchEngine.Json
  | .object fields, key => (fields.find? fun field => decide (field.1 = key)).map Prod.snd
  | _, _ => none

/-- The items of an array, and of anything else none. -/
def jsonArrayItems : MatchEngine.Json → List MatchEngine.Json
  | .array items => items
  | _ => []

/-! ## Differences of lists -/

section Difference

variable [Libmpdec]

/-- The strings of a level. -/
def unitText (unit : MatchEngine.Json) : Option (String × String) :=
  match jsonStringValue (jsonArrayItems unit)[0]?, jsonStringValue (jsonArrayItems unit)[1]? with
  | some price, some amount => some (price, amount)
  | _, _ => none

/-- The price and the amount of a level, read. -/
def unitDecimals (unit : MatchEngine.Json) : Option (Mpd × Mpd) :=
  match unitText unit with
  | some (price, amount) =>
      match decimal price, decimal amount with
      | some price, some amount => some (price, amount)
      | _, _ => none
  | none => none

/-- A level that is gone. -/
def goneUnit (price : String) : MatchEngine.Json :=
  .array [.string price, .string "0"]

variable [DecimalText]

/-- The first loop of `get_list_diff`: what it adds to the difference, and what is left of
both lists. -/
def mergeLists (side : ℤ) : List MatchEngine.Json → List MatchEngine.Json →
    Option (List MatchEngine.Json × List MatchEngine.Json × List MatchEngine.Json)
  | [], list2 => some ([], [], list2)
  | unit1 :: list1, [] => some ([], unit1 :: list1, [])
  | unit1 :: list1, unit2 :: list2 =>
      match unitDecimals unit1, unitDecimals unit2 with
      | some (price1, amount1), some (price2, amount2) =>
          let cmp := mpdCmp price1 price2 * side
          if cmp = 0 then
            (mergeLists side list1 list2).map fun merged =>
              (if mpdCmp amount1 amount2 ≠ 0 then unit2 :: merged.1 else merged.1, merged.2)
          else if cmp > 0 then
            (mergeLists side (unit1 :: list1) list2).map fun merged =>
              (unit2 :: merged.1, merged.2)
          else
            (mergeLists side list1 (unit2 :: list2)).map fun merged =>
              (goneUnit (mpdText price1) :: merged.1, merged.2)
      | _, _ => none
termination_by list1 list2 => list1.length + list2.length

/-- The second loop of `get_list_diff`. -/
def goneLists : List MatchEngine.Json → Option (List MatchEngine.Json)
  | [] => some []
  | unit :: list =>
      match unitText unit with
      | some (price, _) => (goneLists list).map (goneUnit price :: ·)
      | none => none

/-- `get_list_diff`; `none` is `NULL`, also for a level that cannot be read. -/
def getListDiff (list1 list2 : Option MatchEngine.Json) (limit : ℕ) (side : ℤ) :
    Option (List MatchEngine.Json) :=
  match list1, list2 with
  | some list1, some list2 =>
      let list1 := jsonArrayItems list1
      let list2 := jsonArrayItems list2
      match mergeLists side list1 list2 with
      | some (diff, rest1, rest2) =>
          match if list2.length < limit then goneLists rest1 else some [] with
          | some gone =>
              let diff := diff ++ gone ++ rest2
              if diff.length = 0 then none else some diff
          | none => none
      | none => none
  | _, _ => none

/-- `get_depth_diff`. -/
def getDepthDiff (first second : MatchEngine.Json) (limit : ℕ) : Option MatchEngine.Json :=
  let asks := getListDiff (jsonObjectGet first "asks") (jsonObjectGet second "asks") limit 1
  let bids := getListDiff (jsonObjectGet first "bids") (jsonObjectGet second "bids") limit (-1)
  match asks, bids with
  | none, none => none
  | some asks, none => some (.object [("asks", .array asks)])
  | none, some bids => some (.object [("bids", .array bids)])
  | some asks, some bids => some (.object [("asks", .array asks), ("bids", .array bids)])

end Difference

/-! ## Reading levels -/

section Levels

universe u

variable [Libmpdec] {P : Type u}

/-- The numbers of a level. -/
def readLevel (unit : MatchEngine.Json) : Option (ℚ × ℚ) :=
  match unitDecimals unit with
  | some (price, amount) =>
      if price.isFinite && amount.isFinite then some (price.value, amount.value) else none
  | none => none

/-- The levels of a list, their prices in an order of their own. -/
def readLevels (price : ℚ → P) (units : List MatchEngine.Json) : List (P × ℚ) :=
  (units.filterMap readLevel).map fun level => (price level.1, level.2)

/-- All levels are numbers. -/
def Readable (units : List MatchEngine.Json) : Prop :=
  ∀ unit ∈ units, (readLevel unit).isSome

/-- The sign tells how prices are compared. -/
def Sided [LinearOrder P] (price : ℚ → P) (side : ℤ) : Prop :=
  ∀ {a b : Mpd}, a.isFinite → b.isFinite →
    (mpdCmp a b * side = 0 ↔ price a.value = price b.value) ∧
      (mpdCmp a b * side > 0 ↔ price b.value < price a.value)

theorem sided_asks : Sided (fun price : ℚ => price) 1 := by
  intro a b fa fb
  rw [mul_one]
  exact ⟨mpdCmp_eq_zero fa fb, mpdCmp_gt_zero fa fb⟩

theorem sided_bids : Sided OrderDual.toDual (-1) := by
  intro a b fa fb
  constructor
  · rw [mul_neg_one, neg_eq_zero, mpdCmp_eq_zero fa fb]
    exact OrderDual.toDual_inj.symm
  · rw [mul_neg_one, gt_iff_lt, neg_pos, mpdCmp_lt_zero fa fb]
    exact OrderDual.toDual_lt_toDual.symm

/-- The level zero is written as. -/
class ReadsZero : Prop where
  zero : ∃ read, decimal "0" = some read ∧ read.isFinite ∧ read.value = 0

variable {unit : MatchEngine.Json} {units : List MatchEngine.Json} {price : ℚ → P}

theorem readLevel_eq {level : ℚ × ℚ} (read : readLevel unit = some level) :
    ∃ price amount, unitDecimals unit = some (price, amount) ∧ price.isFinite = true ∧
      amount.isFinite = true ∧ level = (price.value, amount.value) := by
  unfold readLevel at read
  cases decimals : unitDecimals unit with
  | none => rw [decimals] at read; cases read
  | some pair =>
      rcases pair with ⟨price, amount⟩
      simp only [decimals] at read
      split at read
      case isTrue finite =>
        rcases (Bool.and_eq_true _ _).mp finite with ⟨fp, fa⟩
        exact ⟨price, amount, rfl, fp, fa, (Option.some.inj read).symm⟩
      case isFalse => cases read

/-- The strings of a level that can be read. -/
theorem unitDecimals_eq {read : Mpd × Mpd} (decimals : unitDecimals unit = some read) :
    ∃ price amount, unitText unit = some (price, amount) ∧ decimal price = some read.1 ∧
      decimal amount = some read.2 := by
  unfold unitDecimals at decimals
  cases text : unitText unit with
  | none => rw [text] at decimals; cases decimals
  | some pair =>
      rcases pair with ⟨price, amount⟩
      simp only [text] at decimals
      split at decimals
      case h_1 price' amount' first second =>
        obtain rfl := Option.some.inj decimals
        exact ⟨price, amount, rfl, first, second⟩
      case h_2 => cases decimals

theorem readLevels_cons {level : ℚ × ℚ} (read : readLevel unit = some level) :
    readLevels price (unit :: units) = (price level.1, level.2) :: readLevels price units := by
  unfold readLevels
  rw [List.filterMap_cons_some read, List.map_cons]

theorem Readable.cons (readable : Readable (unit :: units)) :
    (∃ level, readLevel unit = some level) ∧ Readable units :=
  ⟨Option.isSome_iff_exists.mp (readable unit List.mem_cons_self),
    fun other mem => readable other (List.mem_cons_of_mem _ mem)⟩

theorem Readable.of_cons {level : ℚ × ℚ} (read : readLevel unit = some level)
    (rest : Readable units) : Readable (unit :: units) := by
  intro other mem
  rcases List.mem_cons.mp mem with rfl | later
  · rw [read]
    rfl
  · exact rest other later

theorem readLevels_length (readable : Readable units) :
    (readLevels price units).length = units.length := by
  induction units with
  | nil => rfl
  | cons unit units ih =>
      rcases readable.cons with ⟨⟨level, read⟩, rest⟩
      rw [readLevels_cons read, List.length_cons, List.length_cons, ih rest]

/-- A level that is gone is read as one with the amount zero. -/
theorem readLevel_gone [ReadsZero] {text : String} {read : Mpd}
    (readText : decimal text = some read) (finite : read.isFinite) :
    readLevel (goneUnit text) = some (read.value, 0) := by
  rcases ReadsZero.zero with ⟨zero, readZero, finite', value⟩
  have decimals : unitDecimals (goneUnit text) = some (read, zero) := by
    unfold unitDecimals
    rw [show unitText (goneUnit text) = some (text, "0") from rfl]
    simp only [readText, readZero]
  unfold readLevel
  rw [decimals]
  simp only [finite, finite', value, Bool.and_self, if_true]

variable [LinearOrder P] [DecimalText] [PrintedText] [ReadsZero] {side : ℤ}

omit [DecimalText] [PrintedText] in
/-- What the second loop adds takes out all levels. -/
theorem goneLists_reads (price : ℚ → P) (readable : Readable units) :
    ∃ gone, goneLists units = some gone ∧ Readable gone ∧
      readLevels price gone = difference true (readLevels price units) [] := by
  induction units with
  | nil => exact ⟨[], rfl, nofun, difference_nil.symm⟩
  | cons unit units ih =>
      rcases readable.cons with ⟨⟨level, read⟩, rest⟩
      rcases ih rest with ⟨gone, eq, readable, levels⟩
      rcases readLevel_eq read with ⟨value, amount, decimals, finite, _, rfl⟩
      rcases unitDecimals_eq decimals with ⟨text, _, texts, readText, _⟩
      refine ⟨goneUnit text :: gone, ?_, readable.of_cons (readLevel_gone readText finite), ?_⟩
      · unfold goneLists
        simp only [texts, eq, Option.map_some]
      · rw [readLevels_cons (readLevel_gone readText finite), readLevels_cons read,
          difference_left, if_pos rfl, levels]

/-- The loops of `get_list_diff` go through levels that can be read as `difference` goes
through their numbers. -/
theorem mergeLists_reads (sided : Sided price side) (short : Bool)
    (units1 units2 : List MatchEngine.Json) (readable1 : Readable units1)
    (readable2 : Readable units2) :
    ∃ diff rest1 rest2 gone, mergeLists side units1 units2 = some (diff, rest1, rest2) ∧
      goneLists rest1 = some gone ∧
      Readable (diff ++ (if short then gone else []) ++ rest2) ∧
      readLevels price (diff ++ (if short then gone else []) ++ rest2) =
        difference short (readLevels price units1) (readLevels price units2) := by
  induction n : units1.length + units2.length using Nat.strong_induction_on
    generalizing units1 units2 with
  | _ n ih =>
      subst n
      rcases units1 with _ | ⟨unit1, units1⟩
      · refine ⟨[], [], units2, [], by rw [mergeLists], rfl, ?_⟩
        have none_ : readLevels price [] = [] := rfl
        rw [ite_self, none_, difference_nil]
        exact ⟨readable2, rfl⟩
      rcases units2 with _ | ⟨unit2, units2⟩
      · rcases goneLists_reads price readable1 with ⟨gone, eq, readable, levels⟩
        refine ⟨[], unit1 :: units1, [], gone, by rw [mergeLists], eq, ?_⟩
        have none_ : readLevels price [] = [] := rfl
        cases short with
        | true =>
            rw [if_pos rfl, List.nil_append, List.append_nil, levels, none_]
            exact ⟨readable, rfl⟩
        | false =>
            rcases readable1.cons with ⟨⟨level, read⟩, _⟩
            rw [if_neg Bool.false_ne_true, none_, readLevels_cons read, difference_left,
              if_neg Bool.false_ne_true]
            exact ⟨nofun, rfl⟩
      rcases readable1.cons with ⟨⟨level1, read1⟩, rest1⟩
      rcases readable2.cons with ⟨⟨level2, read2⟩, rest2⟩
      rcases readLevel_eq read1 with ⟨price1, amount1, decimals1, finite1, finiteA1, rfl⟩
      rcases readLevel_eq read2 with ⟨price2, amount2, decimals2, finite2, finiteA2, rfl⟩
      rcases sided finite1 finite2 with ⟨equal, before⟩
      by_cases same : mpdCmp price1 price2 * side = 0
      · rcases ih _ (by simp; omega) units1 units2 rest1 rest2 rfl with
          ⟨diff, left1, left2, gone, merged, eq, readable, levels⟩
        refine ⟨if mpdCmp amount1 amount2 ≠ 0 then unit2 :: diff else diff, left1, left2, gone,
          ?_, eq, ?_, ?_⟩
        · rw [mergeLists]
          simp only [decimals1, decimals2, if_pos same, merged, Option.map_some]
        · split
          · exact readable.of_cons read2
          · exact readable
        · rw [readLevels_cons read1, readLevels_cons read2, equal.mp same, difference_same,
            ← levels]
          by_cases amounts : amount1.value = amount2.value
          · rw [if_pos amounts,
              if_neg (not_not.mpr ((mpdCmp_eq_zero finiteA1 finiteA2).mpr amounts))]
          · rw [if_neg amounts, if_pos (mt (mpdCmp_eq_zero finiteA1 finiteA2).mp amounts),
              List.cons_append, List.cons_append, readLevels_cons read2]
      by_cases more : mpdCmp price1 price2 * side > 0
      · rcases ih _ (by simp) (unit1 :: units1) units2 readable1 rest2 rfl with
          ⟨diff, left1, left2, gone, merged, eq, readable, levels⟩
        refine ⟨unit2 :: diff, left1, left2, gone, ?_, eq, readable.of_cons read2, ?_⟩
        · rw [mergeLists]
          simp only [decimals1, decimals2, if_neg same, if_pos more, merged, Option.map_some]
        · rw [readLevels_cons read1] at levels ⊢
          rw [readLevels_cons read2, difference_before (before.mp more), ← levels,
            List.cons_append, List.cons_append, readLevels_cons read2]
      · rcases ih _ (by simp) units1 (unit2 :: units2) rest1 readable2 rfl with
          ⟨diff, left1, left2, gone, merged, eq, readable, levels⟩
        rcases unitDecimals_eq decimals1 with ⟨text, _, _, readText, _⟩
        rcases PrintedText.stripped (short_setString readText) with ⟨printed, readPrinted, alike⟩
        have finite : printed.isFinite = true := alike.isFinite.trans finite1
        have after : price price1.value < price price2.value :=
          lt_of_le_of_ne (not_lt.mp (mt before.mpr more)) (mt equal.mpr same)
        refine ⟨goneUnit (mpdText price1) :: diff, left1, left2, gone, ?_, eq,
          readable.of_cons (readLevel_gone readPrinted finite), ?_⟩
        · rw [mergeLists]
          simp only [decimals1, decimals2, if_neg same, if_neg more, merged, Option.map_some]
        · rw [readLevels_cons read2] at levels ⊢
          rw [readLevels_cons read1, difference_after after, ← levels, List.cons_append,
            List.cons_append, readLevels_cons (readLevel_gone readPrinted finite), alike.value]

/-- What `get_list_diff` answers for levels that can be read. -/
theorem getListDiff_reads (sided : Sided price side) {units1 units2 : List MatchEngine.Json}
    (readable1 : Readable units1) (readable2 : Readable units2) (limit : ℕ) :
    let levels := difference (decide ((readLevels price units2).length < limit))
      (readLevels price units1) (readLevels price units2)
    let diff := getListDiff (some (.array units1)) (some (.array units2)) limit side
    (diff = none ↔ levels = []) ∧ readLevels price (diff.getD []) = levels := by
  rcases mergeLists_reads sided (decide (units2.length < limit)) units1 units2 readable1 readable2
    with ⟨diff, rest1, rest2, gone, merged, eq, readable, levels⟩
  have second : (if units2.length < limit then goneLists rest1 else some []) =
      some (if decide (units2.length < limit) = true then gone else []) := by
    by_cases less : units2.length < limit
    · rw [if_pos less, if_pos (decide_eq_true less), eq]
    · rw [if_neg less, if_neg (fun on => less (of_decide_eq_true on))]
  have answer : getListDiff (some (.array units1)) (some (.array units2)) limit side =
      let whole := diff ++ (if decide (units2.length < limit) = true then gone else []) ++ rest2
      if whole.length = 0 then none else some whole := by
    have loops : getListDiff (some (.array units1)) (some (.array units2)) limit side =
        match mergeLists side units1 units2 with
        | some (diff, rest1, rest2) =>
            match if units2.length < limit then goneLists rest1 else some [] with
            | some gone =>
                if (diff ++ gone ++ rest2).length = 0 then none else some (diff ++ gone ++ rest2)
            | none => none
        | none => none :=
      rfl
    rw [loops, merged]
    simp only
    rw [second]
  rw [readLevels_length readable2]
  simp only [← levels, answer]
  have length := @readLevels_length _ _ _ price readable
  revert length
  generalize diff ++ (if decide (units2.length < limit) = true then gone else []) ++ rest2 = whole
  intro length
  rw [← List.length_eq_zero_iff, length]
  split
  case isTrue none_ =>
    rw [List.length_eq_zero_iff.mp none_]
    exact ⟨iff_of_true rfl rfl, rfl⟩
  case isFalse some_ => exact ⟨iff_of_false nofun some_, rfl⟩

end Levels

end ViabtcServer.AccessWs
