import Mathlib.Data.List.Sort
import Mathlib.Order.Basic
import Mathlib.Algebra.Group.Defs

/-!
# Ladders

The levels of one side of a book, each a price with an amount, in the order of their
prices. A level is put in place of the one with its price, and one with the amount zero
takes that out. The difference of two ladders is a list of levels that turns one into
the other.
-/

namespace ViabtcServer.Chart

universe u v

variable {P : Type u} {A : Type v} [LinearOrder P] [Zero A]

/-- Prices in order, and no level without an amount. -/
structure IsLadder (levels : List (P × A)) : Prop where
  sorted : levels.Pairwise (·.1 < ·.1)
  nonzero : ∀ level ∈ levels, level.2 ≠ 0

variable [DecidableEq A]

/-- Put one level in its place. -/
def put (level : P × A) : List (P × A) → List (P × A)
  | [] => if level.2 = 0 then [] else [level]
  | first :: rest =>
      if level.1 < first.1 then
        if level.2 = 0 then first :: rest else level :: first :: rest
      else if level.1 = first.1 then
        if level.2 = 0 then rest else level :: rest
      else first :: put level rest

/-- Put one level after the other. -/
def putAll (updates levels : List (P × A)) : List (P × A) :=
  updates.foldl (fun levels level => put level levels) levels

/-- The levels that turn `first` into `second`, as far as `second` goes; what comes after
it is taken out if it is `short`. -/
def difference (short : Bool) : List (P × A) → List (P × A) → List (P × A)
  | [], second => second
  | level :: first, [] =>
      if short then (level.1, 0) :: difference short first [] else []
  | level :: first, level' :: second =>
      if level.1 = level'.1 then
        if level.2 = level'.2 then difference short first second
        else level' :: difference short first second
      else if level'.1 < level.1 then level' :: difference short (level :: first) second
      else (level.1, 0) :: difference short first (level' :: second)
termination_by first second => first.length + second.length

variable {short : Bool} {level : P × A} {levels first second updates : List (P × A)} {limit : ℕ}

/-! ## Putting levels -/

theorem putAll_cons : putAll (level :: updates) levels = putAll updates (put level levels) := rfl

omit [DecidableEq A] in
theorem IsLadder.tail (ladder : IsLadder (level :: levels)) : IsLadder levels :=
  ⟨ladder.sorted.of_cons, fun other mem => ladder.nonzero other (List.mem_cons_of_mem _ mem)⟩

omit [DecidableEq A] in
theorem IsLadder.lt (ladder : IsLadder (level :: levels)) : ∀ other ∈ levels, level.1 < other.1 :=
  (List.pairwise_cons.mp ladder.sorted).1

omit [DecidableEq A] in
theorem IsLadder.head (ladder : IsLadder (level :: levels)) : level.2 ≠ 0 :=
  ladder.nonzero level List.mem_cons_self

/-- Later levels leave the first one alone. -/
theorem putAll_after (later : ∀ update ∈ updates, level.1 < update.1) :
    putAll updates (level :: levels) = level :: putAll updates levels := by
  induction updates generalizing levels with
  | nil => rfl
  | cons update updates ih =>
      have above := later update List.mem_cons_self
      have next : put update (level :: levels) = level :: put update levels := by
        rw [put, if_neg above.not_gt, if_neg above.ne']
      rw [putAll_cons, putAll_cons, next]
      exact ih fun other mem => later other (List.mem_cons_of_mem _ mem)

/-- A ladder is built by putting its levels. -/
theorem IsLadder.putAll_nil (ladder : IsLadder levels) : putAll levels [] = levels := by
  induction levels with
  | nil => rfl
  | cons level levels ih =>
      have first : put level [] = [level] := if_neg ladder.head
      rw [putAll_cons, first, putAll_after ladder.lt, ih ladder.tail]

/-- To put a level that is there changes nothing. -/
theorem IsLadder.put_of_mem (ladder : IsLadder levels) (mem : level ∈ levels) :
    put level levels = levels := by
  induction levels with
  | nil => cases mem
  | cons first rest ih =>
      rcases List.mem_cons.mp mem with rfl | later
      · rw [put, if_neg (lt_irrefl _), if_pos rfl, if_neg ladder.head]
      · have above := ladder.lt level later
        rw [put, if_neg above.not_gt, if_neg above.ne', ih ladder.tail later]

/-- Nor does taking out what is not there. -/
theorem put_of_absent (zero : level.2 = 0) (absent : ∀ other ∈ levels, other.1 ≠ level.1) :
    put level levels = levels := by
  induction levels with
  | nil => exact if_pos zero
  | cons first rest ih =>
      have differ := absent first List.mem_cons_self
      rw [put, if_pos zero, if_neg differ.symm,
        ih fun other mem => absent other (List.mem_cons_of_mem _ mem)]
      exact ite_self _

theorem put_zero_head : put (level.1, 0) (level :: levels) = levels := by
  rw [put, if_neg (lt_irrefl _), if_pos rfl, if_pos rfl]

/-! ## Differences -/

theorem difference_nil : difference short [] second = second := by
  rw [difference]

theorem difference_left :
    difference short (level :: first) [] =
      if short then (level.1, 0) :: difference short first [] else [] := by
  rw [difference]

theorem difference_same {amount amount' : A} {price : P} :
    difference short ((price, amount) :: first) ((price, amount') :: second) =
      if amount = amount' then difference short first second
      else (price, amount') :: difference short first second := by
  rw [difference, if_pos rfl]

theorem difference_before {level' : P × A} (before : level'.1 < level.1) :
    difference short (level :: first) (level' :: second) =
      level' :: difference short (level :: first) second := by
  rw [difference, if_neg before.ne', if_pos before]

theorem difference_after {level' : P × A} (after : level.1 < level'.1) :
    difference short (level :: first) (level' :: second) =
      (level.1, 0) :: difference short first (level' :: second) := by
  rw [difference, if_neg after.ne, if_neg after.not_gt]

omit [DecidableEq A] in
/-- Two ladders gone through together: the cases of their first prices. -/
theorem ladders_induction
    {motive : (first second : List (P × A)) → IsLadder first → IsLadder second → Prop}
    (nil : ∀ second ladder ladder', motive [] second ladder ladder')
    (left : ∀ level first (ladder : IsLadder (level :: first)) ladder',
      motive first [] ladder.tail ladder' → motive (level :: first) [] ladder ladder')
    (same : ∀ price amount amount' first second (ladder : IsLadder ((price, amount) :: first))
      (ladder' : IsLadder ((price, amount') :: second)),
      motive first second ladder.tail ladder'.tail →
        motive ((price, amount) :: first) ((price, amount') :: second) ladder ladder')
    (before : ∀ level level' first second (ladder : IsLadder (level :: first))
      (ladder' : IsLadder (level' :: second)), level'.1 < level.1 →
        motive (level :: first) second ladder ladder'.tail →
          motive (level :: first) (level' :: second) ladder ladder')
    (after : ∀ level level' first second (ladder : IsLadder (level :: first))
      (ladder' : IsLadder (level' :: second)), level.1 < level'.1 →
        motive first (level' :: second) ladder.tail ladder' →
          motive (level :: first) (level' :: second) ladder ladder')
    (first second : List (P × A)) (ladder : IsLadder first) (ladder' : IsLadder second) :
    motive first second ladder ladder' := by
  induction n : first.length + second.length using Nat.strong_induction_on
    generalizing first second with
  | _ n ih =>
      subst n
      rcases first with _ | ⟨⟨price, amount⟩, first⟩
      · exact nil second ladder ladder'
      · rcases second with _ | ⟨⟨price', amount'⟩, second⟩
        · exact left _ first ladder ladder' (ih _ (by simp) first [] ladder.tail ladder' rfl)
        · rcases lt_trichotomy price price' with less | rfl | more
          · exact after _ _ first second ladder ladder' less
              (ih _ (by simp) first _ ladder.tail ladder' rfl)
          · exact same price amount amount' first second ladder ladder'
              (ih _ (by simp; omega) first second ladder.tail ladder'.tail rfl)
          · exact before _ _ first second ladder ladder' more
              (ih _ (by simp) _ second ladder ladder'.tail rfl)

/-- A difference has levels of the second ladder, and takes out prices of the first one
that the second one does not have. -/
theorem mem_difference (ladder : IsLadder first) (ladder' : IsLadder second)
    (mem : level ∈ difference short first second) :
    level ∈ second ∨ level.2 = 0 ∧ (∃ amount, (level.1, amount) ∈ first) ∧
      ∀ other ∈ second, other.1 ≠ level.1 := by
  induction first, second, ladder, ladder' using ladders_induction with
  | nil second ladder ladder' =>
      rw [difference_nil] at mem
      exact Or.inl mem
  | left top first ladder ladder' ih =>
      rw [difference_left] at mem
      split at mem
      · rcases List.mem_cons.mp mem with rfl | later
        · exact Or.inr ⟨rfl, ⟨_, List.mem_cons_self⟩, fun _ none_ => absurd none_ List.not_mem_nil⟩
        · rcases ih later with none_ | ⟨zero, ⟨amount, there⟩, absent⟩
          · cases none_
          · exact Or.inr ⟨zero, ⟨amount, List.mem_cons_of_mem _ there⟩, absent⟩
      · cases mem
  | same price amount amount' first second ladder ladder' ih =>
      have rest (later : level ∈ difference short first second) :
          level ∈ (price, amount') :: second ∨ level.2 = 0 ∧
            (∃ amount', (level.1, amount') ∈ (price, amount) :: first) ∧
              ∀ other ∈ (price, amount') :: second, other.1 ≠ level.1 := by
        rcases ih later with there | ⟨zero, ⟨amount, there⟩, absent⟩
        · exact Or.inl (List.mem_cons_of_mem _ there)
        · refine Or.inr ⟨zero, ⟨amount, List.mem_cons_of_mem _ there⟩, ?_⟩
          intro other mem
          rcases List.mem_cons.mp mem with rfl | other_
          · exact (ladder.lt _ there).ne
          · exact absent other other_
      rw [difference_same] at mem
      split at mem
      · exact rest mem
      · rcases List.mem_cons.mp mem with rfl | later
        · exact Or.inl List.mem_cons_self
        · exact rest later
  | before top top' first second ladder ladder' before ih =>
      rw [difference_before before] at mem
      rcases List.mem_cons.mp mem with rfl | later
      · exact Or.inl List.mem_cons_self
      · rcases ih later with there | ⟨zero, ⟨amount, there⟩, absent⟩
        · exact Or.inl (List.mem_cons_of_mem _ there)
        · refine Or.inr ⟨zero, ⟨amount, there⟩, ?_⟩
          intro other mem
          rcases List.mem_cons.mp mem with rfl | other_
          · rcases List.mem_cons.mp there with same | further
            · rw [← same] at before
              exact before.ne
            · exact (before.trans (ladder.lt _ further)).ne
          · exact absent other other_
  | after top top' first second ladder ladder' after ih =>
      rw [difference_after after] at mem
      rcases List.mem_cons.mp mem with rfl | later
      · refine Or.inr ⟨rfl, ⟨_, List.mem_cons_self⟩, ?_⟩
        intro other mem
        rcases List.mem_cons.mp mem with rfl | other_
        · exact after.ne'
        · exact (after.trans (ladder'.lt _ other_)).ne'
      · rcases ih later with there | ⟨zero, ⟨amount, there⟩, absent⟩
        · exact Or.inl there
        · exact Or.inr ⟨zero, ⟨amount, List.mem_cons_of_mem _ there⟩, absent⟩

/-- All prices of a difference come after one that is before both ladders. -/
theorem difference_after_all (short : Bool) {price : P} (ladder : IsLadder first)
    (ladder' : IsLadder second)
    (before : ∀ level ∈ first, price < level.1) (before' : ∀ level ∈ second, price < level.1) :
    ∀ level ∈ difference short first second, price < level.1 := by
  intro level mem
  rcases mem_difference ladder ladder' mem with there | ⟨_, ⟨amount, there⟩, _⟩
  · exact before' level there
  · have above := before (level.1, amount) there
    exact above

/-- A difference turns the first ladder into the second one, with what comes after it left
over unless it is short. -/
theorem putAll_difference (short : Bool) (ladder : IsLadder first) (ladder' : IsLadder second) :
    ∃ rest, putAll (difference short first second) first = second ++ rest ∧
      (short = true → rest = []) := by
  induction first, second, ladder, ladder' using ladders_induction with
  | nil second ladder ladder' =>
      refine ⟨[], ?_, fun _ => rfl⟩
      rw [difference_nil, ladder'.putAll_nil, List.append_nil]
  | left top first ladder ladder' ih =>
      rw [difference_left]
      split
      case isTrue on =>
        rw [putAll_cons, put_zero_head]
        exact ih
      case isFalse off =>
        exact ⟨top :: first, rfl, fun on => absurd on off⟩
  | same price amount amount' first second ladder ladder' ih =>
      rcases ih with ⟨rest, turned, none_⟩
      have later := difference_after_all short ladder.tail ladder'.tail ladder.lt
        ladder'.lt
      refine ⟨rest, ?_, none_⟩
      rw [difference_same]
      split
      case isTrue equal =>
        subst equal
        rw [putAll_after later, turned, List.cons_append]
      case isFalse differ =>
        have first_ : put (price, amount') ((price, amount) :: first) =
            (price, amount') :: first := by
          rw [put, if_neg (lt_irrefl _), if_pos rfl, if_neg ladder'.head]
        have later' : ∀ level ∈ difference short first second, (price, amount').1 < level.1 :=
          later
        rw [putAll_cons, first_, putAll_after later', turned, List.cons_append]
  | before top top' first second ladder ladder' before ih =>
      rcases ih with ⟨rest, turned, none_⟩
      refine ⟨rest, ?_, none_⟩
      have above : ∀ level ∈ top :: first, top'.1 < level.1 := by
        intro level mem
        rcases List.mem_cons.mp mem with rfl | there
        · exact before
        · exact before.trans (ladder.lt level there)
      have first_ : put top' (top :: first) = top' :: top :: first := by
        rw [put, if_pos before, if_neg ladder'.head]
      rw [difference_before before, putAll_cons, first_,
        putAll_after (difference_after_all short ladder ladder'.tail above ladder'.lt), turned,
        List.cons_append]
  | after top top' first second ladder ladder' after ih =>
      rw [difference_after after, putAll_cons, put_zero_head]
      exact ih

/-- A ladder of at most `limit` levels is what applying the difference leaves of the
`limit` best levels. -/
theorem take_putAll_difference (ladder : IsLadder first) (ladder' : IsLadder second)
    (most : second.length ≤ limit) :
    (putAll (difference (decide (second.length < limit)) first second) first).take limit =
      second := by
  rcases putAll_difference (decide (second.length < limit)) ladder ladder' with
    ⟨rest, turned, none_⟩
  rw [turned]
  rcases most.lt_or_eq with less | rfl
  · rw [none_ (decide_eq_true less), List.append_nil, List.take_of_length_le most]
  · exact List.take_left

/-- Applied again it changes nothing. -/
theorem putAll_difference_again (ladder : IsLadder first) (ladder' : IsLadder second) :
    putAll (difference short first second) second = second := by
  have all : ∀ level ∈ difference short first second, put level second = second := by
    intro level mem
    rcases mem_difference ladder ladder' mem with there | ⟨zero, _, absent⟩
    · exact ladder'.put_of_mem there
    · exact put_of_absent zero absent
  revert all
  generalize difference short first second = updates
  intro all
  induction updates with
  | nil => rfl
  | cons level updates ih =>
      rw [putAll_cons, all level List.mem_cons_self]
      exact ih fun other mem => all other (List.mem_cons_of_mem _ mem)

/-- There is no difference between ladders of at most `limit` levels only if they are
equal. -/
theorem difference_eq_nil_iff (ladder : IsLadder first) (ladder' : IsLadder second)
    (most : first.length ≤ limit) (most' : second.length ≤ limit) :
    difference (decide (second.length < limit)) first second = [] ↔ first = second := by
  constructor
  · intro none_
    have turned := take_putAll_difference ladder ladder' most'
    rw [none_] at turned
    exact (List.take_of_length_le most).symm.trans turned
  · rintro rfl
    generalize decide (first.length < limit) = short
    clear most most' ladder'
    induction first with
    | nil => exact difference_nil
    | cons level first ih => rw [difference_same, if_pos rfl, ih ladder.tail]

end ViabtcServer.Chart
