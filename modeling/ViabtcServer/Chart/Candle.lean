import Mathlib.Algebra.BigOperators.Group.List.Basic
import Mathlib.Order.Bounds.Basic
import Mathlib.Order.MinMax

/-!
# Candles

The first, last, highest and lowest price of some trades and what was traded. Candles
of trades that follow each other merge to the candle of all of them, so that a candle
of a long interval can be put together from those of the short ones inside it.
-/

namespace ViabtcServer.Chart

universe u v w

/-- A price and the amount traded at it. -/
structure Trade (α : Type u) where
  price : α
  amount : α
  deriving DecidableEq

structure Candle (α : Type u) where
  first : α
  last : α
  high : α
  low : α
  volume : α
  deal : α
  deriving DecidableEq

namespace Candle

variable {α : Type u} [LinearOrder α] [AddCommMonoid α]

/-- A price at which nothing was traded. -/
def flat (price : α) : Candle α where
  first := price
  last := price
  high := price
  low := price
  volume := 0
  deal := 0

/-- A candle and a later one. -/
def merge (c d : Candle α) : Candle α where
  first := c.first
  last := d.last
  high := max c.high d.high
  low := min c.low d.low
  volume := c.volume + d.volume
  deal := c.deal + d.deal

variable [Mul α]

/-- The candle of trades in the order they were made. -/
structure Of (c : Candle α) (trades : List (Trade α)) : Prop where
  first : trades.head?.map Trade.price = some c.first
  last : trades.getLast?.map Trade.price = some c.last
  high : IsGreatest {p | p ∈ trades.map Trade.price} c.high
  low : IsLeast {p | p ∈ trades.map Trade.price} c.low
  volume : c.volume = (trades.map Trade.amount).sum
  deal : c.deal = (trades.map fun t => t.price * t.amount).sum

variable {c d : Candle α} {trades later : List (Trade α)}

omit [AddCommMonoid α] [Mul α] in
theorem isGreatest_append {l l' : List α} {a b : α} (left : IsGreatest {p | p ∈ l} a)
    (right : IsGreatest {p | p ∈ l'} b) : IsGreatest {p | p ∈ l ++ l'} (max a b) := by
  constructor
  · rcases max_choice a b with same | same
    · rw [same]
      exact List.mem_append_left _ left.1
    · rw [same]
      exact List.mem_append_right _ right.1
  · intro p mem
    rcases List.mem_append.mp mem with here | there
    · exact le_max_of_le_left (left.2 here)
    · exact le_max_of_le_right (right.2 there)

omit [AddCommMonoid α] [Mul α] in
theorem isLeast_append {l l' : List α} {a b : α} (left : IsLeast {p | p ∈ l} a)
    (right : IsLeast {p | p ∈ l'} b) : IsLeast {p | p ∈ l ++ l'} (min a b) :=
  @isGreatest_append αᵒᵈ _ l l' a b left right

theorem Of.ne_nil (of : c.Of trades) : trades ≠ [] := by
  rintro rfl
  cases of.first

theorem Of.first_mem (of : c.Of trades) : c.first ∈ trades.map Trade.price := by
  rcases Option.map_eq_some_iff.mp of.first with ⟨t, head, same⟩
  rw [← same]
  exact List.mem_map_of_mem (List.mem_of_head? head)

/-- The trades of one candle and those of a later one. -/
theorem Of.append (of : c.Of trades) (of' : d.Of later) :
    (c.merge d).Of (trades ++ later) where
  first := by
    rw [List.head?_append_of_ne_nil _ of.ne_nil]
    exact of.first
  last := by
    rw [List.getLast?_append_of_ne_nil _ of'.ne_nil]
    exact of'.last
  high := by
    rw [List.map_append]
    exact isGreatest_append of.high of'.high
  low := by
    rw [List.map_append]
    exact isLeast_append of.low of'.low
  volume := by
    rw [List.map_append, List.sum_append, ← of.volume, ← of'.volume]
    rfl
  deal := by
    rw [List.map_append, List.sum_append, ← of.deal, ← of'.deal]
    rfl

/-- Merging from a candle's open gives the candle. -/
theorem Of.flat_merge (of : c.Of trades) : (flat c.first).merge c = c := by
  have high : max c.first c.high = c.high := max_eq_right (of.high.2 of.first_mem)
  have low : min c.first c.low = c.low := min_eq_right (of.low.2 of.first_mem)
  simp only [flat, merge, high, low, zero_add]

theorem of_single (t : Trade α) : Of ⟨t.price, t.price, t.price, t.price, t.amount,
    t.price * t.amount⟩ [t] where
  first := rfl
  last := rfl
  high := by
    refine ⟨List.mem_singleton_self _, ?_⟩
    intro p mem
    exact (List.mem_singleton.mp mem).le
  low := by
    refine ⟨List.mem_singleton_self _, ?_⟩
    intro p mem
    exact (List.mem_singleton.mp mem).ge
  volume := List.sum_singleton.symm
  deal := List.sum_singleton.symm

/-- Trades have one candle. -/
theorem Of.unique (of : c.Of trades) (of' : d.Of trades) : c = d := by
  have first := Option.some.inj (of.first.symm.trans of'.first)
  have last := Option.some.inj (of.last.symm.trans of'.last)
  have high := of.high.unique of'.high
  have low := of.low.unique of'.low
  have volume := of.volume.trans of'.volume.symm
  have deal := of.deal.trans of'.deal.symm
  cases c
  cases d
  simp_all

end Candle

/-! ## Slots -/

section Slots

variable {ι : Type v} {κ : Type w} [LinearOrder κ] {key : ι → κ} {p : κ → Bool} {l : List ι}
  {slot : κ}

/-- What comes first in time is the first slot. -/
theorem filter_first_slot (sorted : l.Pairwise fun x y => key x ≤ key y)
    (least : ∀ x ∈ l, p (key x) = true → slot ≤ key x) (own : p slot = true) :
    l.filter (fun x => p (key x)) = l.filter (fun x => decide (key x = slot)) ++
      l.filter fun x => p (key x) && decide (key x ≠ slot) := by
  induction l with
  | nil => rfl
  | cons x l ih =>
      rcases List.pairwise_cons.mp sorted with ⟨after, sorted⟩
      have tail := ih sorted fun y mem => least y (List.mem_cons_of_mem _ mem)
      by_cases same : key x = slot
      · simp [same, own, tail]
      · cases inside : p (key x) with
        | false => simp [same, inside, tail]
        | true =>
            -- nothing of the first slot comes later
            have above := lt_of_le_of_ne (least x List.mem_cons_self inside) (Ne.symm same)
            have none_ : l.filter (fun y => decide (key y = slot)) = [] := by
              apply List.filter_eq_nil_iff.mpr
              intro y mem
              have later := above.trans_le (after y mem)
              simpa using later.ne'
            rw [none_, List.nil_append] at tail
            simp [same, inside, none_, tail]

/-- What is sorted lies slot after slot. -/
theorem filter_slots {slots : List κ} (sorted : l.Pairwise fun x y => key x ≤ key y)
    (strict : slots.Pairwise (· < ·)) (inside : ∀ s ∈ slots, p s = true)
    (all : ∀ x ∈ l, p (key x) = true → key x ∈ slots) :
    l.filter (fun x => p (key x)) =
      (slots.map fun s => l.filter fun x => decide (key x = s)).flatten := by
  induction slots generalizing p with
  | nil =>
      rw [List.map_nil, List.flatten_nil, List.filter_eq_nil_iff]
      intro x mem here
      cases all x mem here
  | cons slot slots ih =>
      rcases List.pairwise_cons.mp strict with ⟨after, strict⟩
      have least : ∀ x ∈ l, p (key x) = true → slot ≤ key x := by
        intro x mem here
        rcases List.mem_cons.mp (all x mem here) with same | later
        · exact same.ge
        · exact (after _ later).le
      have rest := @ih (fun s => p s && decide (s ≠ slot)) strict
        (fun s mem => by simp [inside s (List.mem_cons_of_mem _ mem), (after s mem).ne'])
        (fun x mem here => by
          rcases (Bool.and_eq_true _ _).mp here with ⟨here, other⟩
          rcases List.mem_cons.mp (all x mem here) with same | later
          · exact absurd same (of_decide_eq_true other)
          · exact later)
      rw [filter_first_slot sorted least (inside slot List.mem_cons_self), rest, List.map_cons,
        List.flatten_cons]

/-- What lies before a moment, and what lies after it. -/
theorem filter_before_after (sorted : l.Pairwise fun x y => key x ≤ key y) (moment : κ)
    (q : ι → Bool) : l.filter q = l.filter (fun x => q x && decide (key x < moment)) ++
      l.filter fun x => q x && decide (moment ≤ key x) := by
  induction l with
  | nil => rfl
  | cons x l ih =>
      rcases List.pairwise_cons.mp sorted with ⟨after, sorted⟩
      have tail := ih sorted
      by_cases before : key x < moment
      · cases here : q x <;> simp [here, before, not_le.mpr before, tail]
      · have none_ : l.filter (fun y => q y && decide (key y < moment)) = [] := by
          apply List.filter_eq_nil_iff.mpr
          intro y mem
          have late := (not_lt.mp before).trans (after y mem)
          simp [late]
        rw [none_, List.nil_append] at tail
        cases here : q x <;> simp [here, before, not_lt.mp before, none_, tail]

end Slots

end ViabtcServer.Chart
