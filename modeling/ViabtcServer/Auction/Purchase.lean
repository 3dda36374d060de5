import Mathlib.Algebra.BigOperators.Group.List.Basic
import Mathlib.Algebra.Order.Ring.Defs
import Mathlib.Tactic.Linarith

/-!
# Spending money

A buyer walks the makers in their order and takes from each the most that the money left
can pay, at most what the maker has. The walk ends at a maker of whom nothing can be paid.
-/

namespace ViabtcServer.Auction

universe u v

variable {μ : Type u} {α : Type v} [CommRing α] [LinearOrder α]
  {price quantity : μ → α} {affords : α → μ → α} {money : α} {makers : List μ}

/-- The makers bought from, and how much of each. `affords` is the most that an amount of
money can pay of a maker. -/
def purchases (price quantity : μ → α) (affords : α → μ → α) : α → List μ → List (μ × α)
  | _, [] => []
  | money, maker :: rest =>
      let amount := min (quantity maker) (affords money maker)
      if amount = 0 then []
      else (maker, amount) :: purchases price quantity affords (money - price maker * amount) rest

/-- The money that purchases take. -/
def cost (price : μ → α) (bought : List (μ × α)) : α :=
  (bought.map fun purchase => price purchase.1 * purchase.2).sum

theorem purchases_cons {maker : μ} {rest : List μ}
    (nonzero : min (quantity maker) (affords money maker) ≠ 0) :
    purchases price quantity affords money (maker :: rest) =
      (maker, min (quantity maker) (affords money maker)) ::
        purchases price quantity affords
          (money - price maker * min (quantity maker) (affords money maker)) rest :=
  if_neg nonzero

theorem purchases_stop {maker : μ} {rest : List μ}
    (zero : min (quantity maker) (affords money maker) = 0) :
    purchases price quantity affords money (maker :: rest) = [] :=
  if_pos zero

/-- The makers are taken in order, each once. -/
theorem purchases_prefix (money : α) (makers : List μ) :
    (purchases price quantity affords money makers).map Prod.fst <+: makers := by
  induction makers generalizing money with
  | nil => exact List.prefix_refl _
  | cons maker rest ih =>
      by_cases zero : min (quantity maker) (affords money maker) = 0
      · rw [purchases_stop zero]
        exact List.nil_prefix
      · rw [purchases_cons zero, List.map_cons]
        exact List.prefix_cons_inj maker |>.mpr (ih _)

/-- What is bought of a maker is the most the money left can pay, and not nothing. -/
theorem purchases_amount {before after : List (μ × α)} {maker : μ} {amount : α}
    (bought : purchases price quantity affords money makers = before ++ (maker, amount) :: after) :
    amount = min (quantity maker) (affords (money - cost price before) maker) ∧ amount ≠ 0 := by
  induction makers generalizing money before with
  | nil =>
      have empty := congrArg List.length bought
      simp [purchases] at empty
  | cons first rest ih =>
      by_cases zero : min (quantity first) (affords money first) = 0
      · rw [purchases_stop zero] at bought
        have empty := congrArg List.length bought
        simp at empty
      · rw [purchases_cons zero] at bought
        cases before with
        | nil =>
            rcases List.cons_eq_cons.mp bought with ⟨same, _⟩
            cases same
            have none_ : money - cost price ([] : List (μ × α)) = money := sub_zero money
            rw [none_]
            exact ⟨rfl, zero⟩
        | cons purchase before =>
            rcases List.cons_eq_cons.mp bought with ⟨rfl, later⟩
            have spent : money - cost price ((first, min (quantity first) (affords money first)) ::
                before) = money - price first * min (quantity first) (affords money first) -
                  cost price before := by
              unfold cost
              rw [List.map_cons, List.sum_cons]
              exact (sub_sub _ _ _).symm
            rw [spent]
            exact ih later

/-- A buyer who pays for no more than the money can pay never overspends. -/
theorem cost_le [IsStrictOrderedRing α] {bought : List (μ × α)} (nonneg : 0 ≤ money)
    (prices : ∀ maker ∈ makers, 0 ≤ price maker)
    (pays : ∀ money, 0 ≤ money → ∀ maker ∈ makers, price maker * affords money maker ≤ money)
    (first : bought <+: purchases price quantity affords money makers) :
    cost price bought ≤ money := by
  induction makers generalizing money bought with
  | nil =>
      rw [List.prefix_nil.mp first]
      exact nonneg
  | cons maker rest ih =>
      by_cases zero : min (quantity maker) (affords money maker) = 0
      · rw [purchases_stop zero] at first
        rw [List.prefix_nil.mp first]
        exact nonneg
      · rw [purchases_cons zero] at first
        cases bought with
        | nil => exact nonneg
        | cons purchase bought =>
            rcases List.cons_prefix_cons.mp first with ⟨rfl, following⟩
            have own : price maker * min (quantity maker) (affords money maker) ≤ money :=
              (mul_le_mul_of_nonneg_left (min_le_right _ _)
                (prices maker List.mem_cons_self)).trans
                (pays money nonneg maker List.mem_cons_self)
            have later := ih (sub_nonneg.mpr own)
              (fun other mem => prices other (List.mem_cons_of_mem _ mem))
              (fun money nonneg other mem => pays money nonneg other (List.mem_cons_of_mem _ mem))
              following
            unfold cost at later ⊢
            rw [List.map_cons, List.sum_cons]
            linarith

end ViabtcServer.Auction
