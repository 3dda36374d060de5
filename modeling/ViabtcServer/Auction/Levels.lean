import Mathlib.Algebra.BigOperators.Group.List.Basic
import Mathlib.Data.List.Dedup
import Mathlib.Order.Basic

/-!
# Levels

The orders of one side of a book, gathered by a key such as their price: every key once,
with the sum of what the orders of that key amount to. Where the orders come sorted by
the key, a level is a run of them.
-/

namespace ViabtcServer.Auction

universe u v w x

variable {α : Type u} {κ : Type v} {κ' : Type w} {M : Type x} [DecidableEq κ] [DecidableEq κ']
  [AddCommMonoid M] {key : α → κ} {amount : α → M} {orders run rest : List α} {k : κ}

/-- Every key in the order of the list, with the sum over the orders that have it. -/
def levels (key : α → κ) (amount : α → M) (orders : List α) : List (κ × M) :=
  (orders.map key).dedup.map fun k =>
    (k, ((orders.filter fun order => key order = k).map amount).sum)

theorem levels_map_fst (key : α → κ) (amount : α → M) (orders : List α) :
    (levels key amount orders).map Prod.fst = (orders.map key).dedup := by
  unfold levels
  rw [List.map_map]
  exact List.map_id _

theorem length_levels_le : (levels key amount orders).length ≤ orders.length := by
  have keys := (List.dedup_sublist (orders.map key)).length_le
  rwa [← levels_map_fst key amount, List.length_map, List.length_map] at keys

/-! ## Runs -/

theorem dedup_replicate_append {n : ℕ} {keys : List κ} (new : k ∉ keys) :
    (List.replicate (n + 1) k ++ keys).dedup = k :: keys.dedup := by
  induction n with
  | zero => exact List.dedup_cons_of_notMem new
  | succ n ih =>
      rw [List.replicate_succ, List.cons_append, List.dedup_cons_of_mem, ih]
      exact List.mem_append_left _ List.mem_cons_self

/-- A run of one key in front of orders with other keys is the first level. -/
theorem levels_run_append (nonempty : run ≠ []) (same : ∀ order ∈ run, key order = k)
    (differ : ∀ order ∈ rest, key order ≠ k) :
    levels key amount (run ++ rest) = (k, (run.map amount).sum) :: levels key amount rest := by
  have keys : run.map key = List.replicate run.length k := by
    rw [← List.map_const']
    exact List.map_congr_left same
  have new : k ∉ rest.map key := by
    intro mem
    rcases List.mem_map.mp mem with ⟨order, mem, eq⟩
    exact differ order mem eq
  have positive : run.length = (run.length - 1) + 1 :=
    (Nat.succ_pred_eq_of_pos (List.length_pos_iff.mpr nonempty)).symm
  unfold levels
  rw [List.map_append, keys, positive, dedup_replicate_append new, List.map_cons]
  congr 1
  · -- the first level takes the run, and nothing behind it
    have all : run.filter (fun order => decide (key order = k)) = run :=
      List.filter_eq_self.mpr fun order mem => by simpa using same order mem
    have none_ : rest.filter (fun order => decide (key order = k)) = [] :=
      List.filter_eq_nil_iff.mpr fun order mem => by simpa using differ order mem
    rw [List.filter_append, all, none_, List.append_nil]
  · apply List.map_congr_left
    intro other mem
    have differ' : k ≠ other := fun eq => new (List.mem_dedup.mp (eq ▸ mem))
    have none_ : run.filter (fun order => decide (key order = other)) = [] :=
      List.filter_eq_nil_iff.mpr fun order mem => by simpa [same order mem] using differ'
    rw [List.filter_append, none_, List.nil_append]

/-! ## Sums -/

/-- One key of many holds an amount. -/
theorem sum_map_ite {keys : List κ} (nodup : keys.Nodup) (mem : k ∈ keys) (m : M) :
    (keys.map fun other => if k = other then m else 0).sum = m := by
  induction keys with
  | nil => cases mem
  | cons first keys ih =>
      rcases List.nodup_cons.mp nodup with ⟨absent, nodup⟩
      rw [List.map_cons, List.sum_cons]
      by_cases same : k = first
      · subst same
        have zero : (keys.map fun other => if k = other then m else 0).sum = 0 := by
          apply List.sum_eq_zero
          intro part mem
          rcases List.mem_map.mp mem with ⟨other, later, rfl⟩
          exact if_neg fun same : k = other => absent (same ▸ later)
        rw [if_pos rfl, zero, add_zero]
      · rw [if_neg same, zero_add]
        exact ih nodup ((List.mem_cons.mp mem).resolve_left same)

/-- Keys that cover all orders part their sum. -/
theorem sum_fibers {keys : List κ} (nodup : keys.Nodup)
    (cover : ∀ order ∈ orders, key order ∈ keys) :
    (keys.map fun k => ((orders.filter fun order => key order = k).map amount).sum).sum =
      (orders.map amount).sum := by
  induction orders with
  | nil =>
      apply List.sum_eq_zero
      intro part mem
      rcases List.mem_map.mp mem with ⟨k, _, rfl⟩
      rfl
  | cons order orders ih =>
      have step : (keys.map fun k =>
          (((order :: orders).filter fun order => key order = k).map amount).sum) =
            keys.map fun k => (if key order = k then amount order else 0) +
              ((orders.filter fun order => key order = k).map amount).sum := by
        apply List.map_congr_left
        intro k _
        by_cases same : key order = k
        · rw [List.filter_cons_of_pos (by simpa using same), if_pos same]
          rfl
        · rw [List.filter_cons_of_neg (by simpa using same), if_neg same, zero_add]
      rw [step, List.sum_map_add, sum_map_ite nodup (cover order List.mem_cons_self),
        ih fun other mem => cover other (List.mem_cons_of_mem _ mem)]
      rfl

/-- The levels hold all there is. -/
theorem sum_levels (key : α → κ) (amount : α → M) (orders : List α) :
    ((levels key amount orders).map Prod.snd).sum = (orders.map amount).sum := by
  unfold levels
  rw [List.map_map]
  exact sum_fibers (List.nodup_dedup _) fun order mem =>
    List.mem_dedup.mpr (List.mem_map_of_mem mem)

/-! ## Gathering levels -/

theorem dedup_map_dedup (f : κ → κ') (keys : List κ) :
    (keys.dedup.map f).dedup = (keys.map f).dedup := by
  induction keys with
  | nil => rfl
  | cons k keys ih =>
      by_cases old : k ∈ keys
      · rw [List.dedup_cons_of_mem old, ih, List.map_cons,
          List.dedup_cons_of_mem (List.mem_map_of_mem old)]
      · rw [List.dedup_cons_of_notMem old, List.map_cons, List.map_cons, List.dedup_cons,
          List.dedup_cons, ih]
        simp only [List.mem_map, List.mem_dedup]

/-- Levels gathered by a coarser key are the levels of that key. -/
theorem levels_levels (f : κ → κ') (key : α → κ) (amount : α → M) (orders : List α) :
    levels (fun level : κ × M => f level.1) Prod.snd (levels key amount orders) =
      levels (fun order => f (key order)) amount orders := by
  have keys : (levels key amount orders).map (fun level => f level.1) =
      (orders.map key).dedup.map f := by
    rw [← levels_map_fst key amount, List.map_map]
    rfl
  have coarse : orders.map (fun order => f (key order)) = (orders.map key).map f := by
    rw [List.map_map]
    rfl
  change ((levels key amount orders).map fun level => f level.1).dedup.map _ =
    (orders.map fun order => f (key order)).dedup.map _
  rw [keys, dedup_map_dedup, coarse]
  apply List.map_congr_left
  intro k' _
  congr 1
  -- the orders of a coarse key, parted by the fine one
  have parted : ((((orders.map key).dedup.filter fun k => f k = k').map fun k =>
      (((orders.filter fun order => f (key order) = k').filter fun order =>
        key order = k).map amount).sum)).sum =
      ((orders.filter fun order => f (key order) = k').map amount).sum := by
    apply sum_fibers ((List.nodup_dedup _).filter _)
    intro order mem
    rcases List.mem_filter.mp mem with ⟨mem, eq⟩
    exact List.mem_filter.mpr ⟨List.mem_dedup.mpr (List.mem_map_of_mem mem), eq⟩
  rw [← parted]
  congr 1
  change ((List.map _ _).filter _).map _ = _
  rw [List.filter_map, List.map_map]
  apply List.map_congr_left
  intro k mem
  have coarser : f k = k' := by simpa using (List.mem_filter.mp mem).2
  change ((orders.filter fun order => key order = k).map amount).sum = _
  rw [List.filter_filter]
  congr 2
  apply List.filter_congr
  intro order _
  by_cases same : key order = k
  · simp [same, coarser]
  · simp [same]

/-! ## Order -/

/-- Where the keys do not fall, those of the levels grow. -/
theorem levels_ordered {ρ : Type w} [PartialOrder ρ] {rank : κ → ρ}
    (injective : Function.Injective rank)
    (sorted : orders.Pairwise fun one other => rank (key one) ≤ rank (key other)) :
    (levels key amount orders).Pairwise fun one other => rank one.1 < rank other.1 := by
  have keys : (orders.map key).dedup.Pairwise fun one other => rank one < rank other := by
    have le : (orders.map key).Pairwise fun one other => rank one ≤ rank other :=
      List.pairwise_map.mpr sorted
    apply ((le.sublist (List.dedup_sublist _)).and (List.nodup_dedup _)).imp
    intro one other both
    exact lt_of_le_of_ne both.1 fun same => both.2 (injective same)
  rw [← levels_map_fst key amount, List.pairwise_map] at keys
  exact keys

end ViabtcServer.Auction
