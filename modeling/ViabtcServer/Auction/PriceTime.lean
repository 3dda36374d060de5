import Mathlib.Algebra.Order.Group.Defs
import Mathlib.Algebra.Order.Sub.Basic
import Mathlib.Data.List.Sort

/-!
# Price-time priority

A taker walks the makers of the other side in the order of their priority,
trades the smaller of the two rests with each, and stops when nothing is left of
it or the next maker is not acceptable. What a maker is, how its priority is
computed and in what unit quantities are counted are parameters.
-/

namespace ViabtcServer.Auction

universe u v w

variable {μ : Type u} {α : Type v} {β : Type w} [AddCommGroup α] [LinearOrder α] [LinearOrder β]
  {accepts : μ → Bool} {quantity : μ → α} {priority : μ → β}

/-- The makers in the order they are served. -/
def queue (priority : μ → β) (makers : List μ) : List μ :=
  makers.insertionSort fun a b => priority a ≤ priority b

/-- The walk of a taker with `left` to trade: each maker it trades with, and how
much. -/
def trades (accepts : μ → Bool) (quantity : μ → α) : α → List μ → List (μ × α)
  | _, [] => []
  | left, maker :: rest =>
      if left = 0 then []
      else if accepts maker then
        (maker, min left (quantity maker)) ::
          trades accepts quantity (left - min left (quantity maker)) rest
      else []

/-! ## The queue -/

theorem queue_perm (priority : μ → β) (makers : List μ) : (queue priority makers).Perm makers :=
  List.perm_insertionSort _ makers

/-- A list in strict order of priority is the queue of its members. -/
theorem queue_of_perm {served makers : List μ} (perm : served.Perm makers)
    (sorted : served.Pairwise fun a b => priority a < priority b) :
    queue priority makers = served := by
  have ordered : (queue priority makers).Pairwise fun a b => priority a ≤ priority b :=
    List.pairwise_insertionSort _ makers
  have same : (queue priority makers).Perm served := (queue_perm priority makers).trans perm.symm
  symm
  apply same.symm.eq_of_pairwise _ (sorted.imp le_of_lt) ordered
  intro a b memberA memberB ab ba
  by_contra differ
  rcases List.mem_iff_append.mp memberA with ⟨front, back, rfl⟩
  rcases List.pairwise_append.mp sorted with ⟨_, behind, before⟩
  rcases List.pairwise_cons.mp behind with ⟨later, _⟩
  have memberB' : b ∈ front ++ a :: back := same.mem_iff.mp memberB
  rcases List.mem_append.mp memberB' with earlier | here
  · exact absurd ab (not_le.mpr (before b earlier a List.mem_cons_self))
  · rcases List.mem_cons.mp here with rfl | behind
    · exact differ rfl
    · exact absurd ba (not_le.mpr (later b behind))

/-! ## The walk -/

@[simp]
theorem trades_zero (makers : List μ) : trades accepts quantity 0 makers = [] := by
  cases makers with
  | nil => rfl
  | cons maker rest => simp [trades]

theorem trades_reject {left : α} {maker : μ} {rest : List μ} (rejects : accepts maker = false) :
    trades accepts quantity left (maker :: rest) = [] := by
  simp [trades, rejects]

theorem trades_accept {left : α} {maker : μ} {rest : List μ} (wants : left ≠ 0)
    (acceptable : accepts maker = true) :
    trades accepts quantity left (maker :: rest) =
      (maker, min left (quantity maker)) ::
        trades accepts quantity (left - min left (quantity maker)) rest := by
  simp [trades, wants, acceptable]

/-- The walk meets the makers from the first on, without a gap. -/
theorem trades_prefix (left : α) (makers : List μ) :
    ((trades accepts quantity left makers).map Prod.fst) <+: makers := by
  induction makers generalizing left with
  | nil => exact List.prefix_rfl
  | cons maker rest ih =>
      by_cases wants : left = 0
      · simp [wants]
      cases acceptable : accepts maker with
      | false => simp [trades_reject acceptable]
      | true =>
          rw [trades_accept wants acceptable, List.map_cons, List.cons_prefix_cons]
          exact ⟨rfl, ih _⟩

/-- Nobody trades at a price that is not acceptable. -/
theorem trades_acceptable {left : α} {makers : List μ} {trade : μ × α}
    (traded : trade ∈ trades accepts quantity left makers) : accepts trade.1 = true := by
  induction makers generalizing left with
  | nil => simp [trades] at traded
  | cons maker rest ih =>
      by_cases wants : left = 0
      · simp [wants] at traded
      cases acceptable : accepts maker with
      | false => simp [trades_reject acceptable] at traded
      | true =>
          rw [trades_accept wants acceptable, List.mem_cons] at traded
          rcases traded with rfl | later
          · exact acceptable
          · exact ih later

/-- A maker met before another one is used up. -/
theorem trades_served {left : α} {makers : List μ} {before after : List (μ × α)} {trade : μ × α}
    (split : trades accepts quantity left makers = before ++ trade :: after) :
    ∀ earlier ∈ before, earlier.2 = quantity earlier.1 := by
  induction makers generalizing left before with
  | nil => simp [trades] at split
  | cons maker rest ih =>
      by_cases wants : left = 0
      · simp [wants] at split
      cases acceptable : accepts maker with
      | false => simp [trades_reject acceptable] at split
      | true =>
          rw [trades_accept wants acceptable] at split
          cases before with
          | nil => simp
          | cons first others =>
              rcases List.cons_eq_cons.mp split with ⟨rfl, later⟩
              intro earlier member
              rcases List.mem_cons.mp member with rfl | member
              · rcases min_choice left (quantity maker) with all | used
                · rw [all, sub_self, trades_zero] at later
                  simp at later
                · exact used
              · exact ih later earlier member

/-- Whoever comes before a traded maker has been traded with in full. -/
theorem trades_before {left : α} {makers : List μ} {before after : List (μ × α)} {trade : μ × α}
    (split : trades accepts quantity left makers = before ++ trade :: after)
    (sorted : makers.Pairwise fun a b => priority a < priority b) {other : μ}
    (member : other ∈ makers) (first : priority other < priority trade.1) :
    (other, quantity other) ∈ before := by
  have met : ((trades accepts quantity left makers).map Prod.fst) <+: makers :=
    trades_prefix left makers
  rw [split, List.map_append, List.map_cons] at met
  rcases met with ⟨unmet, rfl⟩
  rw [List.append_assoc, List.cons_append] at sorted member
  rcases List.pairwise_append.mp sorted with ⟨_, behind, _⟩
  rcases List.pairwise_cons.mp behind with ⟨later, _⟩
  rcases List.mem_append.mp member with earlier | here
  · rcases List.mem_map.mp earlier with ⟨found, traded, rfl⟩
    have whole := trades_served split found traded
    rw [← whole]
    exact traded
  · rcases List.mem_cons.mp here with rfl | behind
    · exact absurd first (lt_irrefl _)
    · exact absurd first (later other behind).not_gt

end ViabtcServer.Auction
