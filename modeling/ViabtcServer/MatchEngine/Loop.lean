import ViabtcServer.MatchEngine.Fill

/-!
# The matching loops

One rule for all four loops. The iterator stands at the head of a suffix of the
book; a fill may unlink the node before the suffix but leaves the suffix as it
is. What holds at every position of the iterator is the loop invariant, and a
loop over live orders comes to an end.
-/

namespace ViabtcServer.MatchEngine

open Decimal Container

variable [Libmpdec] {rule : MatchRule} {st st' : LoopState} {node : Ref} {rest : List Ref}
  {maker : Order} {real : Bool} {now : Time} {fuel : ℕ} {w : World} {amount : Mpd}

/-! ## Positions -/

/-- The iterator stands at the head of `rest`. -/
structure At (rule : MatchRule) (rest : List Ref) (st : LoopState) : Prop where
  inv : BookInv st.market st.world.heap
  suffix : ∃ done, st.market.book rule.side.opposite = done ++ rest

/-- The loop has something left to trade and the next maker is acceptable. -/
structure Meets (rule : MatchRule) (st : LoopState) (node : Ref) (maker : Order) : Prop where
  unfinished : mpdCmp st.taker.left mpdZero ≠ 0
  rests : st.market.Rests st.world.heap node maker
  side : maker.side = rule.side.opposite
  acceptable : rule.stops st.taker maker = false

/-- Why a loop ends without looking for another amount. -/
def Ends (rule : MatchRule) (rest : List Ref) (st : LoopState) : Prop :=
  rest = [] ∨ mpdCmp st.taker.left mpdZero = 0 ∨
    ∃ node tail maker, rest = node :: tail ∧ st.market.Rests st.world.heap node maker ∧
      maker.side = rule.side.opposite ∧ rule.stops st.taker maker = true

omit [Libmpdec] in
theorem At.start (inv : BookInv st.market st.world.heap) :
    At rule (st.market.book rule.side.opposite) st :=
  ⟨inv, [], rfl⟩

omit [Libmpdec] in
/-- The search for an amount only observes. -/
theorem At.world (at_ : At rule rest st) (same : st.world.SameOrders w) :
    At rule rest { st with world := w } :=
  ⟨same.heap.symm ▸ at_.inv, at_.suffix⟩

/-- A fill leaves what lies ahead of the iterator in place. -/
theorem At.next {f : Fill} {maker' : Order} (at_ : At rule (node :: rest) st)
    (filled : Filled st st' node maker' f) : At rule rest st' := by
  refine ⟨filled.inv, ?_⟩
  obtain ⟨done, book⟩ := at_.suffix
  rcases filled.book with ⟨_, erased⟩ | ⟨_, same, _⟩
  · have nodup := at_.inv.nodup rule.side.opposite
    rw [book] at nodup
    have absent : node ∉ done := fun mem =>
      (List.nodup_append.mp nodup).2.2 node mem node List.mem_cons_self rfl
    refine ⟨done, ?_⟩
    rw [erased, book, List.erase_append_right _ absent, List.erase_cons_head]
  · exact ⟨done ++ [node], by rw [same, book, List.append_assoc, List.singleton_append]⟩

omit [Libmpdec] in
/-- What the iterator finds at its position. -/
theorem At.head (at_ : At rule (node :: rest) st) :
    ∃ maker, st.market.Rests st.world.heap node maker ∧ maker.side = rule.side.opposite ∧
      skiplistForward (st.market.book rule.side.opposite) node = rest.head? := by
  obtain ⟨done, book⟩ := at_.suffix
  have mem : node ∈ st.market.book rule.side.opposite := by
    rw [book]
    simp
  obtain ⟨maker, rests, side⟩ := at_.inv.rests_of_mem mem
  refine ⟨maker, rests, side, ?_⟩
  have nodup := at_.inv.nodup rule.side.opposite
  rw [book] at nodup ⊢
  refine skiplistForward_append fun inDone => ?_
  exact (List.nodup_append.mp nodup).2.2 node inDone node List.mem_cons_self rfl

/-! ## The rules of the loop -/

variable [Settings]

/-- From a property of every position to a property of the result. -/
theorem matchLoop_rule (real : Bool) (now : Time) (rule : MatchRule)
    (motive : List Ref → LoopState → Prop) (post : LoopState → Prop)
    (position : ∀ {rest st}, motive rest st → At rule rest st)
    (ends : ∀ {rest st}, motive rest st → Ends rule rest st → post st)
    (dry : ∀ {node rest st maker fuel w}, motive (node :: rest) st → Meets rule st node maker →
      rule.volume fuel st maker = some (w, none) → post { st with world := w })
    (fill : ∀ {node rest st maker fuel w amount}, motive (node :: rest) st →
      Meets rule st node maker → rule.volume fuel st maker = some (w, some amount) →
      motive rest (matchFill real now rule { st with world := w } node maker amount)) :
    ∀ fuel {rest st st'}, motive rest st →
      matchLoop real now rule fuel rest.head? st = some st' → post st' := by
  intro fuel
  induction fuel with
  | zero => nofun
  | succ fuel ih =>
      intro rest st st' holds run
      cases rest with
      | nil =>
          obtain rfl : st = st' := by simpa [matchLoop] using run
          exact ends holds (Or.inl rfl)
      | cons node rest =>
          obtain ⟨maker, rests, side, forward⟩ := (position holds).head
          simp only [List.head?_cons, matchLoop, rests.1, forward] at run
          split at run
          · rename_i finished
            obtain rfl := Option.some.inj run
            exact ends holds (Or.inr (Or.inl finished))
          · rename_i unfinished
            split at run
            · rename_i stops
              obtain rfl := Option.some.inj run
              exact ends holds (Or.inr (Or.inr ⟨node, rest, maker, rfl, rests, side, stops⟩))
            · rename_i acceptable
              have meets : Meets rule st node maker :=
                ⟨unfinished, rests, side, Bool.eq_false_iff.mpr acceptable⟩
              split at run
              · cases run
              · rename_i volume
                obtain rfl := Option.some.inj run
                exact dry holds meets volume
              · rename_i volume
                exact ih (fill holds meets volume) run

/-- A loop that always finds its amounts returns once its bound exceeds the
number of orders ahead. -/
theorem matchLoop_returns (motive : List Ref → LoopState → Prop)
    (position : ∀ {rest st}, motive rest st → At rule rest st)
    (volume : ∀ {node rest st maker fuel}, motive (node :: rest) st → Meets rule st node maker →
      ∃ choice, rule.volume (fuel + 1) st maker = some choice)
    (fill : ∀ {node rest st maker fuel w amount}, motive (node :: rest) st →
      Meets rule st node maker → rule.volume fuel st maker = some (w, some amount) →
      motive rest (matchFill real now rule { st with world := w } node maker amount)) :
    ∀ {fuel rest st}, rest.length < fuel → motive rest st →
      ∃ st', matchLoop real now rule fuel rest.head? st = some st' := by
  intro fuel
  induction fuel with
  | zero => nofun
  | succ fuel ih =>
      intro rest st bound holds
      cases rest with
      | nil => exact ⟨st, rfl⟩
      | cons node rest =>
          obtain ⟨maker, rests, side, forward⟩ := (position holds).head
          simp only [List.head?_cons, matchLoop, rests.1, forward]
          split
          · exact ⟨st, rfl⟩
          · rename_i unfinished
            split
            · exact ⟨st, rfl⟩
            · rename_i acceptable
              have meets : Meets rule st node maker :=
                ⟨unfinished, rests, side, Bool.eq_false_iff.mpr acceptable⟩
              simp only [List.length_cons] at bound
              obtain ⟨more, rfl⟩ : ∃ more, fuel = more + 1 := ⟨fuel - 1, by omega⟩
              obtain ⟨⟨w, _ | amount⟩, chosen⟩ : ∃ choice,
                rule.volume (more + 1) st maker = some choice := volume holds meets
              · rw [chosen]
                exact ⟨_, rfl⟩
              · rw [chosen]
                exact ih (by omega) (fill holds meets chosen)

end ViabtcServer.MatchEngine
