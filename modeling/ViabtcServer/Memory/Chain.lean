import ViabtcServer.Memory.Heap
import Mathlib.Data.List.Basic
import Mathlib.Data.List.Nodup

/-!
# Chains of nodes

Nodes each of which points to the next. A chain may end in any pointer, and so
chains can be put together and cut; to change where a chain ends is to change
the link of its last node. The link of a node is a parameter: one field of its
cell, or nothing where no cell is allocated.
-/

namespace ViabtcServer.Memory

universe u

variable {ρ : Type u}

/-- Following the links from `start` passes these nodes and comes to `stop`. -/
def Chain (link : ρ → Option (Option ρ)) : Option ρ → List ρ → Option ρ → Prop
  | start, [], stop => start = stop
  | start, a :: nodes, stop =>
      start = some a ∧ ∃ next, link a = some next ∧ Chain link next nodes stop

variable {link link' : ρ → Option (Option ρ)} {start stop stop' : Option ρ}
  {nodes before after : List ρ} {a : ρ}

@[simp]
theorem chain_nil : Chain link start [] stop ↔ start = stop :=
  Iff.rfl

@[simp]
theorem chain_cons : Chain link start (a :: nodes) stop ↔
    start = some a ∧ ∃ next, link a = some next ∧ Chain link next nodes stop :=
  Iff.rfl

theorem chain_append : Chain link start (before ++ after) stop ↔
    ∃ middle, Chain link start before middle ∧ Chain link middle after stop := by
  induction before generalizing start with
  | nil =>
      constructor
      · intro chain
        exact ⟨start, rfl, chain⟩
      · rintro ⟨middle, rfl, chain⟩
        exact chain
  | cons a before ih =>
      constructor
      · rintro ⟨first, next, linked, chain⟩
        rcases ih.mp chain with ⟨middle, front, back⟩
        exact ⟨middle, ⟨first, next, linked, front⟩, back⟩
      · rintro ⟨middle, ⟨first, next, linked, front⟩, back⟩
        exact ⟨first, next, linked, ih.mpr ⟨middle, front, back⟩⟩

namespace Chain

/-- A chain starts with its first node. -/
theorem start_eq (chain : Chain link start nodes stop) : start = nodes.head?.or stop := by
  cases nodes with
  | nil => exact chain
  | cons a nodes => exact chain.1

/-- Only the links of its nodes matter. -/
theorem congr (chain : Chain link start nodes stop) (same : ∀ b ∈ nodes, link' b = link b) :
    Chain link' start nodes stop := by
  induction nodes generalizing start with
  | nil => exact chain
  | cons b nodes ih =>
      rcases chain with ⟨first, next, linked, rest⟩
      constructor
      · exact first
      · exact ⟨next, (same b List.mem_cons_self).trans linked,
          ih rest fun c mem => same c (List.mem_cons_of_mem b mem)⟩

/-- The links decide which nodes are passed before `NULL`. -/
theorem unique {nodes' : List ρ} (chain : Chain link start nodes none)
    (chain' : Chain link start nodes' none) : nodes = nodes' := by
  induction nodes generalizing start nodes' with
  | nil =>
      cases chain
      cases nodes' with
      | nil => rfl
      | cons b nodes' => cases chain'.1
  | cons a nodes ih =>
      rcases chain with ⟨rfl, next, linked, rest⟩
      cases nodes' with
      | nil => cases chain'
      | cons b nodes' =>
          rcases chain' with ⟨first, next', linked', rest'⟩
          cases first
          rw [linked] at linked'
          cases linked'
          rw [ih rest rest']

/-- No node is passed twice on the way to `NULL`. -/
theorem nodup (chain : Chain link start nodes none) : nodes.Nodup := by
  induction nodes generalizing start with
  | nil => exact List.nodup_nil
  | cons a nodes ih =>
      rcases id chain with ⟨rfl, next, linked, rest⟩
      apply List.nodup_cons.mpr
      constructor
      · intro mem
        rcases List.append_of_mem mem with ⟨before, after, rfl⟩
        rcases chain_append.mp rest with ⟨middle, _, again⟩
        rw [again.1] at again
        -- what follows the second time is what followed the first time
        have same := congrArg List.length (chain.unique again)
        simp only [List.length_cons, List.length_append] at same
        omega
      · exact ih rest

/-- The link of a node. -/
theorem link_eq (chain : Chain link start (before ++ a :: after) stop) :
    link a = some (after.head?.or stop) := by
  rcases chain_append.mp chain with ⟨middle, _, _, next, linked, rest⟩
  rw [linked, rest.start_eq]

/-- Another start for the nodes behind a node. -/
theorem tail (chain : Chain link start (before ++ a :: after) stop) :
    Chain link (after.head?.or stop) after stop := by
  rcases chain_append.mp chain with ⟨middle, _, _, next, linked, rest⟩
  rw [← rest.start_eq]
  exact rest

variable [DecidableEq ρ] {value : Option (Option ρ)}

/-- The links of other nodes do not matter. -/
theorem update_of_notMem (chain : Chain link start nodes stop) (other : a ∉ nodes) :
    Chain (Function.update link a value) start nodes stop :=
  chain.congr fun b mem => Function.update_of_ne (by rintro rfl; exact other mem) _ _

/-- Change where a chain ends. -/
theorem redirect (chain : Chain link start (nodes ++ [a]) stop) (other : a ∉ nodes) :
    Chain (Function.update link a (some stop')) start (nodes ++ [a]) stop' := by
  rcases chain_append.mp chain with ⟨middle, front, first, _⟩
  apply chain_append.mpr
  exact ⟨middle, front.update_of_notMem other, first, stop', Function.update_self _ _ _, rfl⟩

end Chain

/-- The links of the last of these nodes, if there is one, point to `stop`. -/
def relink [DecidableEq ρ] (link : ρ → Option (Option ρ)) (nodes : List ρ) (stop : Option ρ) :
    ρ → Option (Option ρ) :=
  match nodes.getLast? with
  | some a => Function.update link a (some stop)
  | none => link

section Relink

variable [DecidableEq ρ]

@[simp]
theorem relink_nil : relink link [] stop = link :=
  rfl

@[simp]
theorem relink_concat : relink link (nodes ++ [a]) stop = Function.update link a (some stop) := by
  unfold relink
  rw [List.getLast?_concat]

theorem relink_cons : relink link (a :: nodes) stop =
    Function.update link (nodes.getLastD a) (some stop) := by
  unfold relink
  rw [List.getLast?_cons, List.getLastD_eq_getLast?]

theorem relink_of_notMem (other : a ∉ nodes) : relink link nodes stop a = link a := by
  rcases List.eq_nil_or_concat nodes with rfl | ⟨front, last, rfl⟩
  · rfl
  · rw [List.concat_eq_append] at other ⊢
    rw [relink_concat, Function.update_of_ne]
    rintro rfl
    exact other (List.mem_append_right _ List.mem_cons_self)

theorem relink_congr (same : link' a = link a) :
    relink link' nodes stop a = relink link nodes stop a := by
  unfold relink
  cases nodes.getLast? with
  | none => exact same
  | some last =>
      change Function.update link' last (some stop) a = Function.update link last (some stop) a
      rcases eq_or_ne a last with rfl | differ
      · rw [Function.update_self, Function.update_self]
      · rw [Function.update_of_ne differ, Function.update_of_ne differ, same]

/-- Setting the link field of the last node. -/
theorem fieldOf_amend_last {N : Type u} {heap : Heap ρ N} {field : N → Option ρ}
    {change : N → N} (set : ∀ cell, field (change cell) = stop)
    (found : ∀ b ∈ nodes, heap b ≠ none) :
    fieldOf field (heap.amend nodes.getLast? change) = relink (fieldOf field heap) nodes stop := by
  rcases List.eq_nil_or_concat nodes with rfl | ⟨front, last, rfl⟩
  · rfl
  · rw [List.concat_eq_append] at found ⊢
    rw [List.getLast?_concat, relink_concat]
    exact fieldOf_amend_set set (found last (List.mem_append_right _ List.mem_cons_self))

/-- Change where a chain ends, also one without nodes. -/
theorem Chain.relink (chain : Chain link start nodes stop) (nodup : nodes.Nodup)
    (stop' : Option ρ) :
    Chain (Memory.relink link nodes stop') (nodes.head?.or stop') nodes stop' := by
  rcases List.eq_nil_or_concat nodes with rfl | ⟨front, last, rfl⟩
  · rfl
  · rw [List.concat_eq_append] at chain nodup ⊢
    have first : (front ++ [last]).head?.or stop' = start := by
      rw [chain.start_eq]
      cases front <;> rfl
    rw [relink_concat, first]
    apply chain.redirect
    intro mem
    exact (List.disjoint_of_nodup_append nodup) mem List.mem_cons_self

/-- Put a node into a chain that comes to `NULL`. -/
theorem Chain.insert (chain : Chain link start (before ++ after) none)
    {link' : ρ → Option (Option ρ)}
    (new : a ∉ before ++ after) (here : link' a = some after.head?)
    (front : ∀ b ∈ before, link' b = Memory.relink link before (some a) b)
    (back : ∀ b ∈ after, link' b = link b) :
    Chain link' ((before ++ [a]).head?) (before ++ a :: after) none := by
  have nodup := List.nodup_append.mp chain.nodup
  rcases chain_append.mp chain with ⟨middle, first, rest⟩
  have start' : (before ++ [a]).head? = before.head?.or (some a) := by
    cases before <;> rfl
  have middle_eq := rest.start_eq
  rw [Option.or_none] at middle_eq
  rw [start']
  apply chain_append.mpr
  exact ⟨some a, (first.relink nodup.1 (some a)).congr front, rfl, after.head?, here, by
    rw [← middle_eq]
    exact rest.congr back⟩

/-- Take a node out of a chain that comes to `NULL`. -/
theorem Chain.remove (chain : Chain link start (before ++ a :: after) none)
    {link' : ρ → Option (Option ρ)}
    (front : ∀ b ∈ before, link' b = Memory.relink link before after.head? b)
    (back : ∀ b ∈ after, link' b = link b) :
    Chain link' ((before ++ after).head?) (before ++ after) none := by
  have nodup := List.nodup_append.mp chain.nodup
  have rest := chain.tail
  rcases chain_append.mp chain with ⟨middle, first, _⟩
  rw [Option.or_none] at rest
  rw [List.head?_append]
  apply chain_append.mpr
  exact ⟨after.head?, (first.relink nodup.1 after.head?).congr front, rest.congr back⟩

end Relink

end ViabtcServer.Memory
