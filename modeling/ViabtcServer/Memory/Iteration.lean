import Mathlib.Data.List.Basic
import Mathlib.Data.List.Nodup

/-!
# Iterations with deletion

A caller takes nodes from an iterator until there is none, and after each may
delete nodes it has been given. Where the iterator has left these behind, the
iteration gives every node that was still to come, in order.
-/

namespace ViabtcServer.Memory

universe u v w x

/-- An iterator over a structure, and what deletes a node of the structure. Both may fail. -/
structure Iterator (σ : Type u) (ι : Type v) (ρ : Type w) where
  next : σ → ι → Option (Option ρ × ι)
  del : σ → ρ → Option σ

namespace Iterator

variable {σ : Type u} {ι : Type v} {ρ : Type w} {κ : Type x} (it : Iterator σ ι ρ)

/-- Delete these nodes. -/
def delAll : List ρ → σ → Option σ
  | [], state => some state
  | a :: nodes, state => (it.del state a).bind (delAll nodes)

/-- Take nodes until there is none, at most `fuel`; `chosen` tells which of those given so far to
delete next. Which nodes were given, and the structure then. -/
def sweep (chosen : List ρ → List ρ) : ℕ → List ρ → σ → ι → Option (List ρ × σ)
  | 0, _, _, _ => none
  | fuel + 1, given, state, iter =>
      (it.next state iter).bind fun
        | (none, _) => some ([], state)
        | (some a, iter) =>
            (it.delAll (chosen (given ++ [a])) state).bind fun state =>
              (sweep chosen fuel (given ++ [a]) state iter).map fun (rest, state) =>
                (a :: rest, state)

/-! ## What the caller may delete -/

section Caller

variable (mem : κ → ρ → Prop) (erase : κ → ρ → κ)

/-- One after the other, these nodes were given and are still there. -/
def Deletable (given : List ρ) : List ρ → κ → Prop
  | [], _ => True
  | a :: nodes, content => a ∈ given ∧ mem content a ∧ Deletable given nodes (erase content a)

/-- After every node still to come, the caller deletes only what it was given and is there. -/
def Allowed (chosen : List ρ → List ρ) : List ρ → List ρ → κ → Prop
  | _, [], _ => True
  | given, a :: rest, content =>
      Deletable mem erase (given ++ [a]) (chosen (given ++ [a])) content ∧
        Allowed chosen (given ++ [a]) rest ((chosen (given ++ [a])).foldl erase content)

/-- What is left when all nodes were given. -/
def remains (chosen : List ρ → List ρ) : List ρ → List ρ → κ → κ
  | _, [], content => content
  | given, a :: rest, content =>
      remains chosen (given ++ [a]) rest ((chosen (given ++ [a])).foldl erase content)

/-- The relation between structure, iterator, nodes still to come and content that makes an
iteration safe: it tells what the iterator gives next, and to delete what is not to come keeps
it. -/
structure Safe (inv : σ → ι → List ρ → κ → Prop) : Prop where
  stop : ∀ {state iter content}, inv state iter [] content →
    ∃ iter', it.next state iter = some (none, iter')
  step : ∀ {state iter a rest content}, inv state iter (a :: rest) content →
    ∃ iter', it.next state iter = some (some a, iter') ∧ inv state iter' rest content
  nodup : ∀ {state iter rest content}, inv state iter rest content → rest.Nodup
  present : ∀ {state iter rest content}, inv state iter rest content → ∀ a ∈ rest, mem content a
  del : ∀ {state iter a rest content}, inv state iter rest content → mem content a → a ∉ rest →
    ∃ state', it.del state a = some state' ∧ inv state' iter rest (erase content a)

variable {it mem erase} {inv : σ → ι → List ρ → κ → Prop} {state : σ} {iter : ι} {content : κ}

theorem Safe.delAll (safe : it.Safe mem erase inv) {given rest nodes : List ρ}
    (holds : inv state iter rest content) (behind : ∀ a ∈ given, a ∉ rest)
    (deletable : Deletable mem erase given nodes content) :
    ∃ state', it.delAll nodes state = some state' ∧
      inv state' iter rest (nodes.foldl erase content) := by
  induction nodes generalizing state content with
  | nil => exact ⟨state, rfl, holds⟩
  | cons a nodes ih =>
      rcases deletable with ⟨was, there, others⟩
      rcases safe.del holds there (behind a was) with ⟨state', deleted, holds'⟩
      rcases ih holds' others with ⟨state'', all, holds''⟩
      unfold Iterator.delAll
      rw [deleted]
      exact ⟨state'', all, holds''⟩

/-- All nodes still to come are given, in order. -/
theorem Safe.sweep (safe : it.Safe mem erase inv) {chosen : List ρ → List ρ}
    {given rest : List ρ} (holds : inv state iter rest content) (behind : ∀ a ∈ given, a ∉ rest)
    (allowed : Allowed mem erase chosen given rest content) {fuel : ℕ}
    (enough : rest.length < fuel) :
    ∃ state' iter', it.sweep chosen fuel given state iter = some (rest, state') ∧
      inv state' iter' [] (remains erase chosen given rest content) := by
  induction rest generalizing given state iter content fuel with
  | nil =>
      cases fuel with
      | zero => exact absurd enough (Nat.not_lt_zero _)
      | succ fuel =>
          rcases safe.stop holds with ⟨iter', stopped⟩
          unfold Iterator.sweep
          rw [stopped]
          exact ⟨state, iter, rfl, holds⟩
  | cons a rest ih =>
      cases fuel with
      | zero => exact absurd enough (Nat.not_lt_zero _)
      | succ fuel =>
          have first := (List.nodup_cons.mp (safe.nodup holds)).1
          rcases safe.step holds with ⟨iter', given', holds'⟩
          have behind' : ∀ b ∈ given ++ [a], b ∉ rest := by
            intro b mem coming
            rcases List.mem_append.mp mem with before | now
            · exact behind b before (List.mem_cons_of_mem a coming)
            · rw [List.mem_singleton.mp now] at coming
              exact first coming
          rcases safe.delAll holds' behind' allowed.1 with ⟨state', deleted, holds''⟩
          rcases ih holds'' behind' allowed.2 (Nat.lt_of_succ_lt_succ enough) with
            ⟨state'', iter'', run, left⟩
          unfold Iterator.sweep
          rw [given', Option.bind_some]
          simp only
          rw [deleted, Option.bind_some, run]
          exact ⟨state'', iter'', rfl, left⟩

/-! ## Deleting what was just given -/

/-- The caller that deletes the node it has just been given if it is chosen. -/
def justGiven (chosen : ρ → Bool) (given : List ρ) : List ρ :=
  given.getLast?.toList.filter chosen

theorem justGiven_concat (chosen : ρ → Bool) (given : List ρ) (a : ρ) :
    justGiven chosen (given ++ [a]) = [a].filter chosen := by
  unfold justGiven
  rw [List.getLast?_concat]
  rfl

theorem allowed_justGiven {chosen : ρ → Bool}
    (keeps : ∀ {content a b}, mem content a → a ≠ b → mem (erase content b) a)
    {given rest : List ρ} (nodup : rest.Nodup) (present : ∀ a ∈ rest, mem content a) :
    Allowed mem erase (justGiven chosen) given rest content := by
  induction rest generalizing given content with
  | nil => trivial
  | cons a rest ih =>
      have apart := List.nodup_cons.mp nodup
      have later : ∀ b ∈ rest, b ≠ a := by
        rintro b coming rfl
        exact apart.1 coming
      unfold Allowed
      rw [justGiven_concat]
      cases choice : chosen a with
      | true =>
          rw [List.filter_cons_of_pos choice]
          exact ⟨⟨List.mem_append_right _ List.mem_cons_self, present a List.mem_cons_self,
            trivial⟩, ih apart.2 fun b coming =>
              keeps (present b (List.mem_cons_of_mem a coming)) (later b coming)⟩
      | false =>
          rw [List.filter_cons_of_neg (by rw [choice]; exact Bool.false_ne_true)]
          exact ⟨trivial, ih apart.2 fun b coming => present b (List.mem_cons_of_mem a coming)⟩

theorem remains_justGiven (chosen : ρ → Bool) (given rest : List ρ) (content : κ) :
    remains erase (justGiven chosen) given rest content =
      (rest.filter chosen).foldl erase content := by
  induction rest generalizing given content with
  | nil => rfl
  | cons a rest ih =>
      unfold remains
      rw [justGiven_concat, ih]
      cases choice : chosen a with
      | true => rw [List.filter_cons_of_pos choice, List.filter_cons_of_pos choice]; rfl
      | false =>
          have spared : ¬ chosen a = true := by
            rw [choice]
            exact Bool.false_ne_true
          rw [List.filter_cons_of_neg spared, List.filter_cons_of_neg spared]
          rfl

/-- An iteration that deletes some of the nodes when they are given. -/
theorem Safe.sweep_justGiven (safe : it.Safe mem erase inv) (chosen : ρ → Bool)
    (keeps : ∀ {content a b}, mem content a → a ≠ b → mem (erase content b) a) {rest : List ρ}
    (holds : inv state iter rest content) {fuel : ℕ} (enough : rest.length < fuel) :
    ∃ state' iter', it.sweep (justGiven chosen) fuel [] state iter = some (rest, state') ∧
      inv state' iter' [] ((rest.filter chosen).foldl erase content) := by
  have allowed : Allowed mem erase (justGiven chosen) [] rest content :=
    allowed_justGiven keeps (safe.nodup holds) (safe.present holds)
  have behind : ∀ a ∈ ([] : List ρ), a ∉ rest := fun _ mem => absurd mem List.not_mem_nil
  rcases safe.sweep holds behind allowed enough with ⟨state', iter', run, left⟩
  rw [remains_justGiven] at left
  exact ⟨state', iter', run, left⟩

end Caller

end Iterator

/-! ## Content by node -/

section Without

variable {α : Type u} {ρ : Type v} [DecidableEq ρ] (node : α → ρ)

/-- The members with another node. -/
def without (xs : List α) (a : ρ) : List α :=
  xs.filter fun x => node x ≠ a

theorem map_without (xs : List α) (a : ρ) :
    (without node xs a).map node = (xs.map node).filter (· ≠ a) := by
  rw [List.filter_map]
  rfl

variable {node} {l r xs : List α} {x : α}

theorem without_middle (nodup : ((l ++ x :: r).map node).Nodup) :
    without node (l ++ x :: r) (node x) = l ++ r := by
  rw [List.map_append, List.map_cons] at nodup
  have apart := List.nodup_append.mp nodup
  have keeps (part : List α) (other : ∀ y ∈ part, node y ≠ node x) :
      (part.filter fun y => node y ≠ node x) = part :=
    List.filter_eq_self.mpr fun y mem => decide_eq_true (other y mem)
  unfold without
  rw [List.filter_append, List.filter_cons_of_neg (by simp), keeps l, keeps r]
  · intro y mem same
    exact (List.nodup_cons.mp apart.2.1).1 (List.mem_map.mpr ⟨y, mem, same⟩)
  · intro y mem same
    exact apart.2.2 (node x) (List.mem_map.mpr ⟨y, mem, same⟩) (node x) List.mem_cons_self rfl

theorem foldl_without (nodes : List ρ) (xs : List α) :
    nodes.foldl (without node) xs = xs.filter fun x => !decide (node x ∈ nodes) := by
  induction nodes generalizing xs with
  | nil => exact (List.filter_eq_self.mpr fun x _ => by simp).symm
  | cons a nodes ih =>
      rw [List.foldl_cons, ih]
      unfold without
      rw [List.filter_filter]
      apply List.filter_congr
      intro x _
      rw [← decide_not, ← decide_not, ← Bool.decide_and, decide_eq_decide, List.mem_cons, not_or]
      exact And.comm

/-- An iteration over all members that deletes some of them when their nodes are given. -/
theorem Iterator.Safe.sweep_without {σ : Type w} {ι : Type x} {it : Iterator σ ι ρ}
    {inv : σ → ι → List ρ → List α → Prop} {state : σ} {iter : ι} {rest : List ρ}
    (safe : it.Safe (fun xs a => a ∈ xs.map node) (without node) inv) (chosen : ρ → Bool)
    (holds : inv state iter rest xs) (all : ∀ x ∈ xs, node x ∈ rest) {fuel : ℕ}
    (enough : rest.length < fuel) :
    ∃ state' iter', it.sweep (Iterator.justGiven chosen) fuel [] state iter =
      some (rest, state') ∧ inv state' iter' [] (xs.filter fun x => !chosen (node x)) := by
  have keeps {content : List α} {a b : ρ} (mem : a ∈ content.map node) (other : a ≠ b) :
      a ∈ (without node content b).map node := by
    rw [map_without]
    exact List.mem_filter.mpr ⟨mem, decide_eq_true other⟩
  rcases safe.sweep_justGiven chosen keeps holds enough with ⟨state', iter', run, left⟩
  rw [foldl_without] at left
  have same : (xs.filter fun x => !decide (node x ∈ rest.filter chosen)) =
      xs.filter fun x => !chosen (node x) := by
    apply List.filter_congr
    intro x mem
    have iff : node x ∈ rest.filter chosen ↔ chosen (node x) = true := by
      rw [List.mem_filter, and_iff_right (all x mem)]
    by_cases choice : chosen (node x) = true
    · rw [decide_eq_true (iff.mpr choice), choice]
    · rw [decide_eq_false fun among => choice (iff.mp among), Bool.eq_false_iff.mpr choice]
  rw [same] at left
  exact ⟨state', iter', run, left⟩

end Without

end ViabtcServer.Memory
