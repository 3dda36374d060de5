import ViabtcServer.Container.DictBuckets

/-!
# Iterations over a dictionary

`dict_next` goes through the buckets in order. Before it gives an entry it reads
where to go on, and so the caller may delete the entries it has been given.
-/

namespace ViabtcServer.Container

open Memory

variable {ρ K V κ : Type} [DecidableEq ρ] {name : K → κ} {dt : DictT ρ K V}
  {xs : List (DictItem ρ K V)} {iter : DictIter ρ} {rest : List ρ} {a : ρ}

section Without

variable {β : Type} {home : β → ℕ} {ys : List (ρ × β)}

theorem bucket_without (i : ℕ) (ys : List (ρ × β)) (a : ρ) :
    bucket home i (without Prod.fst ys a) = (bucket home i ys).filter (· ≠ a) := by
  unfold bucket without
  rw [List.filter_comm, List.filter_map]
  rfl

theorem fromBucket_without (n i : ℕ) (ys : List (ρ × β)) (a : ρ) :
    (fromBucket home (without Prod.fst ys a) n i).map Prod.fst =
      ((fromBucket home ys n i).map Prod.fst).filter (· ≠ a) := by
  have same : fromBucket home (without Prod.fst ys a) n i =
      without Prod.fst (fromBucket home ys n i) a := by
    unfold fromBucket without
    rw [List.filter_flatMap]
    apply congrArg (fun f => List.flatMap f (List.range' i n))
    funext j
    exact List.filter_comm _ _ _
  rw [same, map_without]

end Without

/-- All entries, in the order of their buckets. -/
def entriesOf (dt : DictT ρ K V) (xs : List (DictItem ρ K V)) : List ρ :=
  (fromBucket dt.home xs dt.size 0).map Prod.fst

/-- The iterator stands before these entries: the rest of a bucket and the buckets from `i` on. -/
def Position (dt : DictT ρ K V) (iter : DictIter ρ) (rest : List ρ)
    (xs : List (DictItem ρ K V)) : Prop :=
  ∃ (i : ℕ) (tail : List ρ), iter.index = (i : ℤ) - 1 ∧
    rest = tail ++ (fromBucket dt.home xs (dt.size - i) i).map Prod.fst ∧
    (iter.entry = none ∧ tail = [] ∨
      iter.entry ≠ none ∧ iter.nextEntry = tail.head? ∧
        ∃ j done, j < dt.size ∧ bucket dt.home j xs = done ++ tail)

namespace HoldsEntries

omit [DecidableEq ρ] in
/-- The loop looks for the next bucket with an entry. -/
theorem nextLoop_eq (holds : HoldsEntries name dt xs) (nextEntry : Option ρ) {n i fuel : ℕ}
    (left : dt.size - i = n) (enough : n < fuel) :
    ∃ iter', dictNextLoop dt fuel ⟨(i : ℤ) - 1, none, nextEntry⟩ =
        some (((fromBucket dt.home xs n i).map Prod.fst).head?, iter') ∧
      Position dt iter' ((fromBucket dt.home xs n i).map Prod.fst).tail xs := by
  induction n generalizing i fuel with
  | zero =>
      cases fuel with
      | zero => exact absurd enough (Nat.not_lt_zero _)
      | succ fuel =>
          have past : (dt.size : ℤ) ≤ (i : ℤ) - 1 + 1 := by omega
          have none' : dt.size - (i + 1) = 0 := by omega
          unfold dictNextLoop
          simp only
          rw [if_pos past]
          refine ⟨_, rfl, i + 1, [], ?_, ?_, Or.inl ⟨rfl, rfl⟩⟩
          · simp only
            omega
          · rw [none']
            rfl
  | succ n ih =>
      cases fuel with
      | zero => exact absurd enough (Nat.not_lt_zero _)
      | succ fuel =>
          have bound : i < dt.size := by omega
          have inside : ¬ (dt.size : ℤ) ≤ (i : ℤ) - 1 + 1 := by omega
          have index : (i : ℤ) - 1 + 1 = ((i + 1 : ℕ) : ℤ) - 1 := by omega
          have toNat : ((i : ℤ) - 1 + 1).toNat = i := by omega
          rcases holds.buckets.chains i bound with ⟨start, pointer, chain⟩
          have split : (fromBucket dt.home xs (n + 1) i).map Prod.fst =
              bucket dt.home i xs ++ (fromBucket dt.home xs n (i + 1)).map Prod.fst := by
            rw [fromBucket_succ, List.map_append]
            rfl
          rw [split]
          unfold dictNextLoop
          simp only
          rw [if_neg inside, toNat, pointer, Option.bind_some, index]
          cases empty : bucket dt.home i xs with
          | nil =>
              rw [empty] at chain
              cases chain
              exact ih (by omega) (by omega)
          | cons a tail =>
              rw [empty] at chain
              rcases chain with ⟨rfl, next, linked, behind⟩
              rcases exists_cell linked with ⟨cell, found, follow⟩
              have head := behind.start_eq
              rw [Option.or_none] at head
              simp only
              rw [found, Option.map_some]
              refine ⟨_, rfl, i + 1, tail, rfl, ?_,
                Or.inr ⟨Option.some_ne_none a, ?_, i, [a], bound, empty⟩⟩
              · have rest : dt.size - (i + 1) = n := by omega
                rw [rest]
                rfl
              · exact follow.trans head

omit [DecidableEq ρ] in
/-- `dict_next` gives the next entry. -/
theorem next_eq (holds : HoldsEntries name dt xs) (position : Position dt iter rest xs) :
    ∃ iter', dictNext dt iter = some (rest.head?, iter') ∧ Position dt iter' rest.tail xs := by
  rcases iter with ⟨index, entry, nextEntry⟩
  rcases position with ⟨i, tail, rfl, rfl, ⟨none', rfl⟩ | ⟨given, next, j, done, bound, split⟩⟩
  · cases none'
    exact holds.nextLoop_eq nextEntry rfl (Nat.lt_of_le_of_lt (Nat.sub_le _ _) (by omega))
  · rcases Option.ne_none_iff_exists'.mp given with ⟨old, eq⟩
    cases eq
    cases next
    unfold dictNext dictNextLoop
    simp only
    cases tail with
    | nil => exact holds.nextLoop_eq none rfl (Nat.lt_succ_of_le (Nat.sub_le _ _))
    | cons a tail =>
        rcases holds.buckets.chains j bound with ⟨start, _, chain⟩
        rw [split] at chain
        have link := chain.link_eq
        rw [Option.or_none] at link
        rcases exists_cell link with ⟨cell, found, follow⟩
        simp only
        rw [found, Option.map_some]
        refine ⟨_, rfl, i, tail, rfl, rfl, Or.inr ⟨Option.some_ne_none a, follow, j, done ++ [a],
          bound, ?_⟩⟩
        rw [split, List.append_assoc]
        rfl

/-- The iterator stands before the entries still to come. -/
def Coming (name : K → κ) (dt : DictT ρ K V) (iter : DictIter ρ) (rest : List ρ)
    (xs : List (DictItem ρ K V)) : Prop :=
  HoldsEntries name dt xs ∧ Position dt iter rest xs ∧ ∃ done, entriesOf dt xs = done ++ rest

omit [DecidableEq ρ] in
/-- The buckets hold every entry once. -/
theorem entriesOf_perm (holds : HoldsEntries name dt xs) :
    (entriesOf dt xs).Perm (xs.map Prod.fst) :=
  (fromBucket_perm (List.Nodup.of_map _ holds.buckets.nodup) holds.buckets.homes).map Prod.fst

/-- Entries not to come may be deleted. -/
theorem Coming.del {content : List (DictItem ρ K V)} (coming : Coming name dt iter rest content)
    (mem : a ∈ content.map Prod.fst) (behind : a ∉ rest) :
    ∃ dt', dictIterator.del dt a = some dt' ∧
      Coming name dt' iter rest (without Prod.fst content a) := by
  rcases coming with ⟨holds, ⟨i, tail, index, split, place⟩, done, order⟩
  rcases List.mem_map.mp mem with ⟨x, among, rfl⟩
  rcases List.append_of_mem among with ⟨l, r, rfl⟩
  rcases exists_cell (holds.buckets.cells x among) with ⟨cell, found, data⟩
  have key : x.2.1 = cell.key := (congrArg Prod.fst data).symm
  rcases holds.delete_present (congrArg name key) with ⟨table, nodes, deleted, holds'⟩
  have gone := without_middle holds.buckets.nodup
  rw [← gone] at holds'
  have keep {part : List ρ} (other : x.1 ∉ part) : part.filter (· ≠ x.1) = part :=
    List.filter_eq_self.mpr fun b mem => decide_eq_true (by rintro rfl; exact other mem)
  have parts := behind
  rw [split, List.mem_append, not_or] at parts
  refine ⟨{ dt with table, nodes, used := dt.used - 1 }, ?_, holds', ?_, done.filter (· ≠ x.1), ?_⟩
  · change ((dt.nodes x.1).bind fun cell => (dt.delete cell.key).map Prod.fst) = _
    rw [found, Option.bind_some, deleted]
    rfl
  · refine ⟨i, tail, index, ?_, ?_⟩
    · change rest = tail ++ (fromBucket dt.home _ (dt.size - i) i).map Prod.fst
      rw [fromBucket_without, keep parts.2]
      exact split
    · rcases place with first | ⟨given, next, j, front, bound, part⟩
      · exact Or.inl first
      · refine Or.inr ⟨given, next, j, front.filter (· ≠ x.1), bound, ?_⟩
        change bucket dt.home j _ = _
        rw [bucket_without, part, List.filter_append, keep parts.1]
  · change (fromBucket dt.home _ dt.size 0).map Prod.fst = _
    rw [fromBucket_without]
    change (entriesOf dt (l ++ x :: r)).filter (· ≠ x.1) = _
    rw [order, List.filter_append, keep behind]

theorem iterator_safe : (dictIterator : Iterator (DictT ρ K V) (DictIter ρ) ρ).Safe
    (fun xs a => a ∈ xs.map Prod.fst) (without Prod.fst) (Coming name) where
  stop := by
    rintro dt iter xs ⟨holds, position, _⟩
    rcases holds.next_eq position with ⟨iter', next, _⟩
    exact ⟨iter', next⟩
  step := by
    rintro dt iter a rest xs ⟨holds, position, done, order⟩
    rcases holds.next_eq position with ⟨iter', next, position'⟩
    refine ⟨iter', next, holds, position', done ++ [a], ?_⟩
    rw [order, List.append_assoc]
    rfl
  nodup := by
    rintro dt iter rest xs ⟨holds, _, done, order⟩
    have nodup := holds.entriesOf_perm.nodup_iff.mpr holds.buckets.nodup
    rw [order] at nodup
    exact (List.nodup_append.mp nodup).2.1
  present := by
    rintro dt iter rest xs ⟨holds, _, done, order⟩ a mem
    apply holds.entriesOf_perm.mem_iff.mp
    rw [order]
    exact List.mem_append_right done mem
  del := fun coming mem behind => coming.del mem behind

omit [DecidableEq ρ] in
/-- A new iterator stands before all entries. -/
theorem coming_start (holds : HoldsEntries name dt xs) :
    Coming name dt dictGetIterator (entriesOf dt xs) xs :=
  ⟨holds, ⟨0, [], rfl, rfl, Or.inl ⟨rfl, rfl⟩⟩, [], rfl⟩

/-- An iteration gives all entries, whichever of those given its caller deletes. -/
theorem sweep (holds : HoldsEntries name dt xs) {chosen : List ρ → List ρ}
    (allowed : Iterator.Allowed (fun xs a => a ∈ xs.map Prod.fst) (without Prod.fst) chosen []
      (entriesOf dt xs) xs) :
    ∃ dt', dictIterator.sweep chosen (dt.used + 1) [] dt dictGetIterator =
        some (entriesOf dt xs, dt') ∧
      HoldsEntries name dt'
        (Iterator.remains (without Prod.fst) chosen [] (entriesOf dt xs) xs) := by
  have enough : (entriesOf dt xs).length < dt.used + 1 := by
    rw [holds.entriesOf_perm.length_eq, List.length_map, holds.used]
    exact Nat.lt_succ_self _
  rcases iterator_safe.sweep holds.coming_start (fun _ mem => absurd mem List.not_mem_nil) allowed
    enough with ⟨dt', iter', run, holds', _⟩
  exact ⟨dt', run, holds'⟩

theorem clear_eq (holds : HoldsEntries name dt xs) :
    ∃ dt', dt.clear = some dt' ∧ HoldsEntries name dt' [] := by
  have enough : (entriesOf dt xs).length < dt.used + 1 := by
    rw [holds.entriesOf_perm.length_eq, List.length_map, holds.used]
    exact Nat.lt_succ_self _
  have all : ∀ x ∈ xs, x.1 ∈ entriesOf dt xs := fun x mem =>
    holds.entriesOf_perm.mem_iff.mpr (List.mem_map_of_mem mem)
  rcases iterator_safe.sweep_without (fun _ => true) holds.coming_start all enough with
    ⟨dt', iter', run, holds', _⟩
  have nothing : (xs.filter fun _ => !true) = [] := List.filter_eq_nil_iff.mpr (by simp)
  rw [nothing] at holds'
  refine ⟨dt', ?_, holds'⟩
  unfold DictT.clear
  rw [run]
  rfl

end HoldsEntries

end ViabtcServer.Container
