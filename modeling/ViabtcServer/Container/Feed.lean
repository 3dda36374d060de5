import Mathlib.Data.List.Induction
import Mathlib.Data.Option.Basic
import Mathlib.Logic.Function.Basic

/-!
# Feeds

A feed tells the changes of a keyed collection one by one. Whoever follows it
knows the entries present. A feed is in order for a key as long as the key is put
once, updated only while it is present and never mentioned after it is finished;
a key may also be finished without ever having been put.
-/

namespace ViabtcServer.Container

inductive Change
  | put
  | update
  | finish
  deriving DecidableEq, Repr

/-- One notice of a feed. -/
structure Notice (κ ν : Type) where
  change : Change
  key : κ
  val : ν

variable {κ ν : Type} [DecidableEq κ]

/-- What a change makes of the entry under its key. -/
def Change.on (change : Change) (entry : Option ν) (val : ν) : Option ν :=
  match change with
  | .put => some val
  | .update => entry.map fun _ => val
  | .finish => none

/-- The entries after one more notice. -/
def Notice.apply (view : κ → Option ν) (notice : Notice κ ν) : κ → Option ν :=
  Function.update view notice.key (notice.change.on (view notice.key) notice.val)

/-- The entries known to whoever followed the feed from the start. -/
def follow (feed : List (Notice κ ν)) : κ → Option ν :=
  feed.foldl Notice.apply fun _ => none

/-- What happened to a key. -/
def changesOf (feed : List (Notice κ ν)) (key : κ) : List Change :=
  (feed.filter fun notice => notice.key = key).map Notice.change

/-! ## Stages -/

/-- How far a key has come. -/
inductive Stage (ν : Type)
  | unseen
  | live (val : ν)
  | closed

/-- The next stage, when the change is in order. -/
def Stage.next : Stage ν → Change → ν → Option (Stage ν)
  | .unseen, .put, val => some (.live val)
  | .unseen, .finish, _ => some .closed
  | .live _, .update, val => some (.live val)
  | .live _, .finish, _ => some .closed
  | _, _, _ => none

/-- The stage of a key, when all its changes were in order. -/
def stageOf (feed : List (Notice κ ν)) (key : κ) : Option (Stage ν) :=
  feed.foldl
    (fun stage notice =>
      if notice.key = key then stage.bind fun s => s.next notice.change notice.val else stage)
    (some .unseen)

/-- The entry at a stage. -/
def Stage.entry : Stage ν → Option ν
  | .live val => some val
  | _ => none

/-- The changes that lead to a stage. -/
def Stage.Path : Stage ν → List Change → Prop
  | .unseen, changes => changes = []
  | .live _, changes => ∃ updates, changes = .put :: List.replicate updates .update
  | .closed, changes => changes = [.finish] ∨
      ∃ updates, changes = .put :: List.replicate updates .update ++ [.finish]

variable {feed : List (Notice κ ν)} {notice : Notice κ ν} {key : κ} {stage stage' : Stage ν}

theorem stageOf_concat (feed : List (Notice κ ν)) (notice : Notice κ ν) (key : κ) :
    stageOf (feed ++ [notice]) key =
      if notice.key = key then
        (stageOf feed key).bind fun s => s.next notice.change notice.val
      else stageOf feed key := by
  unfold stageOf
  rw [List.foldl_append]
  rfl

theorem stageOf_concat_self (reached : stageOf feed notice.key = some stage) :
    stageOf (feed ++ [notice]) notice.key = stage.next notice.change notice.val := by
  rw [stageOf_concat, if_pos rfl, reached]
  rfl

theorem stageOf_concat_other (differ : notice.key ≠ key) :
    stageOf (feed ++ [notice]) key = stageOf feed key := by
  rw [stageOf_concat, if_neg differ]

theorem follow_concat (feed : List (Notice κ ν)) (notice : Notice κ ν) :
    follow (feed ++ [notice]) = notice.apply (follow feed) := by
  unfold follow
  rw [List.foldl_append]
  rfl

theorem changesOf_append (feed more : List (Notice κ ν)) (key : κ) :
    changesOf (feed ++ more) key = changesOf feed key ++ changesOf more key := by
  unfold changesOf
  rw [List.filter_append, List.map_append]

theorem changesOf_concat (feed : List (Notice κ ν)) (notice : Notice κ ν) (key : κ) :
    changesOf (feed ++ [notice]) key =
      if notice.key = key then changesOf feed key ++ [notice.change] else changesOf feed key := by
  rw [changesOf_append]
  by_cases same : notice.key = key
  · simp [changesOf, same]
  · simp [changesOf, same]

omit [DecidableEq κ] in
/-- A change in order makes of an entry what its stage says. -/
theorem Stage.next_entry {change : Change} {val : ν}
    (next : stage.next change val = some stage') :
    change.on stage.entry val = stage'.entry := by
  cases stage <;> cases change <;> cases next <;> rfl

omit [DecidableEq κ] in
/-- A change in order continues the path to its stage. -/
theorem Stage.Path.next {change : Change} {val : ν} {changes : List Change}
    (path : stage.Path changes) (next : stage.next change val = some stage') :
    stage'.Path (changes ++ [change]) := by
  cases stage with
  | unseen =>
      obtain rfl : changes = [] := path
      cases change <;> cases next
      · exact ⟨0, rfl⟩
      · exact Or.inl rfl
  | live =>
      obtain ⟨updates, rfl⟩ := path
      cases change <;> cases next
      · refine ⟨updates + 1, ?_⟩
        rw [List.replicate_succ', List.cons_append]
      · exact Or.inr ⟨updates, rfl⟩
  | closed => cases change <;> cases next

/-- The last notice for a key was in order, and so were those before it. -/
theorem stageOf_concat_eq_some (reached : stageOf (feed ++ [notice]) key = some stage') :
    (notice.key = key ∧ ∃ stage, stageOf feed key = some stage ∧
        stage.next notice.change notice.val = some stage') ∨
      (notice.key ≠ key ∧ stageOf feed key = some stage') := by
  rw [stageOf_concat] at reached
  by_cases same : notice.key = key
  · rw [if_pos same] at reached
    exact Or.inl ⟨same, Option.bind_eq_some_iff.mp reached⟩
  · rw [if_neg same] at reached
    exact Or.inr ⟨same, reached⟩

/-- Whoever follows a feed knows the entries of the keys in order. -/
theorem follow_of_stage : stageOf feed key = some stage → follow feed key = stage.entry := by
  induction feed using List.reverseRecOn generalizing stage with
  | nil =>
      intro reached
      cases reached
      rfl
  | append_singleton feed notice ih =>
      intro reached
      rw [follow_concat, Notice.apply]
      rcases stageOf_concat_eq_some reached with ⟨rfl, before, was, next⟩ | ⟨differ, was⟩
      · rw [Function.update_self, ih was, Stage.next_entry next]
      · rw [Function.update_of_ne (Ne.symm differ), ih was]

/-- The changes of a key in order lead to its stage. -/
theorem path_of_stage : stageOf feed key = some stage → stage.Path (changesOf feed key) := by
  induction feed using List.reverseRecOn generalizing stage with
  | nil =>
      intro reached
      cases reached
      rfl
  | append_singleton feed notice ih =>
      intro reached
      rw [changesOf_concat]
      rcases stageOf_concat_eq_some reached with ⟨same, before, was, next⟩ | ⟨differ, was⟩
      · rw [if_pos same]
        exact (ih was).next next
      · rw [if_neg differ]
        exact ih was

/-- A key that was finished and nothing else was never present. -/
theorem not_live_of_finish {more : List (Notice κ ν)} {val : ν}
    (changes : changesOf (feed ++ more) key = [.finish]) :
    stageOf feed key ≠ some (.live val) := by
  intro live
  obtain ⟨updates, path⟩ := path_of_stage live
  rw [changesOf_append, path] at changes
  cases changes

end ViabtcServer.Container
