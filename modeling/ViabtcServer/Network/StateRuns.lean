import ViabtcServer.Network.StateEntries

/-!
# Runs of the table of waiting requests

Every entry is found under its own id, has its timer armed and is released once,
as long as the table does not have to grow beyond 2^30 buckets and no callback
starts the timer of the entry that is about to be released.
-/

namespace ViabtcServer.Network

open Memory Container

variable {ρ : Type} [DecidableEq ρ] {context : StateTable ρ} {stopped : List ρ}
  {xs : List (StateItem ρ)}

/-! ## What may happen -/

/-- Every call is one that may be made where it is made. -/
def AllCalls (P : StateCall ρ → StateTable ρ → Prop) : List (StateCall ρ) → StateTable ρ → Prop
  | [], _ => True
  | call :: calls, context =>
      P call context ∧ ∀ context', call.run context = some context' → AllCalls P calls context'

omit [DecidableEq ρ] in
/-- The address of a new entry is not in use, and fewer than 2^32 - 1 entries are live. -/
def StateCall.Valid (call : StateCall ρ) (context : StateTable ρ) : Prop :=
  match call with
  | add entry _ => context.nodes entry = none ∧ context.used < 2 ^ 32 - 1
  | _ => True

/-- Armed timers expire, and `on_timeout` does not delete the entry. -/
def StateStep.Valid (step : StateStep ρ) (context : StateTable ρ) : Prop :=
  match step with
  | call c => c.Valid context
  | expire entry callback => context.armed entry = true ∧
      AllCalls StateCall.Valid callback (context.stopTimer entry) ∧
      ∀ cell, context.nodes entry = some cell → StateCall.del cell.id ∉ callback

omit [DecidableEq ρ] in
/-- The table has fewer than 2^30 buckets when an entry is added. -/
def StateCall.Small (call : StateCall ρ) (context : StateTable ρ) : Prop :=
  match call with
  | add _ _ => context.tableSize < 2 ^ 30
  | _ => True

/-- It is also so in `on_timeout`, which does not start the timer of the entry. -/
def StateStep.Small (step : StateStep ρ) (context : StateTable ρ) : Prop :=
  match step with
  | call c => c.Small context
  | expire entry callback => AllCalls StateCall.Small callback (context.stopTimer entry) ∧
      ∀ cell, context.nodes entry = some cell → StateCall.mod cell.id ∉ callback

/-- Every step of a run is one that may happen where it happens. -/
def AllSteps (P : StateStep ρ → StateTable ρ → Prop) : List (StateStep ρ) → StateTable ρ → Prop
  | [], _ => True
  | step :: steps, context =>
      P step context ∧ ∀ context', step.run context = some context' → AllSteps P steps context'

/-! ## What the calls denote -/

/-- What a call does to the association of ids and entries. -/
def StateCall.denote (call : StateCall ρ) (state : NwState ρ) : NwState ρ :=
  match call with
  | add entry id => ((nwStateAdd state id entry).map Prod.snd).getD state
  | get _ | mod _ => state
  | del id => nwStateDel state id

/-- What several calls do to it. -/
def callsDenote (calls : List (StateCall ρ)) (state : NwState ρ) : NwState ρ :=
  calls.foldl (fun state call => call.denote state) state

/-- What a step does to it: an entry whose timer expires is removed after the calls of
`on_timeout`. -/
def StateStep.denote (step : StateStep ρ) (state : NwState ρ) : NwState ρ :=
  match step with
  | call c => c.denote state
  | expire entry callback =>
      match state.table.entries.find? fun item => item.2 = entry with
      | none => callsDenote callback state
      | some item => nwStateDel (callsDenote callback state) item.1

/-- What several steps do to it. -/
def stateDenotes (steps : List (StateStep ρ)) (state : NwState ρ) : NwState ρ :=
  steps.foldl (fun state step => step.denote state) state

omit [DecidableEq ρ] in
theorem stands_create : Stands (StateTable.create : StateTable ρ) [] NwState.empty where
  idStart := rfl
  find := by
    intro id a
    apply iff_of_false
    · exact fun found => nomatch dictFind_empty.symm.trans found
    · rintro ⟨x, mem, _⟩
      cases mem

/-- An entry is found by its address. -/
theorem HoldsStates.find_entry {state : NwState ρ} {x : StateItem ρ}
    (holds : HoldsStates context stopped xs) (stands : Stands context xs state) (mem : x ∈ xs) :
    state.table.entries.find? (fun item => item.2 = x.1) = some ⟨x.2.1, x.1⟩ := by
  cases found : state.table.entries.find? (fun item => item.2 = x.1) with
  | none =>
      have there : (⟨x.2.1, x.1⟩ : Sigma fun _ : BitVec 32 => ρ) ∈ state.table.entries :=
        mem_entries_iff.mpr ((stands.find _ _).mpr ⟨x, mem, rfl, rfl⟩)
      have differ := List.find?_eq_none.mp found _ there
      simp at differ
  | some item =>
      have own : item.2 = x.1 := by simpa using List.find?_some found
      rcases (stands.find _ _).mp (mem_entries_iff.mp (List.mem_of_find?_eq_some found)) with
        ⟨y, among, here, id⟩
      have same : y = x :=
        List.inj_on_of_nodup_map holds.buckets.nodup among mem (here.trans own)
      rw [← same, id, here]

/-! ## Steps -/

/-- A call that does not concern stopped entries. -/
theorem StateCall.run_holds (call : StateCall ρ) {state : NwState ρ}
    (holds : HoldsStates context stopped xs) (stands : Stands context xs state)
    (valid : call.Valid context) (small : call.Small context)
    (other : ∀ x ∈ xs, x.1 ∈ stopped → call ≠ .del x.2.1 ∧ call ≠ .mod x.2.1) :
    ∃ context' xs', call.run context = some context' ∧ HoldsStates context' stopped xs' ∧
      HoldsStates.Kept stopped xs xs' ∧ Stands context' xs' (call.denote state) := by
  cases call with
  | add entry id =>
      rcases holds.add_eq stands valid.1 small id with
        ⟨context', xs', run, holds', kept, _, stands'⟩
      unfold StateCall.run
      simp only
      rw [run]
      exact ⟨context', xs', rfl, holds', fun x mem _ => kept x mem, stands'⟩
  | get id =>
      rcases holds.get_eq id with ⟨found, run, _⟩
      unfold StateCall.run
      simp only
      rw [run]
      exact ⟨context, xs, rfl, holds, fun _ mem _ => mem, stands⟩
  | mod id =>
      have apart : ∀ x ∈ xs, x.1 ∈ stopped → x.2.1 ≠ id := by
        rintro x mem mem' rfl
        exact (other x mem mem').2 rfl
      rcases holds.mod_eq apart with ⟨context', result, run, holds', last⟩
      unfold StateCall.run
      simp only
      rw [run]
      exact ⟨context', xs, rfl, holds', fun _ mem _ => mem,
        ⟨stands.idStart.trans last.symm, stands.find⟩⟩
  | del id =>
      have apart : ∀ x ∈ xs, x.1 ∈ stopped → x.2.1 ≠ id := by
        rintro x mem mem' rfl
        exact (other x mem mem').1 rfl
      rcases holds.del_eq stands apart with ⟨context', result, xs', run, holds', kept, stands'⟩
      unfold StateCall.run
      simp only
      rw [run]
      exact ⟨context', xs', rfl, holds', kept, stands'⟩

/-- The calls of a callback keep the entry whose timer expired. -/
theorem stateCalls_holds {calls : List (StateCall ρ)} {x : StateItem ρ} {state : NwState ρ}
    (holds : HoldsStates context [x.1] xs) (stands : Stands context xs state) (mem : x ∈ xs)
    (valid : AllCalls StateCall.Valid calls context)
    (small : AllCalls StateCall.Small calls context)
    (del : StateCall.del x.2.1 ∉ calls) (mod : StateCall.mod x.2.1 ∉ calls) :
    ∃ context' xs', stateCalls calls context = some context' ∧
      HoldsStates context' [x.1] xs' ∧ x ∈ xs' ∧
      Stands context' xs' (callsDenote calls state) := by
  induction calls generalizing context xs state with
  | nil => exact ⟨context, xs, rfl, holds, mem, stands⟩
  | cons call calls ih =>
      rw [List.mem_cons, not_or] at del mod
      have other : ∀ y ∈ xs, y.1 ∈ [x.1] → call ≠ .del y.2.1 ∧ call ≠ .mod y.2.1 := by
        intro y among same
        have equal : y = x :=
          List.inj_on_of_nodup_map holds.buckets.nodup among mem (List.mem_singleton.mp same)
        rw [equal]
        exact ⟨Ne.symm del.1, Ne.symm mod.1⟩
      rcases call.run_holds holds stands valid.1 small.1 other with
        ⟨context₁, xs₁, run, holds₁, kept, stands₁⟩
      rcases ih holds₁ stands₁ (kept x mem List.mem_cons_self) (valid.2 _ run) (small.2 _ run)
        del.2 mod.2 with ⟨context₂, xs₂, runs, holds₂, mem₂, stands₂⟩
      refine ⟨context₂, xs₂, ?_, holds₂, mem₂, stands₂⟩
      unfold stateCalls
      rw [run]
      exact runs

/-- One step. -/
theorem StateStep.run_holds (step : StateStep ρ) {state : NwState ρ}
    (holds : HoldsStates context [] xs) (stands : Stands context xs state)
    (valid : step.Valid context) (small : step.Small context) :
    ∃ context' xs', step.run context = some context' ∧ HoldsStates context' [] xs' ∧
      Stands context' xs' (step.denote state) := by
  cases step with
  | call c =>
      rcases c.run_holds holds stands valid small fun _ _ mem => absurd mem List.not_mem_nil with
        ⟨context', xs', run, holds', _, stands'⟩
      exact ⟨context', xs', run, holds', stands'⟩
  | expire entry callback =>
      rcases valid with ⟨armed, valid, del⟩
      rcases small with ⟨small, mod⟩
      have inside := ((holds.armed entry).mp armed).1
      rcases List.mem_map.mp inside with ⟨x, mem, rfl⟩
      rcases exists_cell (holds.buckets.cells x mem) with ⟨cell, found, data⟩
      have id : cell.id = x.2.1 := congrArg Prod.fst data
      have keepsDel := del cell found
      have keepsMod := mod cell found
      rw [id] at keepsDel keepsMod
      have stopped : Stands (context.stopTimer x.1) xs state := ⟨stands.idStart, stands.find⟩
      rcases stateCalls_holds (holds.stopTimer_holds inside) stopped mem valid small keepsDel
        keepsMod with ⟨context₁, xs₁, runs, holds₁, mem₁, stands₁⟩
      rcases List.append_of_mem mem₁ with ⟨l, r, rfl⟩
      rcases holds₁.stateRemove_eq List.not_mem_nil .timeout with
        ⟨context₂, removed, holds₂, last⟩
      refine ⟨context₂, l ++ r, ?_, holds₂, ?_⟩
      · unfold StateStep.run StateTable.onTimeout
        simp only
        rw [found, Option.bind_some, runs]
        exact removed
      · unfold StateStep.denote
        simp only
        rw [holds.find_entry stands mem]
        exact HoldsStates.stands_delete stands₁ holds₁.apart last

/-- A whole run. -/
theorem stateRuns_holds {steps : List (StateStep ρ)} {state : NwState ρ}
    (holds : HoldsStates context [] xs) (stands : Stands context xs state)
    (valid : AllSteps StateStep.Valid steps context)
    (small : AllSteps StateStep.Small steps context) :
    ∃ context' xs', stateRuns steps context = some context' ∧ HoldsStates context' [] xs' ∧
      Stands context' xs' (stateDenotes steps state) := by
  induction steps generalizing context xs state with
  | nil => exact ⟨context, xs, rfl, holds, stands⟩
  | cons step steps ih =>
      rcases step.run_holds holds stands valid.1 small.1 with
        ⟨context₁, xs₁, run, holds₁, stands₁⟩
      rcases ih holds₁ stands₁ (valid.2 _ run) (small.2 _ run) with
        ⟨context₂, xs₂, runs, holds₂, stands₂⟩
      refine ⟨context₂, xs₂, ?_, holds₂, stands₂⟩
      unfold stateRuns
      rw [run]
      exact runs

/-! ## The table of live entries -/

/-- The table is the table of these entries, which are those that the calls denote, and every
entry that was added is one of them or was released once. -/
structure Keeps (context : StateTable ρ) (xs : List (StateItem ρ)) (state : NwState ρ) : Prop where
  ids : (xs.map fun x => x.2.1).Nodup
  nonzero : ∀ x ∈ xs, x.2.1 ≠ 0
  cells : ∀ a, context.nodes a ≠ none ↔ a ∈ xs.map Prod.fst
  get : ∀ id, ∃ found, context.get id = some found ∧
    ∀ a, found = some a ↔ ∃ x ∈ xs, x.1 = a ∧ x.2.1 = id
  live : ∀ id a, nwStateGet state id = some a ↔ ∃ x ∈ xs, x.1 = a ∧ x.2.1 = id
  added : ∀ a id, context.nodes a = none → context.tableSize < 2 ^ 30 →
    ∃ context', context.add a id = some (context', (nwStateAdd state id a).map fun _ => a)
  search : xs.length < 2 ^ 32 - 1 →
    ∃ id, context.availableIdLoop (2 ^ 32) context.idStart = some id ∧ id ≠ 0 ∧
      ∀ x ∈ xs, x.2.1 ≠ id
  used : context.used = xs.length
  timers : ∀ a, context.armed a = true ↔ a ∈ xs.map Prod.fst
  released : (xs.map (fun x => x.2.2) ++ context.released.map Prod.fst).Perm
    (List.range context.births)
  once : (context.released.map Prod.fst).Nodup

theorem HoldsStates.keeps {state : NwState ρ} (holds : HoldsStates context [] xs)
    (stands : Stands context xs state) : Keeps context xs state where
  ids := holds.ids
  nonzero := holds.nonzero
  cells := fun a => ⟨holds.buckets.live a, holds.buckets.alive⟩
  get := holds.get_eq
  live := stands.find
  added := by
    intro a id fresh small
    rcases holds.add_eq stands fresh small id with ⟨context', _, run, _⟩
    exact ⟨context', run⟩
  search := holds.availableId_ends
  used := holds.used
  timers := fun a => (holds.armed a).trans (and_iff_left List.not_mem_nil)
  released := holds.serials
  once := (List.nodup_append.mp (holds.serials.nodup_iff.mpr List.nodup_range)).2.1

/-- In every run in which no entry is added to a table of 2^30 buckets and no callback starts the
timer of the entry that expired, the table keeps its entries: those that were added and neither
deleted nor expired. -/
theorem state_table_keeps (steps : List (StateStep ρ))
    (valid : AllSteps StateStep.Valid steps StateTable.create)
    (small : AllSteps StateStep.Small steps StateTable.create) :
    ∃ context xs, stateRuns steps StateTable.create = some context ∧
      Keeps context xs (stateDenotes steps NwState.empty) := by
  rcases stateRuns_holds HoldsStates.create_holds stands_create valid small with
    ⟨context, xs, runs, holds, stands⟩
  exact ⟨context, xs, runs, holds.keeps stands⟩

/-! ### Entries that come and go -/

/-- Whether a call may be made, with room in the table. -/
def StateCall.fine (call : StateCall ρ) (context : StateTable ρ) : Bool :=
  match call with
  | add entry _ => (context.nodes entry).isNone && decide (context.used < 2 ^ 32 - 1) &&
      decide (context.tableSize < 2 ^ 30)
  | _ => true

def callsFine : List (StateCall ρ) → StateTable ρ → Bool
  | [], _ => true
  | call :: calls, context => call.fine context && (call.run context).all (callsFine calls)

/-- Neither a deletion nor a restart of the timer of this entry. -/
def StateCall.leaves (call : StateCall ρ) (own : BitVec 32) : Bool :=
  match call with
  | del id | mod id => decide (id ≠ own)
  | _ => true

def StateStep.fine (step : StateStep ρ) (context : StateTable ρ) : Bool :=
  match step with
  | call c => c.fine context
  | expire entry callback => context.armed entry &&
      callsFine callback (context.stopTimer entry) &&
      (context.nodes entry).all fun cell => callback.all fun call => call.leaves cell.id

def stepsFine : List (StateStep ρ) → StateTable ρ → Bool
  | [], _ => true
  | step :: steps, context => step.fine context && (step.run context).all (stepsFine steps)

omit [DecidableEq ρ] in
theorem StateCall.fine_sound {call : StateCall ρ} (fine : call.fine context = true) :
    call.Valid context ∧ call.Small context := by
  cases call with
  | add entry id =>
      simp only [StateCall.fine, Bool.and_eq_true, decide_eq_true_eq,
        Option.isNone_iff_eq_none] at fine
      exact ⟨fine.1, fine.2⟩
  | get | mod | del => exact ⟨trivial, trivial⟩

theorem callsFine_sound {calls : List (StateCall ρ)} (fine : callsFine calls context = true) :
    AllCalls StateCall.Valid calls context ∧ AllCalls StateCall.Small calls context := by
  induction calls generalizing context with
  | nil => exact ⟨trivial, trivial⟩
  | cons call calls ih =>
      rw [callsFine, Bool.and_eq_true] at fine
      have own := StateCall.fine_sound fine.1
      have rest (context' : StateTable ρ) (run : call.run context = some context') :
          callsFine calls context' = true := by
        have all := fine.2
        rwa [run] at all
      exact ⟨⟨own.1, fun context' run => (ih (rest context' run)).1⟩,
        ⟨own.2, fun context' run => (ih (rest context' run)).2⟩⟩

theorem StateStep.fine_sound {step : StateStep ρ} (fine : step.fine context = true) :
    step.Valid context ∧ step.Small context := by
  cases step with
  | call c => exact StateCall.fine_sound fine
  | expire entry callback =>
      rw [StateStep.fine, Bool.and_eq_true, Bool.and_eq_true] at fine
      rcases fine with ⟨⟨armed, calls⟩, leaves⟩
      have sound := callsFine_sound calls
      have kept (cell : StateEntry ρ) (found : context.nodes entry = some cell)
          (call : StateCall ρ) (mem : call ∈ callback) : call.leaves cell.id = true := by
        rw [found] at leaves
        exact List.all_eq_true.mp leaves call mem
      refine ⟨⟨armed, sound.1, fun cell found mem => ?_⟩, sound.2, fun cell found mem => ?_⟩
      · exact of_decide_eq_true (kept cell found _ mem) rfl
      · exact of_decide_eq_true (kept cell found _ mem) rfl

theorem stepsFine_sound {steps : List (StateStep ρ)} (fine : stepsFine steps context = true) :
    AllSteps StateStep.Valid steps context ∧ AllSteps StateStep.Small steps context := by
  induction steps generalizing context with
  | nil => exact ⟨trivial, trivial⟩
  | cons step steps ih =>
      rw [stepsFine, Bool.and_eq_true] at fine
      have own := StateStep.fine_sound fine.1
      have rest (context' : StateTable ρ) (run : step.run context = some context') :
          stepsFine steps context' = true := by
        have all := fine.2
        rwa [run] at all
      exact ⟨⟨own.1, fun context' run => (ih (rest context' run)).1⟩,
        ⟨own.2, fun context' run => (ih (rest context' run)).2⟩⟩

/-- Three entries, one of them with a chosen id that is refused to a fourth; a deletion; a timer
whose callback adds an entry and deletes another; and one more entry. -/
def busySteps : List (StateStep ℕ) :=
  [.call (.add 1 5), .call (.add 2 0), .call (.add 3 0), .call (.add 4 5), .call (.del 1),
    .call (.get 2), .expire 1 [.get 5, .add 6 0, .del 2], .call (.add 7 0), .call (.mod 3)]

/-- Two entries are left; the second and the third were deleted, and the first one expired. -/
theorem state_table_keeps_small : ∃ context xs,
    stateRuns busySteps StateTable.create = some context ∧
      Keeps context xs (stateDenotes busySteps NwState.empty) ∧
      context.released = [(1, .del), (2, .del), (0, .timeout)] ∧
      nwStateCount (stateDenotes busySteps NwState.empty) = 2 ∧
      nwStateGet (stateDenotes busySteps NwState.empty) 3 = some 6 ∧
      nwStateGet (stateDenotes busySteps NwState.empty) 4 = some 7 := by
  have fine := stepsFine_sound (show stepsFine busySteps StateTable.create = true by decide +kernel)
  rcases state_table_keeps busySteps fine.1 fine.2 with ⟨context, xs, runs, keeps⟩
  have released : (stateRuns busySteps StateTable.create).map StateTable.released =
      some [(1, .del), (2, .del), (0, .timeout)] := by
    decide +kernel
  rw [runs] at released
  exact ⟨context, xs, runs, keeps, Option.some.inj released, by decide +kernel, by decide +kernel,
    by decide +kernel⟩

/-! ## Where it fails -/

/-- Additions at the addresses from `n` on. -/
def additions (n m : ℕ) : List (StateStep ℕ) :=
  (List.range' n m).map fun i => .call (.add i 0)

/-- As long as a table has room it takes the additions, and then the next is undefined. -/
theorem additions_run {context : StateTable ℕ} {xs : List (StateItem ℕ)} {n : ℕ} (m : ℕ)
    (holds : HoldsStates context [] xs) (length : xs.length = n)
    (inside : ∀ x ∈ xs, x.1 < n) :
    AllSteps StateStep.Valid (additions n m) context ∧
      (stateRuns (additions n m) context = none ∨ ∃ context' xs',
        stateRuns (additions n m) context = some context' ∧ HoldsStates context' [] xs' ∧
          xs'.length = n + m) := by
  induction m generalizing context xs n with
  | zero => exact ⟨trivial, Or.inr ⟨context, xs, rfl, holds, length⟩⟩
  | succ m ih =>
      have split : additions n (m + 1) = .call (.add n 0) :: additions (n + 1) m := by
        unfold additions
        rw [List.range'_succ, List.map_cons]
      have fresh : context.nodes n = none := by
        by_contra used
        rcases List.mem_map.mp (holds.buckets.live n used) with ⟨x, mem, same⟩
        exact absurd (inside x mem) (by rw [same]; exact Nat.lt_irrefl n)
      have few := holds.few
      have room : context.used < 2 ^ 32 - 1 := by
        rw [holds.used]
        omega
      rw [split]
      by_cases small : context.tableSize < 2 ^ 30
      · rcases holds.add_eq holds.stands fresh small 0 with
          ⟨context₁, xs₁, run, holds₁, _, enters, _⟩
        rcases enters rfl with ⟨y, here, perm⟩
        have step : (StateStep.call (.add n 0)).run context = some context₁ := by
          unfold StateStep.run StateCall.run
          simp only
          rw [run]
          rfl
        have inside₁ : ∀ x ∈ xs₁, x.1 < n + 1 := by
          intro x mem
          rcases List.mem_cons.mp (perm.mem_iff.mp mem) with rfl | among
          · rw [here]
            exact Nat.lt_succ_self n
          · exact Nat.lt_succ_of_lt (inside x among)
        have length₁ : xs₁.length = n + 1 := by
          rw [perm.length_eq, List.length_cons, length]
        rcases ih holds₁ length₁ inside₁ with ⟨valid, result⟩
        constructor
        · refine ⟨⟨fresh, room⟩, ?_⟩
          intro context' run'
          rw [step] at run'
          cases run'
          exact valid
        · unfold stateRuns
          rw [step, Option.bind_some, Nat.add_right_comm n 1 m] at *
          exact result
      · have step : (StateStep.call (.add n 0)).run context = none := by
          unfold StateStep.run StateCall.run
          simp only
          rw [holds.add_overflow small]
          rfl
        constructor
        · refine ⟨⟨fresh, room⟩, ?_⟩
          intro context' run'
          rw [step] at run'
          cases run'
        · left
          unfold stateRuns
          rw [step]
          rfl

/-- With 2^30 + 2 additions and no deletion an addition writes outside the table; and where a
callback starts the timer of its own entry, the timer is armed after the entry was released. -/
theorem state_table_fails :
    (AllSteps StateStep.Valid (additions 0 (2 ^ 30 + 2)) StateTable.create ∧
      stateRuns (additions 0 (2 ^ 30 + 2)) StateTable.create = none) ∧
    AllSteps StateStep.Valid [.call (.add 1 5), .expire 1 [.mod 5]] (StateTable.create (ρ := ℕ)) ∧
    ∃ context, stateRuns [.call (.add 1 5), .expire 1 [.mod 5]] StateTable.create = some context ∧
      context.nodes 1 = none ∧ context.armed 1 = true ∧
      (StateStep.expire 1 []).run context = none := by
  refine ⟨?_, ?_, _, rfl, rfl, rfl, rfl⟩
  · rcases additions_run (2 ^ 30 + 2) HoldsStates.create_holds rfl
      (fun _ mem => absurd mem List.not_mem_nil) with ⟨valid, none_ | ⟨_, xs, _, holds, length⟩⟩
    · exact ⟨valid, none_⟩
    · have few := holds.few
      omega
  · refine ⟨⟨rfl, by decide⟩, ?_⟩
    rintro context' ⟨rfl⟩
    exact ⟨⟨rfl, ⟨trivial, fun _ _ => trivial⟩, by rintro cell ⟨rfl⟩; simp⟩, fun _ _ => trivial⟩

end ViabtcServer.Network
