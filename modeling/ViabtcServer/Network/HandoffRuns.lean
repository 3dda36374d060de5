import ViabtcServer.Network.Handoff
import Mathlib.Algebra.BigOperators.Group.List.Basic

/-!
# No item is left behind

While the event loop is not in `on_can_read`, items in the list come with a byte
in the pipe, or with a thread that is about to write one. Every item is handed
over once, in the order its thread added them.
-/

namespace ViabtcServer.Network

namespace Handoff

variable {ι : Type} {kind : Handover} {capacity : ℕ} {s s' : Handoff ι}

/-- What holds between any two turns. -/
structure Sound (kind : Handover) (s : Handoff ι) : Prop where
  threads : ∀ i, s.lock = some (.producer i) ↔ ∃ p, s.producers[i]? = some p ∧ p.Holds
  loop : s.lock = some .consumer ↔ s.consumer.Holds
  called : s.consumer = .called → s.items ≠ []
  wakes : s.items ≠ [] → s.consumer = .waiting →
    0 < s.pipe ∨ ∃ i : ℕ, s.producers[i]? = some .appended
  order : ∀ i, ofProducer i s.consumed =
    ofProducer i (s.handed ++ s.underway kind) ++ s.held i

/-! ## One thread changes -/

section Threads

variable {producers : List (Producer ι)} {i : ℕ} {p p' : Producer ι}

theorem set_here (p' : Producer ι) (here : producers[i]? = some p) :
    (producers.set i p')[i]? = some p' := by
  rw [List.getElem?_set_self', here]
  rfl

/-- Who has locked the mutex when one thread has changed. -/
theorem threads_set {lock lock' : Option Party}
    (threads : ∀ j, lock = some (.producer j) ↔ ∃ q, producers[j]? = some q ∧ q.Holds)
    (here : producers[i]? = some p) (this : lock' = some (.producer i) ↔ p'.Holds)
    (others : ∀ j, j ≠ i → (lock' = some (.producer j) ↔ lock = some (.producer j))) :
    ∀ j, lock' = some (.producer j) ↔ ∃ q, (producers.set i p')[j]? = some q ∧ q.Holds := by
  intro j
  by_cases same : j = i
  · subst same
    rw [set_here p' here, this]
    constructor
    · exact fun holds => ⟨p', rfl, holds⟩
    · rintro ⟨q, ⟨rfl⟩, holds⟩
      exact holds
  · rw [others j same, threads j, List.getElem?_set_ne (Ne.symm same)]

/-- A thread that has added an item is still there when another one has changed. -/
theorem appended_set (here : producers[i]? = some p) (other : p ≠ .appended) :
    (∃ j : ℕ, producers[j]? = some .appended) →
      ∃ j : ℕ, (producers.set i p')[j]? = some .appended := by
  rintro ⟨j, there⟩
  refine ⟨j, ?_⟩
  rw [List.getElem?_set_ne]
  · exact there
  · rintro rfl
    rw [here] at there
    exact other (Option.some.inj there)

/-- What is to do when one thread has changed. -/
theorem work_set (p' : Producer ι) (here : producers[i]? = some p) :
    ((producers.set i p').map producerWork).sum + producerWork p =
      (producers.map producerWork).sum + producerWork p' := by
  induction producers generalizing i with
  | nil => cases here
  | cons q rest ih =>
      cases i with
      | zero =>
          cases here
          simp only [List.set_cons_zero, List.map_cons, List.sum_cons]
          omega
      | succ i =>
          have tail := ih here
          simp only [List.set_cons_succ, List.map_cons, List.sum_cons]
          omega

end Threads

theorem held_eq {i : ℕ} {p : Producer ι} (here : s.producers[i]? = some p) :
    s.held i = p.item.toList.map (Prod.mk i) := by
  unfold held
  rw [here, Option.bind_some]

/-- The items of the threads when one thread has changed. -/
theorem held_set {i : ℕ} {p p' : Producer ι} (here : s.producers[i]? = some p)
    (set : s'.producers = s.producers.set i p') (j : ℕ) :
    s'.held j = if j = i then p'.item.toList.map (Prod.mk i) else s.held j := by
  split
  · rename_i same
    subst same
    apply held_eq
    rw [set]
    exact set_here p' here
  · rename_i other
    unfold held
    rw [set, List.getElem?_set_ne (Ne.symm other)]

theorem held_same {i : ℕ} {p p' : Producer ι} (here : s.producers[i]? = some p)
    (set : s'.producers = s.producers.set i p') (item : p'.item = p.item) (j : ℕ) :
    s'.held j = s.held j := by
  rw [held_set here set]
  split
  · rename_i same
    subst same
    rw [held_eq here, item]
  · rfl

@[simp]
theorem ofProducer_append (i : ℕ) (items items' : List (ℕ × ι)) :
    ofProducer i (items ++ items') = ofProducer i items ++ ofProducer i items' :=
  List.filter_append _ _

@[simp]
theorem ofProducer_nil (i : ℕ) : ofProducer i ([] : List (ℕ × ι)) = [] :=
  rfl

@[simp]
theorem ofProducer_self (i : ℕ) (x : ι) : ofProducer i [(i, x)] = [(i, x)] := by
  simp [ofProducer]

theorem ofProducer_other {i j : ℕ} (x : ι) (other : j ≠ i) : ofProducer j [(i, x)] = [] := by
  simp [ofProducer, Ne.symm other]

/-! ## Steps -/

theorem create_sound (n : ℕ) : (create n : Handoff ι).Sound kind where
  threads := by
    intro i
    constructor
    · intro none_
      cases none_
    · rintro ⟨p, here, holds⟩
      rw [List.eq_of_mem_replicate (List.mem_of_getElem? here)] at holds
      exact holds.elim
  loop := ⟨nofun, nofun⟩
  called := nofun
  wakes := fun items => absurd rfl items
  order := by
    intro i
    have idle : (create n : Handoff ι).held i = [] := by
      unfold held
      cases here : (create n : Handoff ι).producers[i]? with
      | none => rfl
      | some p =>
          rw [List.eq_of_mem_replicate (List.mem_of_getElem? here)]
          rfl
    rw [idle]
    cases kind <;> rfl

theorem arrive_sound (sound : s.Sound kind) {i : ℕ} {x : ι} (run : s.arrive i x = some s') :
    s'.Sound kind := by
  unfold arrive at run
  split at run
  · rename_i here
    have notHeld : s.lock ≠ some (.producer i) := by
      intro lock
      rcases (sound.threads i).mp lock with ⟨p, there, holds⟩
      rw [here] at there
      cases there
      exact holds
    have held := held_set here (congrArg producers (Option.some.inj run)).symm
    cases run
    refine ⟨?_, sound.loop, sound.called, ?_, ?_⟩
    · exact threads_set sound.threads here (iff_of_false notHeld id) fun _ _ => Iff.rfl
    · intro items waiting
      exact (sound.wakes items waiting).imp id (appended_set here nofun)
    · intro j
      rw [held]
      show ofProducer j (s.consumed ++ [(i, x)]) = ofProducer j (s.handed ++ s.underway kind) ++ _
      rw [ofProducer_append, sound.order j]
      split
      · rename_i same
        subst same
        rw [held_eq here, ofProducer_self]
        exact congrArg (· ++ [(j, x)]) (List.append_nil _)
      · rename_i other
        rw [ofProducer_other x other, List.append_nil]
  · cases run

/-- What a turn of a thread can do. -/
theorem produce_cases {i : ℕ} (run : s.produce kind capacity i = some s') :
    ∃ p p', s.producers[i]? = some p ∧ s'.producers = s.producers.set i p' ∧
      s'.consumer = s.consumer ∧ s'.consumed = s.consumed ∧ s'.handed = s.handed ∧
      ((∃ x, p = .ready x ∧ p' = .locked x ∧ s.lock = none ∧ s'.lock = some (.producer i) ∧
          s'.items = s.items ∧ s'.pipe = s.pipe) ∨
        (∃ x, p = .locked x ∧ p' = .appended ∧ s'.lock = s.lock ∧
          s'.items = kind.append (i, x) s.items ∧ s'.pipe = s.pipe) ∨
        (p = .appended ∧ p' = .written ∧ s'.lock = s.lock ∧ s'.items = s.items ∧
          s'.pipe = if s.pipe < capacity then s.pipe + 1 else s.pipe) ∨
        (p = .written ∧ p' = .idle ∧ s'.lock = none ∧ s'.items = s.items ∧
          s'.pipe = s.pipe)) := by
  unfold produce at run
  split at run
  · rename_i x here
    split at run
    · rename_i free
      cases run
      exact ⟨_, _, here, rfl, rfl, rfl, rfl, Or.inl ⟨x, rfl, rfl, free, rfl, rfl, rfl⟩⟩
    · cases run
  · rename_i x here
    cases run
    exact ⟨_, _, here, rfl, rfl, rfl, rfl, Or.inr (Or.inl ⟨x, rfl, rfl, rfl, rfl, rfl⟩)⟩
  · rename_i here
    cases run
    exact ⟨_, _, here, rfl, rfl, rfl, rfl, Or.inr (Or.inr (Or.inl ⟨rfl, rfl, rfl, rfl, rfl⟩))⟩
  · rename_i here
    cases run
    exact ⟨_, _, here, rfl, rfl, rfl, rfl, Or.inr (Or.inr (Or.inr ⟨rfl, rfl, rfl, rfl, rfl⟩))⟩
  · cases run
  · cases run

/-- The items under way when the event loop has not moved. -/
theorem underway_same (consumer : s'.consumer = s.consumer) (items : s'.items = s.items) :
    s'.underway kind = s.underway kind := by
  unfold underway
  rw [consumer, items]

theorem underway_append {x : ℕ × ι} (consumer : s'.consumer = s.consumer)
    (notCalled : s.consumer ≠ .called) (items : s'.items = kind.append x s.items) :
    s'.underway kind = s.underway kind ++ [x] := by
  unfold underway
  rw [consumer, items, Handover.arrived_append]
  split
  · rename_i called
    exact absurd called notCalled
  · rfl
  · rfl
  · rfl

/-- A thread that has the mutex keeps the event loop away. -/
theorem Sound.away (sound : s.Sound kind) {i : ℕ} {p : Producer ι}
    (here : s.producers[i]? = some p) (holds : p.Holds) :
    s.lock = some (.producer i) ∧ ¬ s.consumer.Holds := by
  have lock : s.lock = some (.producer i) := (sound.threads i).mpr ⟨p, here, holds⟩
  refine ⟨lock, ?_⟩
  rw [← sound.loop, lock]
  nofun

/-- A thread that neither gets nor adds an item leaves them where they are. -/
theorem Sound.order_same (sound : s.Sound kind) {i : ℕ} {p p' : Producer ι}
    (here : s.producers[i]? = some p) (set : s'.producers = s.producers.set i p')
    (item : p'.item = p.item) (consumer : s'.consumer = s.consumer) (items : s'.items = s.items)
    (consumed : s'.consumed = s.consumed) (handed : s'.handed = s.handed) (j : ℕ) :
    ofProducer j s'.consumed = ofProducer j (s'.handed ++ s'.underway kind) ++ s'.held j := by
  rw [consumed, handed, underway_same consumer items, held_same here set item]
  exact sound.order j

/-- An item that is added is the last one of its thread. -/
theorem Sound.order_append (sound : s.Sound kind) {i : ℕ} {x : ι}
    (here : s.producers[i]? = some (.locked x)) (set : s'.producers = s.producers.set i .appended)
    (consumer : s'.consumer = s.consumer) (notCalled : s.consumer ≠ .called)
    (items : s'.items = kind.append (i, x) s.items) (consumed : s'.consumed = s.consumed)
    (handed : s'.handed = s.handed) (j : ℕ) :
    ofProducer j s'.consumed = ofProducer j (s'.handed ++ s'.underway kind) ++ s'.held j := by
  rw [consumed, handed, underway_append consumer notCalled items, ← List.append_assoc,
    ofProducer_append, sound.order j, held_set here set]
  split
  · rename_i same
    subst same
    rw [held_eq here, ofProducer_self]
    exact (List.append_nil _).symm
  · rename_i other
    rw [ofProducer_other x other, List.append_nil]

theorem produce_sound (room : 0 < capacity) (sound : s.Sound kind) {i : ℕ}
    (run : s.produce kind capacity i = some s') : s'.Sound kind := by
  rcases produce_cases run with ⟨p, p', here, set, consumer, consumed, handed, done⟩
  rcases done with ⟨x, rfl, rfl, free, lock, items, pipe⟩ | ⟨x, rfl, rfl, lock, items, pipe⟩ |
    ⟨rfl, rfl, lock, items, pipe⟩ | ⟨rfl, rfl, lock, items, pipe⟩
  · -- the mutex was free
    have away : ¬ s.consumer.Holds := by
      rw [← sound.loop, free]
      nofun
    constructor
    · rw [set]
      have holds : (Producer.locked x).Holds := trivial
      apply threads_set sound.threads here (iff_of_true lock holds)
      intro j other
      rw [lock, free]
      exact iff_of_false (fun same => other (by cases same; rfl)) nofun
    · rw [lock, consumer]
      exact iff_of_false nofun away
    · rw [consumer, items]
      exact sound.called
    · rw [consumer, items, pipe, set]
      exact fun some_ waiting => (sound.wakes some_ waiting).imp id (appended_set here nofun)
    · exact sound.order_same here set rfl consumer items consumed handed
  · -- an item is added
    rcases sound.away here trivial with ⟨locked, away⟩
    have notCalled : s.consumer ≠ .called := by
      intro called
      rw [called] at away
      exact away trivial
    constructor
    · rw [set, lock]
      exact threads_set sound.threads here (iff_of_true locked trivial) fun _ _ => Iff.rfl
    · rw [lock, consumer]
      exact sound.loop
    · rw [consumer]
      exact fun called => absurd called notCalled
    · rw [set]
      exact fun _ _ => Or.inr ⟨i, set_here _ here⟩
    · exact sound.order_append here set consumer notCalled items consumed handed
  · -- a byte is written, or the pipe is full
    rcases sound.away here trivial with ⟨locked, _⟩
    constructor
    · rw [set, lock]
      exact threads_set sound.threads here (iff_of_true locked trivial) fun _ _ => Iff.rfl
    · rw [lock, consumer]
      exact sound.loop
    · rw [consumer, items]
      exact sound.called
    · intro _ _
      left
      rw [pipe]
      split <;> omega
    · exact sound.order_same here set rfl consumer items consumed handed
  · -- the mutex is unlocked
    rcases sound.away here trivial with ⟨locked, away⟩
    constructor
    · rw [set]
      apply threads_set sound.threads here (iff_of_false (by rw [lock]; nofun) id)
      intro j other
      rw [lock, locked]
      exact iff_of_false nofun fun same => other (by cases same; rfl)
    · rw [lock, consumer]
      exact iff_of_false nofun away
    · rw [consumer, items]
      exact sound.called
    · rw [consumer, items, pipe, set]
      exact fun some_ waiting => (sound.wakes some_ waiting).imp id (appended_set here nofun)
    · exact sound.order_same here set rfl consumer items consumed handed

/-! ## The event loop -/

/-- Where the event loop has the mutex no thread has it. -/
theorem Sound.inside (sound : s.Sound kind) (holds : s.consumer.Holds) (i : ℕ) :
    s.lock ≠ some (.producer i) := by
  rw [sound.loop.mpr holds]
  nofun

/-- As long as no thread has the mutex, it is the event loop's to lock and unlock. -/
theorem Sound.threads_free (sound : s.Sound kind) {lock : Option Party}
    (free : ∀ i, s.lock ≠ some (.producer i)) (free' : ∀ i, lock ≠ some (.producer i)) (i : ℕ) :
    lock = some (.producer i) ↔ ∃ p, s.producers[i]? = some p ∧ p.Holds := by
  rw [← sound.threads i]
  exact iff_of_false (free' i) (free i)

/-- What a turn of the event loop can do. -/
inductive Moves (kind : Handover) (s : Handoff ι) : Handoff ι → Prop
  | enter (waiting : s.consumer = .waiting) (bytes : 0 < s.pipe) :
      Moves kind s { s with consumer := .draining }
  | read (draining : s.consumer = .draining) (bytes : 0 < s.pipe) :
      Moves kind s { s with pipe := s.pipe - 1 }
  | dry (draining : s.consumer = .draining) (none_ : s.pipe = 0) :
      Moves kind s { s with consumer := .looking }
  | lock (looking : s.consumer = .looking) (free : s.lock = none) :
      Moves kind s { s with lock := some .consumer, consumer := .locked }
  | leave (locked : s.consumer = .locked) (none_ : s.items = []) :
      Moves kind s { s with lock := none, consumer := .waiting }
  | take {x : ℕ × ι} {rest : List (ℕ × ι)} (job : kind = .job) (locked : s.consumer = .locked)
      (first : kind.arrived s.items = x :: rest) :
      Moves kind s { s with items := kind.remove s.items, consumer := .removed (some x) }
  | call {x : ℕ × ι} {rest : List (ℕ × ι)} (kafka : kind = .kafka)
      (locked : s.consumer = .locked) (first : kind.arrived s.items = x :: rest) :
      Moves kind s { s with handed := s.handed ++ [x], consumer := .called }
  | remove (called : s.consumer = .called) :
      Moves kind s { s with items := kind.remove s.items, consumer := .removed none }
  | again (removed : s.consumer = .removed none) :
      Moves kind s { s with lock := none, consumer := .looking }
  | unlock {x : ℕ × ι} (removed : s.consumer = .removed (some x)) :
      Moves kind s { s with lock := none, consumer := .finishing x }
  | finish {x : ℕ × ι} (finishing : s.consumer = .finishing x) :
      Moves kind s { s with handed := s.handed ++ [x], consumer := .looking }

theorem consume_moves (run : s.consume kind = some s') : Moves kind s s' := by
  unfold consume at run
  split at run
  · rename_i waiting
    split at run
    · rename_i bytes
      cases run
      exact .enter waiting bytes
    · cases run
  · rename_i draining
    split at run
    · rename_i bytes
      cases run
      exact .read draining bytes
    · rename_i none_
      cases run
      exact .dry draining (Nat.eq_zero_of_not_pos none_)
  · rename_i looking
    split at run
    · rename_i free
      cases run
      exact .lock looking free
    · cases run
  · rename_i locked
    split at run
    · rename_i none_
      cases run
      rw [Handover.next_eq, List.head?_eq_none_iff] at none_
      exact .leave locked ((kind.arrived_eq_nil s.items).mp none_)
    · rename_i x first
      rw [Handover.next_eq] at first
      rcases List.head?_eq_some_iff.mp first with ⟨rest, all⟩
      split at run
      · cases run
        exact .take rfl locked all
      · cases run
        exact .call rfl locked all
  · rename_i called
    cases run
    exact .remove called
  · rename_i removed
    cases run
    exact .again removed
  · rename_i x removed
    cases run
    exact .unlock removed
  · rename_i x finishing
    cases run
    exact .finish finishing

namespace Moves

/-- No item is lost or passes another one on its way. -/
theorem order (moves : Moves kind s s') :
    s'.handed ++ s'.underway kind = s.handed ++ s.underway kind := by
  cases moves with
  | read => rfl
  | enter place | dry place | lock place | leave place | again place | unlock place =>
      simp only [underway, place]
  | take _ locked first =>
      simp only [underway, locked, Handover.arrived_remove, first, List.tail_cons]
  | call _ locked first => simp [underway, locked, first]
  | remove called => simp only [underway, called, Handover.arrived_remove]
  | finish finishing => simp [underway, finishing]

/-- No thread gets or loses the mutex. -/
theorem threads (sound : s.Sound kind) (moves : Moves kind s s') :
    ∀ i, s'.lock = some (.producer i) ↔ ∃ p, s'.producers[i]? = some p ∧ p.Holds := by
  cases moves with
  | lock _ free => exact sound.threads_free (by rw [free]; nofun) nofun
  | leave place | again place | unlock place =>
      have holds : s.consumer.Holds := by
        rw [place]
        trivial
      exact sound.threads_free (sound.inside holds) nofun
  | enter | read | dry | take | call | remove | finish => exact sound.threads

/-- The event loop has the mutex exactly between `lock` and `unlock`. -/
theorem loop (sound : s.Sound kind) (moves : Moves kind s s') :
    s'.lock = some .consumer ↔ s'.consumer.Holds := by
  have before := sound.loop
  cases moves with
  | read => exact before
  | lock => exact iff_of_true rfl trivial
  | leave | again | unlock => exact iff_of_false nofun id
  | enter place | dry place | take _ place | call _ place | remove place | finish place =>
      rw [place] at before
      exact before

theorem called (sound : s.Sound kind) (moves : Moves kind s s') (inside : s'.consumer = .called) :
    s'.items ≠ [] := by
  cases moves with
  | read => exact sound.called inside
  | call _ _ first =>
      intro none_
      rw [(kind.arrived_eq_nil s.items).mpr none_] at first
      cases first
  | _ => cases inside

/-- It waits only once it has found the list empty. -/
theorem empty (moves : Moves kind s s') (waiting : s'.consumer = .waiting) : s'.items = [] := by
  cases moves with
  | read draining => exact absurd (draining.symm.trans waiting) nofun
  | leave _ none_ => exact none_
  | _ => cases waiting

theorem same (moves : Moves kind s s') :
    s'.producers = s.producers ∧ s'.consumed = s.consumed := by
  cases moves <;> exact ⟨rfl, rfl⟩

end Moves

/-- What the event loop has taken and what is still in the list. -/
theorem consume_sound (sound : s.Sound kind) (run : s.consume kind = some s') :
    s'.Sound kind := by
  have moves := consume_moves run
  rcases moves.same with ⟨producers, consumed⟩
  refine ⟨moves.threads sound, moves.loop sound, moves.called sound, ?_, ?_⟩
  · exact fun some_ waiting => absurd (moves.empty waiting) some_
  · intro i
    unfold held
    rw [producers, consumed, moves.order]
    exact sound.order i

/-! ## Turns come to an end -/

theorem produce_work {i : ℕ} (run : s.produce kind capacity i = some s') : s'.work < s.work := by
  rcases produce_cases run with ⟨p, p', here, set, consumer, _, _, done⟩
  have changed := work_set p' here
  unfold work
  rw [set, consumer]
  rcases done with ⟨x, rfl, rfl, _, _, items, pipe⟩ | ⟨x, rfl, rfl, _, items, pipe⟩ |
    ⟨rfl, rfl, _, items, pipe⟩ | ⟨rfl, rfl, _, items, pipe⟩
  · rw [items, pipe]
    simp only [producerWork] at changed ⊢
    omega
  · rw [items, pipe, Handover.length_append]
    simp only [producerWork] at changed ⊢
    omega
  · -- one more byte may keep the event loop for another round
    have byte : consumerWork s'.pipe s.consumer ≤ consumerWork s.pipe s.consumer + 10 := by
      rw [pipe]
      unfold consumerWork
      split <;> repeat' split
      all_goals omega
    rw [items]
    simp only [producerWork] at changed ⊢
    omega
  · rw [items, pipe]
    simp only [producerWork] at changed ⊢
    omega

theorem consume_work (sound : s.Sound kind) (run : s.consume kind = some s') :
    s'.work < s.work := by
  unfold work
  cases consume_moves run with
  | enter waiting bytes =>
      simp only [waiting, consumerWork, if_neg (Nat.ne_of_gt bytes)]
      omega
  | read draining bytes =>
      simp only [draining, consumerWork, if_neg (Nat.ne_of_gt bytes)]
      split <;> omega
  | dry draining none_ =>
      simp only [draining, consumerWork, none_, if_pos]
      omega
  | take _ locked first =>
      have some_ : 0 < s.items.length := by
        apply List.length_pos_iff.mpr
        intro none_
        rw [(kind.arrived_eq_nil s.items).mpr none_] at first
        cases first
      simp only [locked, consumerWork, Handover.length_remove]
      omega
  | remove called =>
      have some_ := List.length_pos_iff.mpr (sound.called called)
      simp only [called, consumerWork, Handover.length_remove]
      omega
  | lock place | leave place | call _ place | again place | unlock place | finish place =>
      simp only [place, consumerWork]
      omega

/-- A thread that has an item or the mutex can make a turn, or the mutex is taken. -/
theorem produce_some {i : ℕ} {p : Producer ι} (here : s.producers[i]? = some p)
    (stuck : s.produce kind capacity i = none) : p = .idle ∨ ∃ x, p = .ready x ∧ s.lock ≠ none := by
  unfold produce at stuck
  rw [here] at stuck
  cases p with
  | idle => exact Or.inl rfl
  | ready x =>
      right
      refine ⟨x, rfl, ?_⟩
      intro free
      simp only [free, if_pos] at stuck
      cases stuck
  | locked x => cases stuck
  | appended => cases stuck
  | written => cases stuck

/-- The event loop waits for a byte or for the mutex. -/
theorem consume_some (stuck : s.consume kind = none) :
    s.consumer = .waiting ∧ s.pipe = 0 ∨ s.consumer = .looking ∧ s.lock ≠ none := by
  unfold consume at stuck
  split at stuck
  · rename_i waiting
    split at stuck
    · cases stuck
    · rename_i dry
      exact Or.inl ⟨waiting, Nat.eq_zero_of_not_pos dry⟩
  · split at stuck <;> cases stuck
  · rename_i looking
    split at stuck
    · cases stuck
    · rename_i taken
      exact Or.inr ⟨looking, taken⟩
  · split at stuck
    · cases stuck
    · split at stuck <;> cases stuck
  all_goals cases stuck

/-- Where nobody can make a turn everything has been handed over. -/
theorem Sound.quiet (sound : s.Sound kind) (quiet : s.Quiet kind capacity) :
    s.items = [] ∧ ∀ i, ofProducer i s.handed = ofProducer i s.consumed := by
  have free : s.lock = none := by
    cases lock : s.lock with
    | none => rfl
    | some party =>
        exfalso
        cases party with
        | producer i =>
            rcases (sound.threads i).mp lock with ⟨p, here, holds⟩
            rcases produce_some here (quiet (.producer i)) with rfl | ⟨x, rfl, _⟩
            · exact holds
            · exact holds
        | consumer =>
            have holds := sound.loop.mp lock
            rcases consume_some (quiet .consumer) with ⟨waiting, _⟩ | ⟨looking, _⟩
            · rw [waiting] at holds
              exact holds
            · rw [looking] at holds
              exact holds
  have idle : ∀ (i : ℕ) (p : Producer ι), s.producers[i]? = some p → p = .idle := by
    intro i p here
    rcases produce_some here (quiet (.producer i)) with rfl | ⟨x, _, taken⟩
    · rfl
    · exact absurd free taken
  rcases consume_some (quiet .consumer) with ⟨waiting, dry⟩ | ⟨_, taken⟩
  · have none_ : s.items = [] := by
      by_contra some_
      rcases sound.wakes some_ waiting with bytes | ⟨i, here⟩
      · exact absurd dry (Nat.ne_of_gt bytes)
      · cases idle i _ here
    refine ⟨none_, ?_⟩
    intro i
    have nothing : s.held i = [] := by
      unfold held
      cases here : s.producers[i]? with
      | none => rfl
      | some p =>
          rw [idle i p here]
          rfl
    have away : s.underway kind = [] := by
      unfold underway
      rw [waiting]
      exact (kind.arrived_eq_nil s.items).mpr none_
    rw [sound.order i, nothing, away, List.append_nil, List.append_nil]
  · exact absurd free taken

/-! ## Runs -/

theorem turn_sound (room : 0 < capacity) (sound : s.Sound kind) {party : Party}
    (run : s.turn kind capacity party = some s') : s'.Sound kind ∧ s'.work < s.work := by
  cases party with
  | producer i => exact ⟨produce_sound room sound run, produce_work run⟩
  | consumer => exact ⟨consume_sound sound run, consume_work sound run⟩

theorem run_sound (room : 0 < capacity) {steps : List (HandoffStep ι)} (sound : s.Sound kind)
    (run : handoffRun kind capacity steps s = some s') : s'.Sound kind := by
  induction steps generalizing s with
  | nil =>
      cases run
      exact sound
  | cons step steps ih =>
      rcases Option.bind_eq_some_iff.mp run with ⟨s₁, first, rest⟩
      cases step with
      | arrive i x => exact ih (arrive_sound sound first) rest
      | turn party => exact ih (turn_sound room sound first).1 rest

/-- As long as the event loop is not in `on_can_read` and no thread has the mutex, there is a byte
in the pipe if there are items in the list. The items of a thread are handed over, are under way
or are with the thread, in that order and each once. Turns come to an end, and then everything
has been handed over. -/
theorem handoff_complete (kind : Handover) (room : 0 < capacity) (n : ℕ)
    (steps : List (HandoffStep ι)) (run : handoffRun kind capacity steps (create n) = some s) :
    (s.items ≠ [] → (∀ i, s.lock ≠ some (.producer i)) → s.consumer = .waiting → 0 < s.pipe) ∧
    (∀ i, ofProducer i s.consumed =
      ofProducer i (s.handed ++ s.underway kind) ++ s.held i) ∧
    (∀ party s', s.turn kind capacity party = some s' → s'.work < s.work) ∧
    (s.Quiet kind capacity →
      s.items = [] ∧ ∀ i, ofProducer i s.handed = ofProducer i s.consumed) := by
  have sound := run_sound room (create_sound n) run
  refine ⟨?_, sound.order, fun party s' turn => (turn_sound room sound turn).2, sound.quiet⟩
  intro some_ free waiting
  rcases sound.wakes some_ waiting with bytes | ⟨i, here⟩
  · exact bytes
  · exact absurd ((sound.threads i).mpr ⟨_, here, trivial⟩) (free i)

/-- One thread adds one item. -/
def addition : List (HandoffStep ℕ) :=
  [.arrive 0 7, .turn (.producer 0), .turn (.producer 0), .turn (.producer 0),
    .turn (.producer 0)]

/-- Two threads add an item each, and the second byte does not go into the full pipe. -/
def filling : List (HandoffStep ℕ) :=
  addition ++ .arrive 1 8 :: List.replicate 4 (.turn (.producer 1))

/-- The event loop takes the first item, the first thread adds another one, and the event loop
takes the rest, and looks once more for the byte that came meanwhile. -/
def exchange : List (HandoffStep ℕ) :=
  filling ++ List.replicate 6 (.turn .consumer) ++ .arrive 0 9 ::
    .turn .consumer :: List.replicate 4 (.turn (.producer 0)) ++ List.replicate 15 (.turn .consumer)

/-- With both items in the list there is a byte in the pipe, and each is underway; in the end
nobody can make a turn, and all three are handed over in the order they came. -/
theorem handoff_complete_small :
    (∃ s, handoffRun .kafka 1 filling (create 2) = some s ∧ s.items = [(1, 8), (0, 7)] ∧
      s.pipe = 1 ∧
      (s.items ≠ [] → (∀ i, s.lock ≠ some (.producer i)) → s.consumer = .waiting → 0 < s.pipe) ∧
      (∀ i, ofProducer i s.consumed =
        ofProducer i (s.handed ++ s.underway .kafka) ++ s.held i) ∧
      ∀ party s', s.turn .kafka 1 party = some s' → s'.work < s.work) ∧
    ∃ s, handoffRun .kafka 1 exchange (create 2) = some s ∧ s.Quiet .kafka 1 ∧ s.items = [] ∧
      s.handed = [(0, 7), (1, 8), (0, 9)] ∧
      ∀ i, ofProducer i s.handed = ofProducer i s.consumed := by
  have room : 0 < 1 := Nat.zero_lt_succ 0
  constructor
  · rcases handoff_complete .kafka room 2 filling rfl with ⟨wakes, order, works, _⟩
    exact ⟨_, rfl, rfl, rfl, wakes, order, works⟩
  · have quiet : (Handoff.Quiet .kafka
        ((handoffRun .kafka 1 exchange (create 2)).get rfl) 1) := by
      rintro (i | _)
      · rcases i with _ | _ | i <;> rfl
      · rfl
    rcases (handoff_complete .kafka room 2 exchange rfl).2.2.2 quiet with ⟨items, all⟩
    exact ⟨_, rfl, quiet, items, rfl, all⟩

/-- Between the last byte it reads and the mutex, the event loop is out of its drain, and the
items in the list come with an empty pipe. -/
theorem handoff_drained :
    ∃ s, handoffRun .job 1 (addition ++ List.replicate 3 (.turn .consumer)) (create 1) = some s ∧
      ¬ (s.items ≠ [] → (∀ i, s.lock ≠ some (.producer i)) → s.consumer ≠ .draining →
        0 < s.pipe) := by
  refine ⟨_, rfl, ?_⟩
  intro wakes
  exact absurd (wakes nofun nofun nofun) (Nat.lt_irrefl 0)

end Handoff

end ViabtcServer.Network
