import ViabtcServer.Container.Fifo
import Mathlib.Data.Nat.Basic
import Mathlib.Tactic.IntervalCases

/-!
# The messages to Kafka

`me_message.c`: a message goes to the producer at once while nothing waits for
its topic, and else behind what waits. A timer hands over what waits. What
`rd_kafka_produce` answers is up to the environment: `answers n` is its answer to
the call number `n`.
-/

namespace ViabtcServer.MatchEngine

open Container

/-- `rkt_balances`, `rkt_orders` and `rkt_deals`. -/
inductive Topic
  | balances
  | orders
  | deals
  deriving DecidableEq

/-- What `rd_kafka_produce` answers, with `rd_kafka_last_error` where that is -1. -/
inductive Produced
  | accepted
  /-- `RD_KAFKA_RESP_ERR__QUEUE_FULL`. -/
  | queueFull
  /-- Any other error. -/
  | failed
  deriving DecidableEq

/-- `list_balances`, `list_orders` and `list_deals`. The other fields belong to
the producer: how often it was called and what it accepted for each topic. -/
structure Messages where
  list : Topic → List String
  calls : ℕ
  produced : Topic → List String

/-- What happens to the messages. -/
inductive MessageEvent
  | push (topic : Topic) (message : String)
  | timer

section Message

variable (answers : ℕ → Produced)

/-- `rd_kafka_produce`, which copies what it accepts. -/
def rdKafkaProduce (m : Messages) (topic : Topic) (message : String) : Produced × Messages :=
  (answers m.calls,
    { m with
      calls := m.calls + 1
      produced :=
        if answers m.calls = .accepted then
          Function.update m.produced topic (m.produced topic ++ [message])
        else m.produced })

/-- `list_add_node_tail`. -/
def listAddNodeTail (m : Messages) (topic : Topic) (message : String) : Messages :=
  { m with list := Function.update m.list topic (m.list topic ++ [message]) }

/-- `list_del` of the first node. -/
def listDel (m : Messages) (topic : Topic) : Messages :=
  { m with list := Function.update m.list topic (m.list topic).tail }

/-- The loop of `produce_list` over the nodes the iterator has not seen. Those
before them are deleted, so that each is the first when its turn comes. -/
def produceNodes (topic : Topic) : List String → Messages → Messages
  | [], m => m
  | node :: nodes, m =>
      let (answer, m) := rdKafkaProduce answers m topic node
      if answer = .queueFull then m
      else produceNodes topic nodes (listDel m topic)

/-- `produce_list`. -/
def produceList (m : Messages) (topic : Topic) : Messages :=
  produceNodes answers topic (m.list topic) m

/-- `on_timer` for one list. -/
def produceWaiting (m : Messages) (topic : Topic) : Messages :=
  if m.list topic ≠ [] then produceList answers m topic else m

/-- `on_timer`. -/
def onTimer (m : Messages) : Messages :=
  let m := produceWaiting answers m .balances
  let m := produceWaiting answers m .orders
  produceWaiting answers m .deals

/-- `push_message`. -/
def pushMessage (m : Messages) (topic : Topic) (message : String) : Messages :=
  if m.list topic ≠ [] then listAddNodeTail m topic message
  else
    let (answer, m) := rdKafkaProduce answers m topic message
    if answer = .queueFull then listAddNodeTail m topic message
    else m

/-- `init_message`. -/
def initMessage : Messages where
  list _ := []
  calls := 0
  produced _ := []

/-- One event. -/
def Messages.on (m : Messages) : MessageEvent → Messages
  | .push topic message => pushMessage answers m topic message
  | .timer => onTimer answers m

/-- Run events one after the other. -/
def Messages.run (m : Messages) (events : List MessageEvent) : Messages :=
  events.foldl (Messages.on answers) m

/-- The messages pushed to a topic. -/
def pushed (topic : Topic) (events : List MessageEvent) : List String :=
  events.filterMap fun
    | .push topic' message => if topic' = topic then some message else none
    | .timer => none

/-! ## Each topic is a queue -/

/-- The producer refuses only when its own queue is full. -/
def OnlyFull : Prop :=
  ∀ n, answers n ≠ .failed

/-- A topic from end to end. -/
def Messages.queue (m : Messages) (topic : Topic) : Fifo String where
  out := m.produced topic
  waiting := m.list topic

variable {answers} {m m' : Messages} {topic other : Topic} {message : String}

theorem rdKafkaProduce_other (ne : other ≠ topic) :
    (rdKafkaProduce answers m topic message).2.queue other = m.queue other := by
  unfold rdKafkaProduce Messages.queue
  split
  · simp only [Function.update_of_ne ne]
  · rfl

theorem rdKafkaProduce_refused (refused : answers m.calls ≠ .accepted) :
    (rdKafkaProduce answers m topic message).2.queue topic = m.queue topic := by
  unfold rdKafkaProduce Messages.queue
  rw [if_neg refused]

theorem rdKafkaProduce_accepted (accepted : answers m.calls = .accepted) :
    (rdKafkaProduce answers m topic message).2.queue topic =
      ⟨m.produced topic ++ [message], m.list topic⟩ := by
  unfold rdKafkaProduce Messages.queue
  simp only [if_pos accepted, Function.update_self]

theorem listAddNodeTail_other (ne : other ≠ topic) :
    (listAddNodeTail m topic message).queue other = m.queue other := by
  unfold listAddNodeTail Messages.queue
  simp only [Function.update_of_ne ne]

theorem listAddNodeTail_self :
    (listAddNodeTail m topic message).queue topic = (m.queue topic).put message := by
  unfold listAddNodeTail Messages.queue Fifo.put
  simp only [Function.update_self]

theorem listDel_other (ne : other ≠ topic) :
    (listDel m topic).queue other = m.queue other := by
  unfold listDel Messages.queue
  simp only [Function.update_of_ne ne]

/-- A node that is produced and deleted is the next one of its topic. -/
theorem produce_listDel {node : String} {nodes : List String}
    (list : m.list topic = node :: nodes) (accepted : answers m.calls = .accepted) :
    (listDel (rdKafkaProduce answers m topic node).2 topic).queue topic =
      (m.queue topic).take 1 := by
  unfold listDel rdKafkaProduce Messages.queue Fifo.take
  simp only [if_pos accepted, Function.update_self, list]
  rfl

/-- What the timer does for a topic: it hands over what waits, all of it unless
the producer refuses. -/
structure Handed (answers : ℕ → Produced) (topic : Topic) (m m' : Messages) : Prop where
  taken : ∃ n, m'.queue topic = (m.queue topic).take n
  others : ∀ other, other ≠ topic → m'.queue other = m.queue other
  calls : m.calls ≤ m'.calls
  complete : (∀ k, m.calls ≤ k → k < m'.calls → answers k = .accepted) → m'.list topic = []

theorem produceNodes_handed (full : OnlyFull answers) {nodes : List String}
    (list : m.list topic = nodes) :
    Handed answers topic m (produceNodes answers topic nodes m) := by
  induction nodes generalizing m with
  | nil =>
      exact ⟨⟨0, (Fifo.take_zero _).symm⟩, fun _ _ => rfl, le_rfl, fun _ => list⟩
  | cons node nodes ih =>
      unfold produceNodes
      cases answer : answers m.calls with
      | failed => exact absurd answer (full _)
      | queueFull =>
          have refused : answers m.calls ≠ .accepted := by
            rw [answer]
            nofun
          have stop : (rdKafkaProduce answers m topic node).1 = .queueFull := answer
          simp only [if_pos stop]
          constructor
          · exact ⟨0, (rdKafkaProduce_refused refused).trans (Fifo.take_zero _).symm⟩
          · exact fun _ ne => rdKafkaProduce_other ne
          · exact Nat.le_succ _
          · intro all
            exact absurd (all m.calls le_rfl (Nat.lt_succ_self _)) refused
      | accepted =>
          have goes : (rdKafkaProduce answers m topic node).1 ≠ .queueFull := by
            change answers m.calls ≠ _
            rw [answer]
            nofun
          simp only [if_neg goes]
          have next := produce_listDel list answer
          have rest :
              (listDel (rdKafkaProduce answers m topic node).2 topic).list topic = nodes := by
            have waiting := congrArg Fifo.waiting next
            unfold Messages.queue Fifo.take at waiting
            rw [list] at waiting
            exact waiting
          rcases ih rest with ⟨⟨n, taken⟩, others, calls, complete⟩
          constructor
          · refine ⟨n + 1, ?_⟩
            rw [taken, next, Fifo.take_take, Nat.add_comm]
          · intro other ne
            rw [others other ne, listDel_other ne, rdKafkaProduce_other ne]
          · exact le_trans (Nat.le_succ _) calls
          · intro all
            apply complete
            intro k first last
            exact all k (le_trans (Nat.le_succ _) first) last

theorem produceWaiting_handed (full : OnlyFull answers) (m : Messages) (topic : Topic) :
    Handed answers topic m (produceWaiting answers m topic) := by
  unfold produceWaiting
  by_cases empty : m.list topic = []
  · rw [if_neg (not_not_intro empty)]
    exact ⟨⟨0, (Fifo.take_zero _).symm⟩, fun _ _ => rfl, le_rfl, fun _ => empty⟩
  · rw [if_pos empty]
    exact produceNodes_handed full rfl

/-- Queues may let messages out. -/
def Drawn (m m' : Messages) : Prop :=
  ∀ topic, ∃ n, m'.queue topic = (m.queue topic).take n

theorem Handed.drawn (handed : Handed answers topic m m') : Drawn m m' := by
  intro other
  by_cases same : other = topic
  · exact same ▸ handed.taken
  · exact ⟨0, (handed.others other same).trans (Fifo.take_zero _).symm⟩

theorem Drawn.trans {m'' : Messages} (first : Drawn m m') (second : Drawn m' m'') :
    Drawn m m'' := by
  intro topic
  rcases first topic with ⟨n, eq⟩
  rcases second topic with ⟨k, eq'⟩
  exact ⟨n + k, by rw [eq', eq, Fifo.take_take]⟩

theorem Handed.list_other (handed : Handed answers topic m m') (ne : other ≠ topic) :
    m'.list other = m.list other :=
  congrArg Fifo.waiting (handed.others other ne)

theorem onTimer_drawn (full : OnlyFull answers) (m : Messages) : Drawn m (onTimer answers m) :=
  ((produceWaiting_handed full m .balances).drawn.trans
    (produceWaiting_handed full _ .orders).drawn).trans (produceWaiting_handed full _ .deals).drawn

/-- A timer that is refused nothing hands over everything. -/
theorem onTimer_empties (full : OnlyFull answers) (m : Messages)
    (accepted : ∀ k, m.calls ≤ k → k < (onTimer answers m).calls → answers k = .accepted)
    (topic : Topic) : (onTimer answers m).list topic = [] := by
  have balances := produceWaiting_handed full m .balances
  have orders := produceWaiting_handed full (produceWaiting answers m .balances) .orders
  have deals : Handed answers .deals _ (onTimer answers m) :=
    produceWaiting_handed full
      (produceWaiting answers (produceWaiting answers m .balances) .orders) .deals
  cases topic with
  | balances =>
      rw [deals.list_other (by decide), orders.list_other (by decide)]
      apply balances.complete
      intro k first last
      exact accepted k first (lt_of_lt_of_le last (le_trans orders.calls deals.calls))
  | orders =>
      rw [deals.list_other (by decide)]
      apply orders.complete
      intro k first last
      exact accepted k (le_trans balances.calls first) (lt_of_lt_of_le last deals.calls)
  | deals =>
      apply deals.complete
      intro k first last
      exact accepted k (le_trans (le_trans balances.calls orders.calls) first) last

/-- A message goes in behind the others, and comes out at once if it can. -/
theorem pushMessage_drawn (full : OnlyFull answers) (m : Messages) (topic : Topic)
    (message : String) : Drawn (listAddNodeTail m topic message)
      (pushMessage answers m topic message) := by
  unfold pushMessage
  by_cases empty : m.list topic = []
  · rw [if_neg (not_not_intro empty)]
    cases answer : answers m.calls with
    | failed => exact absurd answer (full _)
    | queueFull =>
        have full : (rdKafkaProduce answers m topic message).1 = .queueFull := answer
        have refused : answers m.calls ≠ .accepted := by
          rw [answer]
          nofun
        simp only [if_pos full]
        intro other
        refine ⟨0, ?_⟩
        rw [Fifo.take_zero]
        by_cases same : other = topic
        · subst same
          rw [listAddNodeTail_self, listAddNodeTail_self, rdKafkaProduce_refused refused]
        · rw [listAddNodeTail_other same, listAddNodeTail_other same, rdKafkaProduce_other same]
    | accepted =>
        have goes : (rdKafkaProduce answers m topic message).1 ≠ .queueFull := by
          change answers m.calls ≠ _
          rw [answer]
          nofun
        simp only [if_neg goes]
        intro other
        by_cases same : other = topic
        · subst same
          refine ⟨1, ?_⟩
          rw [rdKafkaProduce_accepted answer, listAddNodeTail_self,
            Fifo.put_take_of_empty _ empty, empty]
          rfl
        · refine ⟨0, ?_⟩
          rw [rdKafkaProduce_other same, Fifo.take_zero, listAddNodeTail_other same]
  · rw [if_pos empty]
    exact fun _ => ⟨0, (Fifo.take_zero _).symm⟩

/-- An event puts into a topic what it pushes, and takes from it what came first. -/
theorem Messages.on_queue (full : OnlyFull answers) (m : Messages) (event : MessageEvent)
    (topic : Topic) :
    ((m.on answers event).queue topic).all = (m.queue topic).all ++ pushed topic [event] ∧
      m.produced topic <+: (m.on answers event).produced topic := by
  cases event with
  | push topic' message =>
      rcases pushMessage_drawn full m topic' message topic with ⟨n, drawn⟩
      change (m.on answers (.push topic' message)).queue topic = _ at drawn
      have out : (m.on answers (.push topic' message)).produced topic =
          (((listAddNodeTail m topic' message).queue topic).take n).out := congrArg Fifo.out drawn
      rw [out, drawn, Fifo.take_all]
      refine ⟨?_, ((listAddNodeTail m topic' message).queue topic).out_prefix_take n⟩
      by_cases same : topic' = topic
      · subst same
        rw [listAddNodeTail_self, Fifo.put_all]
        simp [pushed]
      · rw [listAddNodeTail_other (Ne.symm same)]
        simp [pushed, same]
  | timer =>
      rcases onTimer_drawn full m topic with ⟨n, drawn⟩
      have out : (m.on answers .timer).produced topic = ((m.queue topic).take n).out :=
        congrArg Fifo.out drawn
      rw [out]
      refine ⟨?_, (m.queue topic).out_prefix_take n⟩
      change ((onTimer answers m).queue topic).all = _
      rw [drawn, Fifo.take_all]
      simp [pushed]

theorem Messages.run_queue (full : OnlyFull answers) (m : Messages) (events : List MessageEvent)
    (topic : Topic) :
    ((m.run answers events).queue topic).all = (m.queue topic).all ++ pushed topic events ∧
      m.produced topic <+: (m.run answers events).produced topic := by
  induction events generalizing m with
  | nil => exact ⟨(List.append_nil _).symm, List.prefix_rfl⟩
  | cons event events ih =>
      rcases m.on_queue full event topic with ⟨step, stepOut⟩
      rcases ih (m.on answers event) with ⟨rest, restOut⟩
      refine ⟨?_, stepOut.trans restOut⟩
      have split :
          pushed topic (event :: events) = pushed topic [event] ++ pushed topic events := by
        unfold pushed
        rw [← List.filterMap_append]
        rfl
      change ((Messages.run answers (m.on answers event) events).queue topic).all = _
      rw [rest, step, split, List.append_assoc]

/-- The producer has accepted the first messages pushed to a topic, in their
order, and the others wait in theirs. What was accepted stays so, and a timer
that is refused nothing leaves none waiting. -/
theorem messages_in_order (full : OnlyFull answers) (events : List MessageEvent) :
    (∀ topic, (initMessage.run answers events).produced topic ++
        (initMessage.run answers events).list topic = pushed topic events) ∧
      (∀ topic later, (initMessage.run answers events).produced topic <+:
        (initMessage.run answers (events ++ later)).produced topic) ∧
      ((∀ k, (initMessage.run answers events).calls ≤ k →
          k < (initMessage.run answers (events ++ [.timer])).calls → answers k = .accepted) →
        ∀ topic, (initMessage.run answers (events ++ [.timer])).list topic = []) := by
  refine ⟨?_, ?_, ?_⟩
  · intro topic
    exact (initMessage.run_queue full events topic).1
  · intro topic later
    unfold Messages.run
    rw [List.foldl_append]
    exact ((initMessage.run answers events).run_queue full later topic).2
  · intro accepted
    unfold Messages.run at accepted ⊢
    rw [List.foldl_append] at accepted ⊢
    exact onTimer_empties full _ accepted

/-- The producer refuses every third call. -/
def thirdFull (n : ℕ) : Produced :=
  if n % 3 = 2 then .queueFull else .accepted

/-- Two of four messages wait, and go with the next timer. -/
theorem messages_in_order_small :
    (initMessage.run thirdFull [.push .deals "a", .push .deals "b", .push .deals "c",
        .push .deals "d"]).list .deals = ["c", "d"] ∧
      (initMessage.run thirdFull ([.push .deals "a", .push .deals "b", .push .deals "c",
        .push .deals "d"] ++ [.timer])).list .deals = [] := by
  have full : OnlyFull thirdFull := by
    intro n
    unfold thirdFull
    split <;> nofun
  constructor
  · decide
  · apply (messages_in_order full _).2.2
    intro k first last
    change 3 ≤ k at first
    change k < 5 at last
    interval_cases k <;> rfl

end Message

end ViabtcServer.MatchEngine
