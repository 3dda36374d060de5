import ViabtcServer.Container.Log
import ViabtcServer.MarketPrice.Flush

/-!
# Going on after a crash

A process that is started again takes up what Redis holds and reads the log behind
the offset it finds there. The k-lines are written one by one and the offset last,
so that a start between the two counts deals twice. Where every start finds what
was there when the offset was written, and no write is given up for lost, every
deal is counted once.
-/

namespace ViabtcServer.MarketPrice

open Decimal Container MatchEngine

/-! ## Crashes and starts -/

/-- A message of the log. -/
structure Delivery where
  offset : ℤ
  text : Option Json

/-- A running process and the messages it has still to read. -/
structure Reader where
  state : State
  pending : List Delivery

/-- Redis, the process if one runs, and Redis as it was when the offset was last
written. -/
structure Node where
  redis : Redis
  process : Option Reader
  saved : Redis

/-- A start, the next message, a flush at which the process may die, a crash at any
other time. -/
inductive Step
  | start (now : ℤ) (names : List String)
  | message (now : Time) (padding : KlineType → ℕ)
  | flush (now : Time) (connected : Bool) (answers : Command → Answer)
  | crash

/-- A server that has been told nothing. -/
def Redis.empty : Redis where
  klines := fun _ _ => ∅
  last := fun _ => none
  deals := fun _ => []
  offset := none

def Node.empty : Node where
  redis := .empty
  process := none
  saved := .empty

/-- The deal of a message, if it is valid. -/
def Delivery.deal [Libmpdec] (message : Delivery) : Option Deal :=
  message.text.bind readDeal

section Run

variable [DecimalText]

/-- Whether `SET k:offset` is executed. -/
def offsetWritten (answers : Command → Answer) (r : Redis) (s : State) : Bool :=
  let (ok, l, _) := flushMarkets answers s.lastFlush s.markets.keys ⟨r, true⟩ s.markets
  ok && l.alive && (answers .setOffset).executed

variable [Libmpdec] [LocalTime] [Settings]

/-- One step. A process that comes up reads from `last_offset + 1`; one that does not,
because Redis does not answer or what it holds cannot be read, is started again. -/
def Node.on (log : List Delivery) (node : Node) : Step → Node
  | .start now names =>
      match node.process, initMessage node.redis now names with
      | none, some s =>
          { node with process := some ⟨s, behind Delivery.offset log s.lastOffset⟩ }
      | _, _ => node
  | .message now padding =>
      match node.process with
      | some ⟨s, message :: pending⟩ =>
          { node with
            process := some
              ⟨onDealsMessage s now padding message.text message.offset, pending⟩ }
      | _ => node
  | .flush now connected answers =>
      match node.process, connected with
      | some ⟨s, pending⟩, true =>
          let (_, l, s') := flushMarket answers now node.redis s
          { redis := l.redis
            process := if l.alive then some ⟨s', pending⟩ else none
            saved := if offsetWritten answers node.redis s then l.redis else node.saved }
      | _, _ => node
  | .crash => { node with process := none }

def Node.run (log : List Delivery) (node : Node) (steps : List Step) : Node :=
  steps.foldl (Node.on log) node

/-- A process that reads messages and is not interrupted. -/
def readAll (clock : Delivery → Time) (padding : Delivery → KlineType → ℕ) (s : State)
    (log : List Delivery) : State :=
  log.foldl
    (fun s message =>
      onDealsMessage s (clock message) (padding message) message.text message.offset) s

/-- A start at `now` does not pass the k-line over as too old. -/
def Loads (now : ℤ) (type : KlineType) (start : ℤ) : Prop :=
  (keepStart now type).getD 0 = 0 ∨ (keepStart now type).getD 0 ≤ start

/-- What a step needs for the market: a start finds of it what was there when the
offset was written, and its name is listed if anything of it is stored; a flush gives
nothing of it up for lost. -/
def Node.Safe (node : Node) (name : String) : Step → Prop
  | .start _ names => node.process = none → node.redis.of name = node.saved.of name ∧
      (name ∈ names ∨ node.redis.of name = Redis.empty.of name)
  | .flush _ connected answers => ∀ reader, node.process = some reader → connected = true →
      (reader.state.info name).Sound answers reader.state.lastFlush
  | _ => True

/-- Every step of the run is safe for the market. -/
def Node.SafeRun (log : List Delivery) (name : String) (node : Node) : List Step → Prop
  | [] => True
  | step :: rest => node.Safe name step ∧ (node.on log step).SafeRun log name rest

end Run

/-! ## What was saved -/

section Saved

variable [Libmpdec] {kept : KlineType → ℤ → Prop} {info ideal : MarketInfo} {stored : Stored}

/-- What is stored is read as the market. -/
structure Saved (kept : KlineType → ℤ → Prop) (ideal : MarketInfo) (stored : Stored) : Prop where
  klines : ∀ {type start}, kept type start →
    Fits (dictFind (ideal.klines type) start) (dictFind (stored.klines type) start)
  last : LastFits ideal.last stored.last
  deals : stored.deals.take marketDealsMax = ideal.dealsJson

/-- A market of which nothing waits is saved. -/
theorem Backed.saved (backed : Backed kept info stored) (idle : info.Idle)
    (agrees : info.Agrees kept ideal) : Saved kept ideal stored := by
  constructor
  · intro type start kept_
    rcases backed.klines kept_ with ⟨padding, marked⟩ | fits
    · rw [idle.1] at marked
      cases marked
    · exact optionRel_trans fits (agrees.klines kept_)
  · rcases backed.last idle.2 with ⟨read, ok, alike⟩
    exact ⟨read, ok, alike.trans agrees.last⟩
  · rw [← agrees.dealsJson, ← backed.deals, idle.2]
    rfl

variable [Settings] {r : Redis} {now : ℤ} {names : List String} {name : String} {s : State}

omit [Settings] in
theorem loadMarketLast_short {text : Option String} {read : Mpd}
    (ok : loadMarketLast text mpdZero = some read) : read.Short := by
  cases text with
  | none =>
      obtain rfl := Option.some.inj ok
      exact Mpd.short_zero
  | some text => exact short_setString ok

theorem Loads.find {stored : Dict ℤ (List String)} {type : KlineType} {start : ℤ}
    (loads : Loads now type start) :
    dictFind (loadMarketKline stored ((keepStart now type).getD 0)) start =
      (dictFind stored start).bind klineFromStr := by
  have young : ¬ ((keepStart now type).getD 0 ≠ 0 ∧ start < (keepStart now type).getD 0) := by
    rintro ⟨some_, old⟩
    rcases loads with zero | le
    · exact some_ zero
    · omega
  rw [dictFind_loadMarketKline]
  congr 1
  funext text
  unfold loadKline
  rw [if_neg young]

/-- A start that finds what was saved takes it up. -/
theorem Saved.start (saved : Saved kept ideal (r.of name))
    (up : initMessage r now names = some s)
    (loads : ∀ {type start}, kept type start → Loads now type start)
    (listed : name ∈ names ∨ r.of name = Redis.empty.of name) :
    Backed kept (s.info name) (r.of name) ∧ (s.info name).Agrees kept ideal := by
  rcases initMessage_info up name with ⟨_, loaded⟩ | ⟨unlisted, fresh⟩
  · rcases loadMarket_some loaded with ⟨shape, last⟩
    have read {type : KlineType} {start : ℤ} (kept_ : kept type start) :
        dictFind ((s.info name).klines type) start =
          (dictFind ((r.of name).klines type) start).bind klineFromStr := by
      rw [shape]
      exact (loads kept_).find
    rcases saved.last with ⟨last', same, alike⟩
    have one : some (s.info name).last = some last' := last.symm.trans same
    obtain rfl := Option.some.inj one
    have dealsJson : (s.info name).dealsJson = (r.of name).deals.take marketDealsMax := by
      rw [shape]
      rfl
    constructor
    · constructor
      · intro type start kept_
        right
        unfold Fits
        rw [read kept_]
        exact optionRel_refl _
      · intro key marked
        rw [shape] at marked
        cases marked
      · exact fun _ => ⟨_, same, .refl _⟩
      · rw [dealsJson, shape]
        rfl
      · intro type start kline found
        rw [shape] at found
        simp only at found
        rw [dictFind_loadMarketKline] at found
        obtain ⟨text, _, read⟩ := Option.bind_eq_some_iff.mp found
        unfold loadKline at read
        split at read
        · cases read
        · exact klineFromStr_short read
      · exact loadMarketLast_short same
    · constructor
      · intro type start kept_
        rw [read kept_]
        exact saved.klines kept_
      · exact alike
      · rw [dealsJson, saved.deals]
  · have nothing := listed.resolve_left unlisted
    rw [nothing] at saved ⊢
    rw [fresh]
    rcases saved.last with ⟨last', same, alike⟩
    obtain rfl := Option.some.inj same
    constructor
    · constructor
      · exact fun _ => Or.inr .none
      · rintro _ ⟨⟩
      · exact fun _ => ⟨_, same, .refl _⟩
      · rfl
      · rintro _ _ _ ⟨⟩
      · exact Mpd.short_zero
    · exact ⟨fun kept_ => saved.klines kept_, alike, saved.deals⟩

end Saved

/-! ## Reading on -/

section Reading

variable [Libmpdec] [DecimalText] [LocalTime] {s : State} {now : Time}
  {padding : KlineType → ℕ} {text : Option Json} {offset : ℤ} {name : String} {deal : Deal}

theorem onDealsMessage_invalid (invalid : text.bind readDeal = none) :
    onDealsMessage s now padding text offset = s := by
  unfold onDealsMessage
  rw [invalid]

/-- A deal is counted in its market. -/
theorem onDealsMessage_info (valid : text.bind readDeal = some deal) :
    (onDealsMessage s now padding text offset).info name =
      if name = deal.market then (s.info name).count now padding deal else s.info name := by
  unfold onDealsMessage marketUpdate State.info
  rw [valid]
  by_cases own : name = deal.market
  · subst own
    rw [if_pos rfl]
    exact marketInfo_replace
  · rw [if_neg own]
    exact marketInfo_replace_ne own

theorem onDealsMessage_named (named : Named s.markets) :
    Named (onDealsMessage s now padding text offset).markets := by
  unfold onDealsMessage
  split
  · exact named
  · exact marketUpdate_named named now padding _

variable {clock : Delivery → Time} {paddings : Delivery → KlineType → ℕ}
  {log passed : List Delivery} {message : Delivery}

theorem readAll_append (s : State) (log rest : List Delivery) :
    readAll clock paddings s (log ++ rest) =
      readAll clock paddings (readAll clock paddings s log) rest :=
  List.foldl_append

theorem readAll_invalid (invalid : ∀ message ∈ passed, message.deal = none) :
    readAll clock paddings s passed = s := by
  induction passed generalizing s with
  | nil => rfl
  | cons message passed ih =>
      have here : onDealsMessage s (clock message) (paddings message) message.text
          message.offset = s :=
        onDealsMessage_invalid (invalid message List.mem_cons_self)
      unfold readAll at ih ⊢
      rw [List.foldl_cons, here]
      exact ih fun other mem => invalid other (List.mem_cons_of_mem _ mem)

variable [SpecialValues] {kept : KlineType → ℤ → Prop} {ideal : State}

/-- Processes that agree on a market agree on it after the next message. -/
theorem agrees_onDealsMessage (agrees : (s.info name).Agrees kept (ideal.info name))
    (now now' : Time) (padding padding' : KlineType → ℕ) :
    ((onDealsMessage s now padding text offset).info name).Agrees kept
      ((onDealsMessage ideal now' padding' text offset).info name) := by
  cases valid : text.bind readDeal with
  | none =>
      rw [onDealsMessage_invalid valid, onDealsMessage_invalid valid]
      exact agrees
  | some deal =>
      rw [onDealsMessage_info valid, onDealsMessage_info valid]
      split
      · exact agrees.count now now' padding padding' deal
      · exact agrees

theorem backed_onDealsMessage {stored : Stored} (backed : Backed kept (s.info name) stored)
    (now : Time) (padding : KlineType → ℕ) :
    Backed kept ((onDealsMessage s now padding text offset).info name) stored := by
  cases valid : text.bind readDeal with
  | none =>
      rw [onDealsMessage_invalid valid]
      exact backed
  | some deal =>
      rw [onDealsMessage_info valid]
      split
      · obtain ⟨json, _, read⟩ := Option.bind_eq_some_iff.mp valid
        exact backed.count now padding (readDeal_short read)
      · exact backed

end Reading

/-! ## Runs -/

section Runs

variable [Libmpdec] [DecimalText] [LocalTime] [Settings]
  {kept : KlineType → ℤ → Prop} {name : String} {log : List Delivery} {ideal : ℤ → MarketInfo}
  {node : Node} {reader : Reader} {r : Redis}

/-- The reader stands behind `last_offset`, but for messages without a deal. -/
def Reader.At (log : List Delivery) (reader : Reader) : Prop :=
  ∃ passed, behind Delivery.offset log reader.state.lastOffset = passed ++ reader.pending ∧
    ∀ message ∈ passed, message.deal = none

/-- What holds of a running process: its market is backed, and is what an
uninterrupted one has at the same offset. -/
structure Reader.Follows (kept : KlineType → ℤ → Prop) (name : String) (log : List Delivery)
    (ideal : ℤ → MarketInfo) (r : Redis) (reader : Reader) : Prop where
  named : Named reader.state.markets
  place : reader.At log
  backed : Backed kept (reader.state.info name) (r.of name)
  agrees : (reader.state.info name).Agrees kept (ideal reader.state.lastOffset)

/-- What holds at any time: what was saved is the market at the offset saved with
it, which is the offset Redis holds. -/
structure Node.Follows (kept : KlineType → ℤ → Prop) (name : String) (log : List Delivery)
    (ideal : ℤ → MarketInfo) (node : Node) : Prop where
  offset : node.redis.offset = node.saved.offset
  saved : Saved kept (ideal (node.saved.offset.getD 0)) (node.saved.of name)
  process : ∀ reader, node.process = some reader →
    reader.Follows kept name log ideal node.redis

variable {clock : Delivery → Time} {paddings : Delivery → KlineType → ℕ} {fresh s : State}
  {message : Delivery} {pending : List Delivery}

omit [Settings] in
/-- A message without a deal is passed, and one with a deal is counted. -/
theorem Reader.Follows.next [SpecialValues] (ordered : Ordered Delivery.offset log)
    (follows : Reader.Follows kept name log
      (fun last => (readAll clock paddings fresh (upTo Delivery.offset log last)).info name) r
      ⟨s, message :: pending⟩)
    (now : Time) (padding : KlineType → ℕ) :
    Reader.Follows kept name log
      (fun last => (readAll clock paddings fresh (upTo Delivery.offset log last)).info name) r
      ⟨onDealsMessage s now padding message.text message.offset, pending⟩ := by
  rcases follows with ⟨named, ⟨passed, waiting, invalid⟩, backed, agrees⟩
  cases valid : message.text.bind readDeal with
  | none =>
      rw [onDealsMessage_invalid valid]
      refine ⟨named, ⟨passed ++ [message], ?_, ?_⟩, backed, agrees⟩
      · simpa using waiting
      · intro other mem
        rcases List.mem_append.mp mem with before | same
        · exact invalid other before
        · rw [List.mem_singleton.mp same]
          exact valid
  | some deal =>
      rcases ordered.advance waiting with ⟨read, rest⟩
      have offset : (onDealsMessage s now padding message.text message.offset).lastOffset =
          message.offset := by
        unfold onDealsMessage
        rw [valid]
      refine ⟨onDealsMessage_named named, ⟨[], ?_, nofun⟩, backed_onDealsMessage backed now padding,
        ?_⟩
      · rw [offset]
        exact rest
      · simp only [offset]
        rw [read, readAll_append, readAll_append, readAll_invalid invalid]
        exact agrees_onDealsMessage agrees now _ padding _

omit [DecimalText] [LocalTime] in
/-- A start that finds what was saved. -/
theorem Node.Follows.start {now : ℤ} {names : List String}
    (follows : node.Follows kept name (behind Delivery.offset log 0) ideal)
    (up : initMessage node.redis now names = some s)
    (loads : ∀ {type start}, kept type start → Loads now type start)
    (found : node.redis.of name = node.saved.of name)
    (listed : name ∈ names ∨ node.redis.of name = Redis.empty.of name) :
    Reader.Follows kept name (behind Delivery.offset log 0) ideal node.redis
      ⟨s, behind Delivery.offset log s.lastOffset⟩ := by
  rcases initMessage_offset up with ⟨offset, nonneg⟩
  have saved := follows.saved
  rw [← found] at saved
  rcases saved.start up loads listed with ⟨backed, agrees⟩
  refine ⟨initMessage_named up, ⟨[], behind_behind nonneg, nofun⟩, backed, ?_⟩
  simp only
  rw [offset, follows.offset]
  exact agrees

omit [Libmpdec] [LocalTime] [Settings] in
/-- What `flush_market` is after its loop over the markets. -/
theorem flushMarket_spec (answers : Command → Answer) (now : Time) (r : Redis) (s : State) :
    let loop := flushMarkets answers s.lastFlush s.markets.keys ⟨r, true⟩ s.markets
    let result := flushMarket answers now r s
    result.2.2.markets = loop.2.2 ∧ result.2.2.lastOffset = s.lastOffset ∧
      result.2.1.redis =
        (if offsetWritten answers r s then loop.2.1.redis.setOffset s.lastOffset
          else loop.2.1.redis) ∧
      (result.2.1.alive = true → loop.2.1.alive = true) := by
  unfold flushMarket offsetWritten
  generalize flushMarkets answers s.lastFlush s.markets.keys ⟨r, true⟩ s.markets = loop
  rcases loop with ⟨ok, l, markets⟩
  cases ok with
  | false => exact ⟨rfl, rfl, rfl, fun lives => lives⟩
  | true =>
      have redis : (flushOffset answers l s.lastOffset).2.redis =
          if (true && l.alive && (answers .setOffset).executed) = true then
            l.redis.setOffset s.lastOffset else l.redis := by
        unfold flushOffset redisCmd Link.send
        cases l.alive <;> rfl
      have alive : (flushOffset answers l s.lastOffset).2.alive = true → l.alive = true :=
        fun lives => (Link.send_lives lives).1
      simp only [Bool.not_true, Bool.false_eq_true, if_false]
      split
      · exact ⟨rfl, rfl, redis, alive⟩
      · exact ⟨rfl, rfl, redis, alive⟩

omit [LocalTime] [Settings] in
/-- The loop of a flush, for a process that follows. -/
theorem Reader.Follows.loop [PrintedText] {answers : Command → Answer}
    (follows : Reader.Follows kept name log ideal r ⟨s, pending⟩)
    (sound : (s.info name).Sound answers s.lastFlush) :
    let loop := flushMarkets answers s.lastFlush s.markets.keys ⟨r, true⟩ s.markets
    Named loop.2.2 ∧ (marketInfo loop.2.2 name).Agrees kept (ideal s.lastOffset) ∧
      (loop.2.1.alive = true →
        Backed kept (marketInfo loop.2.2 name) (loop.2.1.redis.of name) ∧
          (loop.1 = true → (marketInfo loop.2.2 name).Idle)) := by
  rcases follows with ⟨named, _, backed, agrees⟩
  rcases @flushMarkets_shape _ answers s.lastFlush s.markets.keys name ⟨r, true⟩ s.markets named
    with ⟨named', update, deals, shape⟩
  refine ⟨named', ?_, fun alive => ?_⟩
  · rw [shape]
    exact ⟨agrees.klines, agrees.last, agrees.dealsJson⟩
  · rcases flushMarkets_backed named sound alive backed with ⟨backed', idle⟩
    refine ⟨backed', fun ok => idle ok ?_⟩
    by_cases known : name ∈ s.markets.keys
    · exact Or.inr known
    · left
      apply marketInfo_idle_of_none
      exact AList.lookup_eq_none.mpr fun mem => known (AList.mem_keys.mp mem)

omit [LocalTime] [Settings] in
/-- A flush that gives nothing of the market up for lost: a process that outlives it
still follows, and the offset is written for what is saved then. -/
theorem Node.Follows.flush [PrintedText]
    (follows : node.Follows kept name log ideal) (running : node.process = some ⟨s, pending⟩)
    (answers : Command → Answer) (now : Time)
    (sound : (s.info name).Sound answers s.lastFlush) :
    let result := flushMarket answers now node.redis s
    Node.Follows kept name log ideal
      { redis := result.2.1.redis
        process := if result.2.1.alive then some ⟨result.2.2, pending⟩ else none
        saved := if offsetWritten answers node.redis s then result.2.1.redis else node.saved } := by
  intro result
  have before := follows.process _ running
  rcases flushMarket_spec answers now node.redis s with ⟨markets, offset, redis, alive⟩
  rcases before.loop sound with ⟨named', agrees', backed'⟩
  have written : offsetWritten answers node.redis s =
      let loop := flushMarkets answers s.lastFlush s.markets.keys ⟨node.redis, true⟩ s.markets
      (loop.1 && loop.2.1.alive && (answers .setOffset).executed) := rfl
  have frame : (flushMarkets answers s.lastFlush s.markets.keys ⟨node.redis, true⟩
      s.markets).2.1.redis.offset = node.redis.offset :=
    flushMarkets_frame fun _ => ⟨fun _ _ _ _ => rfl, fun _ _ => rfl, fun _ _ => rfl, fun _ => rfl⟩
  generalize flushMarkets answers s.lastFlush s.markets.keys ⟨node.redis, true⟩ s.markets = loop
    at markets redis alive named' agrees' backed' written frame
  have of : result.2.1.redis.of name = loop.2.1.redis.of name := by
    rw [redis]
    split <;> rfl
  have info : result.2.2.info name = marketInfo loop.2.2 name := by
    unfold State.info
    rw [markets]
  have process : ∀ reader : Reader,
      (if result.2.1.alive then some (⟨result.2.2, pending⟩ : Reader) else none) = some reader →
      reader.Follows kept name log ideal result.2.1.redis := by
    intro reader runs
    split at runs
    · rename_i lives
      obtain rfl := Option.some.inj runs
      constructor
      · simp only
        rw [markets]
        exact named'
      · unfold Reader.At
        simp only
        rw [offset]
        exact before.place
      · simp only
        rw [of, info]
        exact (backed' (alive lives)).1
      · simp only
        rw [info, offset]
        exact agrees'
    · cases runs
  cases executed : offsetWritten answers node.redis s with
  | true =>
      rw [executed] at written redis
      rw [if_pos rfl] at redis
      obtain ⟨⟨ok, lives⟩, _⟩ : (loop.1 = true ∧ loop.2.1.alive = true) ∧
          (answers .setOffset).executed = true := by
        simpa using written.symm
      rcases backed' lives with ⟨backed, idle⟩
      refine ⟨rfl, ?_, process⟩
      simp only [if_true]
      rw [of, redis]
      exact backed.saved (idle ok) agrees'
  | false =>
      rw [executed] at redis
      simp only [Bool.false_eq_true, if_false] at redis ⊢
      refine ⟨?_, follows.saved, process⟩
      simp only
      rw [redis, frame]
      exact follows.offset

/-- A flush that writes the offset saves what it has written. -/
theorem Node.on_flush_saved {now : Time} {answers : Command → Answer}
    (running : node.process = some ⟨s, pending⟩)
    (written : offsetWritten answers node.redis s = true) :
    (node.on log (.flush now true answers)).saved =
      (node.on log (.flush now true answers)).redis := by
  unfold Node.on
  rw [running]
  simp only [written, if_true]

/-- What holds before a safe step holds after it. -/
theorem Node.Follows.on [SpecialValues] [PrintedText] {step : Step}
    (ordered : Ordered Delivery.offset log)
    (follows : node.Follows kept name (behind Delivery.offset log 0) fun last =>
      (readAll clock paddings fresh
        (upTo Delivery.offset (behind Delivery.offset log 0) last)).info name)
    (safe : node.Safe name step)
    (loads : ∀ now names, step = .start now names →
      ∀ {type start}, kept type start → Loads now type start) :
    (node.on log step).Follows kept name (behind Delivery.offset log 0) fun last =>
      (readAll clock paddings fresh
        (upTo Delivery.offset (behind Delivery.offset log 0) last)).info name := by
  cases step with
  | start now names =>
      unfold Node.on
      simp only
      split
      · rename_i s down up
        rcases safe down with ⟨found, listed⟩
        refine ⟨follows.offset, follows.saved, ?_⟩
        intro reader runs
        obtain rfl := Option.some.inj runs
        exact follows.start up (loads now names rfl) found listed
      · exact follows
  | message now padding =>
      unfold Node.on
      simp only
      split
      · rename_i s message pending running
        refine ⟨follows.offset, follows.saved, ?_⟩
        intro reader runs
        obtain rfl := Option.some.inj runs
        exact (follows.process _ running).next (ordered.rest 0) now padding
      · exact follows
  | flush now connected answers =>
      unfold Node.on
      simp only
      split
      · rename_i s pending running
        exact follows.flush running answers now (safe _ running rfl)
      · exact follows
  | crash => exact ⟨follows.offset, follows.saved, nofun⟩

theorem Node.Follows.run [SpecialValues] [PrintedText] (ordered : Ordered Delivery.offset log)
    {steps : List Step} : ∀ {node : Node},
    (node.Follows kept name (behind Delivery.offset log 0) fun last =>
      (readAll clock paddings fresh
        (upTo Delivery.offset (behind Delivery.offset log 0) last)).info name) →
    node.SafeRun log name steps →
    (∀ now names, Step.start now names ∈ steps →
      ∀ {type start}, kept type start → Loads now type start) →
    (node.run log steps).Follows kept name (behind Delivery.offset log 0) fun last =>
      (readAll clock paddings fresh
        (upTo Delivery.offset (behind Delivery.offset log 0) last)).info name := by
  induction steps with
  | nil => exact fun follows _ _ => follows
  | cons step steps ih =>
      intro node follows safe loads
      apply ih _ safe.2 fun now names mem => loads now names (List.mem_cons_of_mem _ mem)
      exact follows.on ordered safe.1 fun now names same =>
        loads now names (same ▸ List.mem_cons_self)

omit [DecimalText] [LocalTime] in
/-- A process that found nothing has what is saved in an empty Redis. -/
theorem saved_empty {now : ℤ} {names : List String}
    (up : initMessage .empty now names = some fresh) :
    Saved kept (fresh.info name) (Redis.empty.of name) := by
  rcases initMessage_info up name with ⟨_, loaded⟩ | ⟨_, unknown⟩
  · rcases loadMarket_some loaded with ⟨shape, last⟩
    constructor
    · intro type start _
      rw [shape]
      simp only
      rw [dictFind_loadMarketKline]
      exact .none
    · exact ⟨_, last, .refl _⟩
    · rw [shape]
      rfl
  · rw [unknown]
    exact ⟨fun _ => .none, ⟨_, rfl, .refl _⟩, rfl⟩

/-- In a run whose steps are safe for a market, whatever crashes and failures it has,
the k-lines that no start passed over as too old, the last price and the recent deals
are those of a process that read the same messages without an interruption. -/
theorem deals_counted_once [SpecialValues] [PrintedText] {steps : List Step} {first : ℤ}
    {listed : List String} (ordered : Ordered Delivery.offset log)
    (up : initMessage .empty first listed = some fresh) (safe : Node.empty.SafeRun log name steps)
    (running : (Node.empty.run log steps).process = some reader) :
    ∃ read, behind Delivery.offset log 0 = read ++ reader.pending ∧
      (reader.state.info name).Agrees
        (fun type start => ∀ now names, Step.start now names ∈ steps → Loads now type start)
        ((readAll clock paddings fresh read).info name) := by
  have none_ : upTo Delivery.offset (behind Delivery.offset log 0) 0 = [] := upTo_behind
  have initial : Node.empty.Follows
      (fun type start => ∀ now names, Step.start now names ∈ steps → Loads now type start) name
      (behind Delivery.offset log 0) fun last =>
      (readAll clock paddings fresh
        (upTo Delivery.offset (behind Delivery.offset log 0) last)).info name := by
    refine ⟨rfl, ?_, nofun⟩
    have zero : Node.empty.saved.offset.getD 0 = 0 := rfl
    rw [zero, none_]
    exact saved_empty up
  have final := initial.run ordered safe fun now names mem _ _ kept => kept now names mem
  have follows := final.process reader running
  rcases follows.place with ⟨passed, waiting, invalid⟩
  refine ⟨upTo Delivery.offset (behind Delivery.offset log 0) reader.state.lastOffset ++ passed,
    ?_, ?_⟩
  · rw [List.append_assoc, ← waiting]
    exact (upTo_append_behind (ordered.rest 0) _).symm
  · rw [readAll_append, readAll_invalid invalid]
    exact follows.agrees

end Runs

/-! ## A deal that is counted twice -/

section Small

attribute [local instance] Libmpdec.reference smallText smallTime smallRetention
  specialValues_reference

theorem toString_exponent {exp : ℤ} (some_ : exp ≠ 0) :
    "e" ++ toString exp = String.ofList (exponentChars exp) := by
  unfold exponentChars
  rw [if_neg some_, Int.toString_eq_repr, Int.repr_eq_if]
  by_cases neg : exp < 0
  · have magnitude : (-exp).toNat = exp.natAbs := by omega
    rw [if_neg (by omega), magnitude, Nat.repr_eq_ofList_toDigits, decide_eq_true neg]
    apply String.toList_injective
    simp [signChars]
  · have magnitude : exp.toNat = exp.natAbs := by omega
    rw [if_pos (by omega), magnitude, Nat.repr_eq_ofList_toDigits, decide_eq_false neg]
    apply String.toList_injective
    simp [signChars]

theorem smallText_finite (neg : Bool) (coeff : ℕ) (exp : ℤ) :
    mpdToSci (.finite neg coeff exp) =
      String.ofList (signChars neg ++ (Nat.toDigits 10 coeff ++ exponentChars exp)) := by
  have sign : (if neg then "-" else "") = String.ofList (signChars neg) := by
    cases neg <;> rfl
  simp only [mpdToSci]
  rw [String.ofList_append, String.ofList_append, ← sign, ← Nat.toString_eq_ofList_toDigits]
  split
  · rename_i same
    obtain ⟨rfl, rfl, rfl⟩ := Mpd.finite.inj same
    simp [exponentChars]
  · rename_i some_ same
    obtain ⟨rfl, rfl, rfl⟩ := Mpd.finite.inj same
    rw [← toString_exponent some_]
    simp [String.append_assoc]
  · rename_i same
    cases same
  · rename_i same
    cases same

/-- There is no point in what is printed. -/
theorem smallText_stripped (a : Mpd) : mpdText a = mpdToSci a := by
  have plain : '.' ∉ (mpdToSci a).toList := by
    cases a with
    | finite neg coeff exp =>
        have digits (n : ℕ) : '.' ∉ Nat.toDigits 10 n := fun mem =>
          absurd (isDigit_toDigits n _ mem) (by decide)
        have sign (neg : Bool) : '.' ∉ signChars neg := by cases neg <;> decide
        have exponent : '.' ∉ exponentChars exp := by
          unfold exponentChars
          split
          · exact List.not_mem_nil
          · simp [sign, digits]
        rw [smallText_finite, String.toList_ofList]
        simp [sign, digits, exponent]
    | infinity neg => cases neg <;> decide
    | nan => decide
  unfold mpdText rstripzero
  split
  · rfl
  · rw [if_pos (by simpa using plain)]

theorem smallText_read {a : Mpd} (short : a.Short) :
    ∃ read, decimal (mpdToSci a) = some read ∧ read.Alike a := by
  cases a with
  | finite neg coeff exp =>
      refine ⟨_, (congrArg readMpd (smallText_finite neg coeff exp)).trans
        (readMpd_printed neg coeff exp), Or.inr ⟨roundTo_isFinite _ _, rfl, ?_⟩⟩
      exact (roundTo_rounds exp _).eq_of_sigDigits (short rfl)
  | infinity neg =>
      refine ⟨.infinity neg, ?_, .refl _⟩
      cases neg <;> decide
  | nan => exact ⟨.nan, by decide, .refl _⟩

theorem printedText_small : PrintedText where
  sci := smallText_read
  stripped short := by
    rw [smallText_stripped]
    exact smallText_read short

attribute [local instance] printedText_small

/-- One deal. -/
def smallLog : List Delivery :=
  [⟨1, some smallDeal⟩]

/-- The process dies when the k-lines are written and nothing else is. -/
def dieAtLast : Command → Answer
  | .setLast _ => .died false
  | _ => .answered

/-- The deal is read, written, and read again after the start. -/
def tornRun : List Step :=
  [.start 100 ["BTCCNY"], .message 1 fun _ => 0, .flush 2 true dieAtLast,
    .start 100 ["BTCCNY"], .message 3 fun _ => 0]

def secondVolume (s : State) : Option Mpd :=
  (dictFind ((s.info "BTCCNY").klines .sec) 60).map (·.volume)

/-- A process that dies inside a flush counts a deal twice. -/
theorem deal_counted_twice : ¬ ∀ (log : List Delivery) (steps : List Step) (name : String)
    (fresh : State) (reader : Reader), Ordered Delivery.offset log →
    initMessage .empty 100 [name] = some fresh →
    (Node.empty.run log steps).process = some reader → reader.pending = [] →
    (reader.state.info name).Agrees
      (fun type start => ∀ now names, Step.start now names ∈ steps → Loads now type start)
      ((readAll (fun _ => 1) (fun _ _ => 0) fresh (behind Delivery.offset log 0)).info name) := by
  intro all
  have doubled : ((Node.empty.run smallLog tornRun).process.map fun reader =>
      (reader.pending.length, secondVolume reader.state)) = some (0, some (.finite false 4 0)) := by
    decide +kernel
  have once : ((initMessage .empty 100 ["BTCCNY"]).map fun fresh => secondVolume
      (readAll (fun _ => 1) (fun _ _ => 0) fresh (behind Delivery.offset smallLog 0))) =
        some (some (.finite false 2 0)) := by
    decide +kernel
  obtain ⟨reader, running, found⟩ := Option.map_eq_some_iff.mp doubled
  obtain ⟨fresh, up, counted⟩ := Option.map_eq_some_iff.mp once
  obtain ⟨read, volume⟩ := Prod.mk.inj found
  have agrees := all smallLog tornRun "BTCCNY" fresh reader (List.pairwise_singleton _ _) up running
    (List.length_eq_zero_iff.mp read)
  have young : ∀ now names, Step.start now names ∈ tornRun → Loads now .sec 60 := by
    intro now names mem
    simp only [tornRun, List.mem_cons, Step.start.injEq, reduceCtorEq, false_or, or_false,
      List.not_mem_nil, or_self] at mem
    rw [mem.1]
    right
    decide
  have same := agrees.klines young
  unfold secondVolume at volume counted
  generalize dictFind ((reader.state.info "BTCCNY").klines .sec) 60 = left at same volume
  generalize dictFind (((readAll _ _ fresh _).info "BTCCNY").klines .sec) 60 = right
    at same counted
  cases same with
  | none => cases volume
  | some alike =>
      have equal := alike.volume.value
      simp only [Option.map_some, Option.some.injEq] at volume counted
      rw [volume, counted] at equal
      norm_num [Mpd.value] at equal

/-- Two deals, and a crash between them when the first one is saved. -/
def savedLog : List Delivery :=
  [⟨1, some smallDeal⟩, ⟨2, some smallDeal⟩]

def savedRun : List Step :=
  [.start 100 ["BTCCNY"], .message 1 fun _ => 0, .flush 2 true fun _ => .answered, .crash,
    .start 100 ["BTCCNY"], .message 3 fun _ => 0]

theorem savedRun_safe : Node.empty.SafeRun savedLog "BTCCNY" savedRun := by
  refine ⟨fun _ => ⟨rfl, Or.inl (by decide)⟩, trivial, ?_, trivial, ?_, trivial, trivial⟩
  · intro reader running _
    have never : ((Node.empty.run savedLog (savedRun.take 2)).process.map
        (·.state.lastFlush)) = some 0 := by
      decide +kernel
    have zero : reader.state.lastFlush = 0 := by
      have found := congrArg (Option.map (·.state.lastFlush)) running
      exact (Option.some.inj (never.symm.trans found)).symm
    refine ⟨fun _ => ⟨nofun, nofun⟩, fun _ => ⟨nofun, nofun⟩, fun late => ?_⟩
    rw [zero] at late
    exact absurd late (Nat.not_lt_zero _)
  · intro _
    have written : ((Node.empty.run savedLog (savedRun.take 2)).process.map fun reader =>
        offsetWritten (fun _ => .answered) (Node.empty.run savedLog (savedRun.take 2)).redis
          reader.state) = some true := by
      decide +kernel
    obtain ⟨reader, running, executed⟩ := Option.map_eq_some_iff.mp written
    have saved : (Node.empty.run savedLog (savedRun.take 4)).saved =
        (Node.empty.run savedLog (savedRun.take 4)).redis :=
      @Node.on_flush_saved _ _ _ _ savedLog _ reader.state reader.pending 2 _ running executed
    exact ⟨(congrArg (·.of "BTCCNY") saved).symm, Or.inl (by decide)⟩

/-- Both deals are counted once. -/
theorem deals_counted_once_small : ∃ fresh reader read,
    initMessage .empty 100 ["BTCCNY"] = some fresh ∧
    (Node.empty.run savedLog savedRun).process = some reader ∧
    behind Delivery.offset savedLog 0 = read ++ reader.pending ∧
    (reader.state.info "BTCCNY").Agrees
      (fun type start => ∀ now names, Step.start now names ∈ savedRun → Loads now type start)
      ((readAll (fun _ => 1) (fun _ _ => 0) fresh read).info "BTCCNY") := by
  have runs : (Node.empty.run savedLog savedRun).process.isSome = true := by decide +kernel
  have starts : (initMessage .empty 100 ["BTCCNY"]).isSome = true := by decide +kernel
  obtain ⟨reader, running⟩ := Option.isSome_iff_exists.mp runs
  obtain ⟨fresh, up⟩ := Option.isSome_iff_exists.mp starts
  have ordered : Ordered Delivery.offset savedLog := by
    unfold Ordered savedLog
    decide
  obtain ⟨read, whole, agrees⟩ := deals_counted_once ordered up savedRun_safe running
  exact ⟨fresh, reader, read, up, running, whole, agrees⟩

end Small
end ViabtcServer.MarketPrice
