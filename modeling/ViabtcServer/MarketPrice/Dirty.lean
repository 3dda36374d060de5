import ViabtcServer.Container.WriteBack
import ViabtcServer.Decimal.Reference
import ViabtcServer.MarketPrice.Process

/-!
# What a flush leaves unwritten

A k-line that changed is marked until a flush has written it. The mark goes
whether or not the write succeeded, and a market is passed over when its last
change seems older than the last flush; where neither happens to a k-line that
is still to be written, every change reaches Redis before the offset does.
-/

namespace ViabtcServer.MarketPrice

open Decimal Container MatchEngine

/-! ## Runs -/

/-- The process and its Redis. -/
structure System where
  state : State
  redis : Redis

/-- What happens to a process: a deal message, the timer that flushes, the timer
that clears. -/
inductive Event
  | message (now : Time) (padding : KlineType → ℕ) (text : Option Json) (offset : ℤ)
  | flush (now : Time) (connected : Bool) (answers : Command → Answer)
  | clear (now : ℤ)

section Run

variable [Libmpdec] [DecimalText] [LocalTime] [Settings]

/-- `on_market_timer`: whether the flush came to its end. -/
def System.flush (sys : System) (now : Time) (connected : Bool) (answers : Command → Answer) :
    Bool × System :=
  if connected then
    let (ok, l, s) := flushMarket answers now sys.redis sys.state
    (ok, ⟨s, l.redis⟩)
  else (false, sys)

def System.on (sys : System) : Event → System
  | .message now padding text offset =>
      { sys with state := onDealsMessage sys.state now padding text offset }
  | .flush now connected answers => (sys.flush now connected answers).2
  | .clear now => { sys with state := clearKline sys.state now }

def System.run (sys : System) (events : List Event) : System :=
  events.foldl System.on sys

end Run

/-- A k-line of a market. -/
@[ext]
structure KlineKey where
  market : String
  type : KlineType
  start : ℤ
  deriving DecidableEq

/-- The k-lines in memory, the keys of `info->update`, and what Redis holds. -/
def klineCache (markets : Dict String MarketInfo) (r : Redis) :
    WriteBack KlineKey KlineInfo (List String) where
  memory key := (dictFind markets key.market).bind fun info =>
    dictFind (info.klines key.type) key.start
  dirty key := ∃ info padding, dictFind markets key.market = some info ∧
    dictFind info.update ⟨key.type, padding, key.start⟩ = some ()
  stored key := dictFind (r.klines key.market key.type) key.start

def System.cache (sys : System) : WriteBack KlineKey KlineInfo (List String) :=
  klineCache sys.state.markets sys.redis

/-- The k-lines a message changes. -/
def Event.changes [Libmpdec] [LocalTime] (key : KlineKey) : Event → Prop
  | .message _ _ text _ => ∃ deal, text.bind readDeal = some deal ∧ deal.market = key.market ∧
      klineStart key.type (truncate deal.timestamp) = key.start
  | _ => False

/-- The process does not die at a command. -/
def Event.Survives : Event → Prop
  | .flush _ _ answers => ∀ command executed, answers command ≠ .died executed
  | _ => True

/-- What a flush needs of the state it starts in: every marked k-line that is in
memory is written when it is sent, and no market with marks seems to have changed
before the last flush. -/
structure State.Reliable (s : State) (answers : Command → Answer) : Prop where
  written : ∀ {name info key kline}, dictFind s.markets name = some info →
    dictFind info.update key = some () →
    dictFind (info.klines key.klineType) key.timestamp = some kline →
    (answers (.hset name key)).executed = true
  inTime : ∀ {name info}, dictFind s.markets name = some info → info.updateTime < s.lastFlush →
    ∀ key, dictFind info.update key = none

def System.Reliable (sys : System) : Event → Prop
  | .flush _ connected answers => connected = true → sys.state.Reliable answers
  | _ => True

/-- Every flush of the run is reliable. -/
def System.ReliableRun [Libmpdec] [DecimalText] [LocalTime] [Settings] (sys : System) :
    List Event → Prop
  | [] => True
  | event :: rest => sys.Reliable event ∧ (sys.on event).ReliableRun rest

/-- Every market is found under its name. -/
def Named (markets : Dict String MarketInfo) : Prop :=
  ∀ name info, dictFind markets name = some info → info.name = name

/-! ## One flush -/

section Flush

variable {answers : Command → Answer} {markets : Dict String MarketInfo} {info : MarketInfo}
  {l : Link} {command : Command} {effect : Redis → Redis} {update : Dict UpdateKey Unit}
  {key : UpdateKey} {keys : List UpdateKey}

theorem Link.send_alive (survives : ∀ command executed, answers command ≠ .died executed)
    (alive : l.alive = true) : (l.send answers command effect).alive = true := by
  unfold Link.send
  rw [if_pos alive]
  simp only
  split
  · rename_i executed died
    exact absurd died (survives command executed)
  · rfl

theorem Link.send_redis (alive : l.alive = true) : (l.send answers command effect).redis =
    if (answers command).executed then effect l.redis else l.redis := by
  unfold Link.send
  rw [if_pos alive]

theorem Redis.hset_klines (market other : String) (type type' : KlineType) (start : ℤ)
    (text : List String) (r : Redis) : (r.hset market type start text).klines other type' =
      if other = market ∧ type' = type then dictReplace (r.klines market type) start text
      else r.klines other type' := by
  unfold Redis.hset
  by_cases own : other = market
  · subst own
    by_cases sameType : type' = type
    · subst sameType
      simp
    · simp [sameType]
  · simp [own]

variable [DecimalText]

/-- Writing a k-line and dropping its mark. -/
theorem flushKline_keeps (alive : l.alive = true)
    (written : ∀ kline, dictFind (info.klines key.klineType) key.timestamp = some kline →
      (answers (.hset info.name key)).executed = true) :
    (klineCache (dictReplace markets info.name { info with update := update }) l.redis).Keeps
      klineToStr
      (klineCache (dictReplace markets info.name { info with update := dictDelete update key })
        (flushKline answers l info key).2.redis) := by
  have redis : (flushKline answers l info key).2.redis =
      (dictFind (info.klines key.klineType) key.timestamp).elim l.redis fun kline =>
        l.redis.hset info.name key.klineType key.timestamp (klineToStr kline) := by
    unfold flushKline redisCmd
    cases found : dictFind (info.klines key.klineType) key.timestamp with
    | none => rfl
    | some kline =>
        simp only
        rw [Link.send_redis alive, if_pos (written kline found)]
        rfl
  rw [redis]
  -- the key's own k-line is written, if it is still in memory
  have clean : (klineCache
      (dictReplace markets info.name { info with update := dictDelete update key })
      ((dictFind (info.klines key.klineType) key.timestamp).elim l.redis fun kline =>
        l.redis.hset info.name key.klineType key.timestamp (klineToStr kline))).Clean
      klineToStr ⟨info.name, key.klineType, key.timestamp⟩ := by
    intro kline held
    simp only [klineCache, dictFind_replace, Option.bind_some] at held ⊢
    simp only [held, Option.elim_some]
    rw [Redis.hset_klines, if_pos ⟨rfl, rfl⟩, dictFind_replace]
  refine .of_store ?_ clean ?_ ?_
  · funext other
    by_cases own : other.market = info.name
    · simp [klineCache, own]
    · simp [klineCache, dictFind_replace_ne own]
  · rintro other differ ⟨info', padding, found, marked⟩
    by_cases own : other.market = info.name
    · rw [own, dictFind_replace, Option.some.injEq] at found
      subst found
      refine ⟨{ info with update := dictDelete update key }, padding, ?_, ?_⟩
      · rw [own, dictFind_replace]
      · rw [dictFind_delete_ne]
        · exact marked
        · rintro rfl
          exact differ (KlineKey.ext own rfl rfl)
    · rw [dictFind_replace_ne own] at found
      refine ⟨info', padding, ?_, marked⟩
      rw [dictFind_replace_ne own]
      exact found
  · intro other differ
    simp only [klineCache]
    cases dictFind (info.klines key.klineType) key.timestamp with
    | none => rfl
    | some kline =>
        rw [Option.elim_some, Redis.hset_klines]
        split
        · rename_i same
          rw [dictFind_replace_ne, same.1, same.2]
          intro start
          exact differ (KlineKey.ext same.1 same.2 start)
        · rfl

theorem flushUpdateKeys_keeps (survives : ∀ command executed, answers command ≠ .died executed) :
    ∀ {l update}, l.alive = true →
    (∀ key ∈ keys, ∀ kline, dictFind (info.klines key.klineType) key.timestamp = some kline →
      (answers (.hset info.name key)).executed = true) →
    (flushUpdateKeys answers info keys l update).1.alive = true ∧
      (klineCache (dictReplace markets info.name { info with update := update }) l.redis).Keeps
        klineToStr
        (klineCache
          (dictReplace markets info.name
            { info with update := (flushUpdateKeys answers info keys l update).2 })
          (flushUpdateKeys answers info keys l update).1.redis) := by
  induction keys with
  | nil => exact fun alive _ => ⟨alive, .refl _⟩
  | cons key keys ih =>
      intro l update alive written
      have sent : (flushKline answers l info key).2.alive = true := by
        unfold flushKline
        split
        · exact alive
        · exact Link.send_alive survives alive
      obtain ⟨alive', keeps⟩ := @ih (flushKline answers l info key).2 (dictDelete update key) sent
        fun key mem => written key (List.mem_cons_of_mem _ mem)
      exact ⟨alive', (flushKline_keeps alive (written key List.mem_cons_self)).trans keeps⟩

/-- No key that was looked at stays marked. -/
theorem flushUpdateKeys_marks : ∀ {l update},
    dictFind (flushUpdateKeys answers info keys l update).2 key = some () →
      key ∉ keys ∧ dictFind update key = some () := by
  induction keys with
  | nil => exact fun marked => ⟨List.not_mem_nil, marked⟩
  | cons first keys ih =>
      intro l update marked
      obtain ⟨absent, before⟩ := ih marked
      have differ : key ≠ first := by
        rintro rfl
        rw [dictFind_delete] at before
        cases before
      rw [dictFind_delete_ne differ] at before
      exact ⟨fun mem => (List.mem_cons.mp mem).elim differ absent, before⟩

omit [DecimalText] in
theorem klineCache_congr {r r' : Redis} (klines : r'.klines = r.klines) :
    klineCache markets r' = klineCache markets r := by
  unfold klineCache
  rw [klines]

omit [DecimalText] in
/-- Only the k-lines and the marks of a market matter. -/
theorem klineCache_replace {info' : MarketInfo} {name : String} {r : Redis}
    (klines : info'.klines = info.klines) (marks : info'.update = info.update) :
    klineCache (dictReplace markets name info') r =
      klineCache (dictReplace markets name info) r := by
  unfold klineCache
  congr 1
  · funext key
    by_cases own : key.market = name
    · simp [own, klines]
    · simp [dictFind_replace_ne own]
  · funext key
    by_cases own : key.market = name
    · simp [own, marks]
    · simp [dictFind_replace_ne own]

omit [DecimalText] in
theorem klineCache_present {name : String} {r : Redis} (found : dictFind markets name = some info) :
    klineCache (dictReplace markets name info) r = klineCache markets r := by
  have same (other : String) :
      dictFind (dictReplace markets name info) other = dictFind markets other := by
    by_cases own : other = name
    · rw [own, dictFind_replace, found]
    · exact dictFind_replace_ne own
  unfold klineCache
  simp only [same]

omit [DecimalText] in
theorem Link.send_klines (keeps : ∀ r, (effect r).klines = r.klines) :
    (l.send answers command effect).redis.klines = l.redis.klines := by
  unfold Link.send
  split
  · simp only
    split
    · exact keeps l.redis
    · rfl
  · rfl

omit [DecimalText] in
/-- Either the deals are pushed and forgotten, or they stay. -/
theorem flushDeals_cases (answers : Command → Answer) (l : Link) (info : MarketInfo) :
    flushDeals answers l info =
        (false, l.send answers (.lpush info.name) (Redis.lpush info.name info.deals), info) ∨
      flushDeals answers l info =
        (true, (l.send answers (.lpush info.name) (Redis.lpush info.name info.deals)).send answers
          (.ltrim info.name) (Redis.ltrim info.name), { info with deals := [] }) := by
  unfold flushDeals
  cases ok : (redisCommandArgv answers l (.lpush info.name) (Redis.lpush info.name info.deals)).1
  · left
    simp only [ok]
    rfl
  · right
    simp only [ok]
    rfl

omit [DecimalText] in
/-- Pushing deals does not touch the k-lines. -/
theorem flushDeals_keeps (survives : ∀ command executed, answers command ≠ .died executed)
    (alive : l.alive = true) :
    (flushDeals answers l info).2.1.alive = true ∧
      (flushDeals answers l info).2.1.redis.klines = l.redis.klines ∧
      (flushDeals answers l info).2.2.name = info.name ∧
      (flushDeals answers l info).2.2.klines = info.klines ∧
      (flushDeals answers l info).2.2.update = info.update := by
  have pushed : (l.send answers (.lpush info.name)
      (Redis.lpush info.name info.deals)).alive = true := Link.send_alive survives alive
  have klines : (l.send answers (.lpush info.name)
      (Redis.lpush info.name info.deals)).redis.klines = l.redis.klines :=
    Link.send_klines fun _ => rfl
  rcases flushDeals_cases answers l info with kept | sent
  · rw [kept]
    exact ⟨pushed, klines, rfl, rfl, rfl⟩
  · rw [sent]
    refine ⟨Link.send_alive survives pushed, ?_, rfl, rfl, rfl⟩
    exact Eq.trans (Link.send_klines fun _ => rfl) klines

/-- Neither does the last price. -/
theorem flushPrices_keeps (survives : ∀ command executed, answers command ≠ .died executed)
    (alive : l.alive = true) :
    (flushPrices answers l info).2.1.alive = true ∧
      (flushPrices answers l info).2.1.redis.klines = l.redis.klines ∧
      (flushPrices answers l info).2.2.name = info.name ∧
      (flushPrices answers l info).2.2.klines = info.klines ∧
      (flushPrices answers l info).2.2.update = info.update := by
  have sent : (flushLast answers l info).2.alive = true := Link.send_alive survives alive
  have klines : (flushLast answers l info).2.redis.klines = l.redis.klines :=
    Link.send_klines fun _ => rfl
  unfold flushPrices
  simp only
  split
  · exact ⟨sent, klines, rfl, rfl, rfl⟩
  split
  · exact ⟨sent, klines, rfl, rfl, rfl⟩
  obtain ⟨alive', klines', kept⟩ := @flushDeals_keeps answers info _ survives sent
  exact ⟨alive', klines'.trans klines, kept⟩

/-- One market is passed over or loses its marks; nothing is forgotten. -/
theorem flushInfo_keeps {lastFlush : Time}
    (survives : ∀ command executed, answers command ≠ .died executed) (alive : l.alive = true)
    (found : dictFind markets info.name = some info)
    (written : ∀ key kline, dictFind info.update key = some () →
      dictFind (info.klines key.klineType) key.timestamp = some kline →
      (answers (.hset info.name key)).executed = true)
    (inTime : info.updateTime < lastFlush → ∀ key, dictFind info.update key = none) :
    (flushInfo answers l lastFlush info).2.1.alive = true ∧
      (flushInfo answers l lastFlush info).2.2.name = info.name ∧
      (∀ key, dictFind (flushInfo answers l lastFlush info).2.2.update key = none) ∧
      (klineCache markets l.redis).Keeps klineToStr
        (klineCache (dictReplace markets info.name (flushInfo answers l lastFlush info).2.2)
          (flushInfo answers l lastFlush info).2.1.redis) := by
  unfold flushInfo
  split
  · rename_i late
    rw [klineCache_present found]
    exact ⟨alive, rfl, inTime late, .refl _⟩
  have marked (key : UpdateKey) (mem : key ∈ info.update.keys) :
      dictFind info.update key = some () := by
    obtain ⟨_, present⟩ := Option.isSome_iff_exists.mp (AList.lookup_isSome.mpr mem)
    exact present
  obtain ⟨alive', keeps⟩ := @flushUpdateKeys_keeps answers markets info info.update.keys _ survives
    l info.update alive fun key mem kline held => written key kline (marked key mem) held
  have gone (key : UpdateKey) : dictFind
      (flushUpdateKeys answers info info.update.keys l info.update).2 key = none := by
    rw [Option.eq_none_iff_forall_not_mem]
    rintro ⟨⟩ held
    obtain ⟨absent, before⟩ := flushUpdateKeys_marks held
    exact absent (AList.mem_keys.mp (AList.lookup_isSome.mp (Option.isSome_of_mem before)))
  rw [klineCache_present found] at keeps
  obtain ⟨sentAlive, klines, name, kept, marks⟩ :=
    @flushPrices_keeps answers (flushUpdate answers l info).2 (flushUpdate answers l info).1 _
      survives alive'
  refine ⟨sentAlive, name, ?_, ?_⟩
  · rw [marks]
    exact gone
  · rw [klineCache_congr klines, klineCache_replace kept marks]
    exact keeps

/-- Nothing of the market is left to be written. -/
def Unmarked (markets : Dict String MarketInfo) (name : String) : Prop :=
  ∀ info, dictFind markets name = some info → ∀ key, dictFind info.update key = none

omit [DecimalText] in
/-- A market without marks may be put back at any time. -/
theorem State.Reliable.replace {s : State} {name : String}
    (reliable : { s with markets := markets }.Reliable answers)
    (unmarked : ∀ key, dictFind info.update key = none) :
    { s with markets := dictReplace markets name info }.Reliable answers := by
  have cases_ {other : String} {info' : MarketInfo}
      (found : dictFind (dictReplace markets name info) other = some info') :
      info' = info ∨ dictFind markets other = some info' := by
    by_cases own : other = name
    · rw [own, dictFind_replace] at found
      exact Or.inl (Option.some.inj found).symm
    · rw [dictFind_replace_ne own] at found
      exact Or.inr found
  constructor
  · intro other info' key kline found marked held
    rcases cases_ found with rfl | before
    · rw [unmarked] at marked
      cases marked
    · exact reliable.written before marked held
  · intro other info' found late
    rcases cases_ found with rfl | before
    · exact unmarked
    · exact reliable.inTime before late

omit [DecimalText] in
theorem Unmarked.replace {name other : String} (unmarked : Unmarked markets other)
    (empty : ∀ key, dictFind info.update key = none) :
    Unmarked (dictReplace markets name info) other := by
  intro info' found
  by_cases own : other = name
  · rw [own, dictFind_replace] at found
    obtain rfl := Option.some.inj found
    exact empty
  · rw [dictFind_replace_ne own] at found
    exact unmarked info' found

omit [DecimalText] in
theorem Named.replace (named : Named markets) {name : String} (same : info.name = name) :
    Named (dictReplace markets name info) := by
  intro other info' found
  by_cases own : other = name
  · subst own
    rw [dictFind_replace] at found
    obtain rfl := Option.some.inj found
    exact same
  · rw [dictFind_replace_ne own] at found
    exact named other info' found

/-- The loop over the markets forgets nothing, and when it comes to its end no
market it has seen has a mark. -/
theorem flushMarkets_keeps {s : State}
    (survives : ∀ command executed, answers command ≠ .died executed) {names : List String} :
    ∀ {l markets}, l.alive = true → Named markets →
      { s with markets := markets }.Reliable answers →
      (flushMarkets answers s.lastFlush names l markets).2.1.alive = true ∧
      Named (flushMarkets answers s.lastFlush names l markets).2.2 ∧
      (klineCache markets l.redis).Keeps klineToStr
        (klineCache (flushMarkets answers s.lastFlush names l markets).2.2
          (flushMarkets answers s.lastFlush names l markets).2.1.redis) ∧
      (∀ name, Unmarked markets name →
        Unmarked (flushMarkets answers s.lastFlush names l markets).2.2 name) ∧
      ((flushMarkets answers s.lastFlush names l markets).1 = true → ∀ name ∈ names,
        Unmarked (flushMarkets answers s.lastFlush names l markets).2.2 name) := by
  induction names with
  | nil =>
      intro l markets alive named reliable
      exact ⟨alive, named, .refl _, fun _ unmarked => unmarked, fun _ _ => nofun⟩
  | cons name names ih =>
      intro l markets alive named reliable
      rw [flushMarkets]
      cases found : dictFind markets name with
      | none =>
          obtain ⟨alive', named', keeps, kept, done⟩ := ih alive named reliable
          refine ⟨alive', named', keeps, kept, fun ok other mem => ?_⟩
          rcases List.mem_cons.mp mem with rfl | later
          · apply kept
            intro info present
            rw [found] at present
            cases present
          · exact done ok other later
      | some info =>
          obtain rfl := named name info found
          obtain ⟨alive₁, name₁, empty, keeps₁⟩ := flushInfo_keeps survives alive found
            (fun key kline marked held => reliable.written found marked held)
            (reliable.inTime found)
          have named₁ := named.replace name₁
          have kept₁ (other : String) (unmarked : Unmarked markets other) :
              Unmarked (dictReplace markets info.name
                (flushInfo answers l s.lastFlush info).2.2) other :=
            unmarked.replace empty
          have own : Unmarked (dictReplace markets info.name
              (flushInfo answers l s.lastFlush info).2.2) info.name := by
            intro info' present
            rw [dictFind_replace] at present
            obtain rfl := Option.some.inj present
            exact empty
          simp only
          cases ok : (flushInfo answers l s.lastFlush info).1 with
          | false =>
              simp only [Bool.not_false, if_true]
              refine ⟨alive₁, named₁, keeps₁, kept₁, nofun⟩
          | true =>
              simp only [Bool.not_true, Bool.false_eq_true, if_false]
              obtain ⟨alive', named', keeps, kept, done⟩ :=
                ih alive₁ named₁ (reliable.replace empty)
              refine ⟨alive', named', keeps₁.trans keeps,
                fun other unmarked => kept other (kept₁ other unmarked), fun ok other mem => ?_⟩
              rcases List.mem_cons.mp mem with rfl | later
              · exact kept _ own
              · exact done ok other later

/-- A reliable flush forgets nothing, and once the offset is written every marked
k-line has been. -/
theorem flushMarket_keeps {s : State} {r : Redis} (now : Time)
    (survives : ∀ command executed, answers command ≠ .died executed) (named : Named s.markets)
    (reliable : s.Reliable answers) :
    Named (flushMarket answers now r s).2.2.markets ∧
      (klineCache s.markets r).Keeps klineToStr
        (klineCache (flushMarket answers now r s).2.2.markets
          (flushMarket answers now r s).2.1.redis) ∧
      ((flushMarket answers now r s).1 = true → ∀ key,
        ¬ (klineCache (flushMarket answers now r s).2.2.markets
          (flushMarket answers now r s).2.1.redis).dirty key) := by
  obtain ⟨alive, named', keeps, kept, done⟩ :=
    @flushMarkets_keeps _ _ s survives s.markets.keys ⟨r, true⟩ s.markets rfl named reliable
  unfold flushMarket
  generalize flushMarkets answers s.lastFlush s.markets.keys ⟨r, true⟩ s.markets = result at *
  obtain ⟨ok, l, markets⟩ := result
  have offset : (flushOffset answers l s.lastOffset).2.redis.klines = l.redis.klines :=
    Link.send_klines fun _ => rfl
  simp only
  cases ok with
  | false => exact ⟨named', keeps, nofun⟩
  | true =>
      simp only [Bool.not_true, Bool.false_eq_true, if_false]
      have idle (r : Redis) (key : KlineKey) : ¬ (klineCache markets r).dirty key := by
        rintro ⟨info, padding, found, marked⟩
        have empty : Unmarked markets key.market := by
          by_cases present : key.market ∈ s.markets.keys
          · exact done rfl key.market present
          · apply kept
            intro info before
            exact absurd (AList.mem_keys.mp (AList.lookup_isSome.mp (Option.isSome_of_mem before)))
              present
        rw [empty info found] at marked
        cases marked
      cases (flushOffset answers l s.lastOffset).1 with
      | false => exact ⟨named', klineCache_congr offset ▸ keeps, nofun⟩
      | true => exact ⟨named', klineCache_congr offset ▸ keeps, fun _ => idle _⟩

end Flush

/-! ## Messages -/

section Messages

variable {s : State} {deal : Deal} {update : Dict UpdateKey Unit} {key : UpdateKey}

theorem mem_addUpdate {type : KlineType} {padding : ℕ} {timestamp : ℤ} :
    dictFind (addUpdate update type padding timestamp) key = some () ↔
      key = ⟨type, padding, timestamp⟩ ∨ dictFind update key = some () := by
  unfold addUpdate
  cases present : dictFind update ⟨type, padding, timestamp⟩ with
  | some _ =>
      rw [dictAdd_of_present present, Option.getD_none]
      constructor
      · exact Or.inr
      · rintro (rfl | marked)
        · exact present
        · exact marked
  | none =>
      rw [dictAdd_of_fresh present, Option.getD_some]
      by_cases new : key = ⟨type, padding, timestamp⟩
      · simp [new]
      · rw [dictFind_replace_ne new]
        simp [new]

variable [Libmpdec] [DecimalText] [LocalTime]

omit [DecimalText] [LocalTime] in
theorem updateKline_ne {klines : Dict ℤ KlineInfo} {start other : ℤ} (differ : other ≠ start) :
    dictFind (updateKline klines start deal) other = dictFind klines other :=
  dictFind_replace_ne differ

/-- A deal marks its four k-lines and no mark goes. -/
theorem MarketInfo.count_update (info : MarketInfo) (now : Time) (padding : KlineType → ℕ)
    (deal : Deal) (key : UpdateKey) :
    dictFind (info.count now padding deal).update key = some () ↔
      (key.padding = padding key.klineType ∧
        key.timestamp = klineStart key.klineType (truncate deal.timestamp)) ∨
      dictFind info.update key = some () := by
  obtain ⟨type, pad, timestamp⟩ := key
  simp only [MarketInfo.count, mem_addUpdate, UpdateKey.mk.injEq]
  cases type <;> simp

/-- Every market a deal is counted in is found under its name. -/
theorem marketUpdate_named (named : Named s.markets) (now : Time) (padding : KlineType → ℕ)
    (deal : Deal) : Named (marketUpdate s now padding deal).markets := by
  unfold marketUpdate
  apply named.replace
  cases found : dictFind s.markets deal.market with
  | none => rfl
  | some info => exact named _ info found

/-- A deal forgets nothing: what it changes it marks. -/
theorem marketUpdate_keeps (r : Redis) (now : Time) (padding : KlineType → ℕ) :
    (klineCache s.markets r).Keeps klineToStr
      (klineCache (marketUpdate s now padding deal).markets r) ∧
    ∀ key : KlineKey, deal.market = key.market →
      klineStart key.type (truncate deal.timestamp) = key.start →
      (klineCache (marketUpdate s now padding deal).markets r).dirty key := by
  have marked (key : KlineKey) (market : deal.market = key.market)
      (start : klineStart key.type (truncate deal.timestamp) = key.start) :
      (klineCache (marketUpdate s now padding deal).markets r).dirty key := by
    let info := (dictFind s.markets deal.market).getD (createMarket deal.market)
    refine ⟨info.count now padding deal, padding key.type, ?_, ?_⟩
    · unfold marketUpdate
      rw [← market, dictFind_replace]
    · rw [MarketInfo.count_update]
      exact Or.inl ⟨rfl, start.symm⟩
  refine ⟨?_, marked⟩
  apply WriteBack.Keeps.of_change fun key => deal.market = key.market ∧
    klineStart key.type (truncate deal.timestamp) = key.start
  · exact fun key changed => marked key changed.1 changed.2
  · intro key unchanged
    simp only [klineCache, marketUpdate]
    by_cases own : key.market = deal.market
    · have start : key.start ≠ klineStart key.type (truncate deal.timestamp) :=
        fun start => unchanged ⟨own.symm, start.symm⟩
      rw [own, dictFind_replace, Option.bind_some]
      simp only [MarketInfo.count]
      rw [updateKline_ne start]
      cases dictFind s.markets deal.market with
      | none => simp [createMarket]
      | some info => rfl
    · rw [dictFind_replace_ne own]
  · rintro key ⟨info, pad, found, before⟩
    by_cases own : key.market = deal.market
    · refine ⟨info.count now padding deal, pad, ?_, ?_⟩
      · simp only [marketUpdate]
        rw [own] at found
        rw [own, dictFind_replace, found, Option.getD_some]
      · rw [MarketInfo.count_update]
        exact Or.inr before
    · refine ⟨info, pad, ?_, before⟩
      simp only [marketUpdate]
      rw [dictFind_replace_ne own]
      exact found
  · rfl

end Messages

/-! ## Clearing -/

section Clear

theorem clearDict_find (klines : Dict ℤ KlineInfo) (start t : ℤ) :
    dictFind (clearDict klines start) t = none ∨
      dictFind (clearDict klines start) t = dictFind klines t := by
  have loop (keys : List ℤ) : ∀ dict : Dict ℤ KlineInfo,
      dictFind (keys.foldl (fun klines timestamp =>
          if timestamp < start then dictDelete klines timestamp else klines) dict) t = none ∨
        dictFind (keys.foldl (fun klines timestamp =>
          if timestamp < start then dictDelete klines timestamp else klines) dict) t =
            dictFind dict t := by
    induction keys with
    | nil => exact fun dict => Or.inr rfl
    | cons key keys ih =>
        intro dict
        rw [List.foldl_cons]
        split
        · rcases ih (dictDelete dict key) with gone | same
          · exact Or.inl gone
          · rw [same]
            by_cases own : t = key
            · subst own
              exact Or.inl dictFind_delete
            · exact Or.inr (dictFind_delete_ne own)
        · exact ih dict
  exact loop klines.keys klines

variable [Settings] {markets : Dict String MarketInfo} {s : State}

/-- Clearing one market takes k-lines out of memory and leaves the marks. -/
theorem MarketInfo.clear_keeps [DecimalText] {info : MarketInfo} {name : String}
    (found : dictFind markets name = some info) (r : Redis) (now : ℤ) :
    (klineCache markets r).Keeps klineToStr
      (klineCache (dictReplace markets name (info.clear now)) r) := by
  apply WriteBack.Keeps.of_evict
  · intro key
    by_cases own : key.market = name
    · simp only [klineCache, own, dictFind_replace, found, Option.bind_some]
      unfold MarketInfo.clear
      simp only
      split
      · exact Or.inr rfl
      · exact clearDict_find _ _ _
    · right
      simp [klineCache, dictFind_replace_ne own]
  · rintro key ⟨info', padding, found', marked⟩
    by_cases own : key.market = name
    · rw [own, found] at found'
      obtain rfl := Option.some.inj found'
      refine ⟨info.clear now, padding, ?_, marked⟩
      rw [own, dictFind_replace]
    · refine ⟨info', padding, ?_, marked⟩
      rw [dictFind_replace_ne own]
      exact found'
  · rfl

theorem clearMarkets_keeps [DecimalText] {names : List String} (r : Redis) (now : ℤ) :
    ∀ {markets}, Named markets → Named (clearMarkets now names markets) ∧
      (klineCache markets r).Keeps klineToStr
        (klineCache (clearMarkets now names markets) r) := by
  induction names with
  | nil => exact fun named => ⟨named, .refl _⟩
  | cons name names ih =>
      intro markets named
      rw [clearMarkets]
      cases found : dictFind markets name with
      | none => exact ih named
      | some info =>
          have cleared : Named (dictReplace markets name (info.clear now)) :=
            named.replace (named name info found)
          obtain ⟨named', keeps⟩ := ih cleared
          exact ⟨named', (MarketInfo.clear_keeps found r now).trans keeps⟩

end Clear

/-! ## Runs -/

section Runs

variable [Libmpdec] [DecimalText] [LocalTime] [Settings] {sys : System} {event : Event}
  {events : List Event}

/-- A step that meets the condition forgets nothing, and what it changes is marked. -/
theorem System.on_keeps (named : Named sys.state.markets) (survives : event.Survives)
    (reliable : sys.Reliable event) :
    Named (sys.on event).state.markets ∧
      sys.cache.Keeps klineToStr (sys.on event).cache ∧
      ∀ key, event.changes key → (sys.on event).cache.dirty key := by
  cases event with
  | message now padding text offset =>
      simp only [System.on, onDealsMessage]
      cases read : text.bind readDeal with
      | none =>
          refine ⟨named, .refl _, ?_⟩
          rintro key ⟨deal, valid, _⟩
          rw [read] at valid
          cases valid
      | some deal =>
          obtain ⟨keeps, marked⟩ := marketUpdate_keeps sys.redis now padding
          refine ⟨marketUpdate_named named now padding deal, keeps, ?_⟩
          rintro key ⟨deal', valid, market, start⟩
          rw [read] at valid
          obtain rfl := Option.some.inj valid
          exact marked key market start
  | flush now connected answers =>
      simp only [System.on, System.flush]
      cases connected with
      | false => exact ⟨named, .refl _, nofun⟩
      | true =>
          obtain ⟨named', keeps, _⟩ := flushMarket_keeps now survives named (reliable rfl)
          exact ⟨named', keeps, nofun⟩
  | clear now =>
      obtain ⟨named', keeps⟩ := clearMarkets_keeps sys.redis now named
      exact ⟨named', keeps, nofun⟩

/-- Whatever changed in a run is marked or stored. -/
theorem System.run_settled {changed : KlineKey → Prop} :
    ∀ {sys : System}, Named sys.state.markets → (∀ event ∈ events, event.Survives) →
      sys.ReliableRun events → (∀ key, changed key → sys.cache.Settled klineToStr key) →
      Named (sys.run events).state.markets ∧
        ∀ key, changed key ∨ (∃ event ∈ events, event.changes key) →
          (sys.run events).cache.Settled klineToStr key := by
  induction events generalizing changed with
  | nil =>
      intro sys named _ _ settled
      refine ⟨named, fun key before => ?_⟩
      rcases before with before | ⟨_, mem, _⟩
      · exact settled key before
      · cases mem
  | cons event events ih =>
      intro sys named survives reliable settled
      obtain ⟨named', keeps, marked⟩ :=
        System.on_keeps named (survives event List.mem_cons_self) reliable.1
      obtain ⟨named'', all⟩ := @ih (fun key => changed key ∨ event.changes key) (sys.on event)
        named' (fun event mem => survives event (List.mem_cons_of_mem _ mem)) reliable.2
        fun key before => before.elim (fun old => keeps key (settled key old))
          fun new => Or.inl (marked key new)
      refine ⟨named'', fun key before => all key ?_⟩
      rcases before with old | ⟨event', mem, new⟩
      · exact Or.inl (Or.inl old)
      · rcases List.mem_cons.mp mem with rfl | later
        · exact Or.inl (Or.inr new)
        · exact Or.inr ⟨event', later, new⟩

/-- In a run whose flushes are reliable every k-line that changed is marked or
stored as it is in memory, and after a flush that has written the offset all of
them are stored. -/
theorem klines_flushed (named : Named sys.state.markets)
    (survives : ∀ event ∈ events, event.Survives) (reliable : sys.ReliableRun events) :
    (∀ key, (∃ event ∈ events, event.changes key) →
      (sys.run events).cache.Settled klineToStr key) ∧
    ∀ now answers, (Event.flush now true answers).Survives →
      (sys.run events).state.Reliable answers →
      ((sys.run events).flush now true answers).1 = true →
      ∀ key, (∃ event ∈ events, event.changes key) →
        ((sys.run events).flush now true answers).2.cache.Clean klineToStr key := by
  have before : ∀ key, False → sys.cache.Settled klineToStr key := nofun
  obtain ⟨named', settled⟩ := System.run_settled named survives reliable before
  refine ⟨fun key changed => settled key (Or.inr changed), ?_⟩
  intro now answers alive met ok key changed
  obtain ⟨_, keeps, idle⟩ := flushMarket_keeps now alive named' met
  exact (keeps key (settled key (Or.inr changed))).clean (idle ok key)

end Runs

/-! ## A k-line that is forgotten -/

section Small

/-- Integers are printed as their digits. -/
@[reducible]
def smallText : DecimalText where
  mpdToSci
    | .finite neg coeff 0 => (if neg then "-" else "") ++ toString coeff
    | .finite neg coeff exp => (if neg then "-" else "") ++ toString coeff ++ "e" ++ toString exp
    | .infinity neg => if neg then "-Infinity" else "Infinity"
    | .nan => "NaN"

/-- January 1970 in UTC. -/
@[reducible]
def smallTime : LocalTime where
  date t := (70, 0, t / 86400 + 1)
  mktime day := (day.2.2 - 1) * 86400

@[reducible]
def smallRetention : Settings where
  secMax := 86400 * 7
  minMax := 60 * 24 * 365
  hourMax := 24 * 365 * 10

attribute [local instance] Libmpdec.reference smallText smallTime smallRetention

/-- A process that found nothing in Redis. -/
def emptySystem : System where
  state := ⟨∅, 0, 0⟩
  redis := ⟨fun _ _ => ∅, fun _ => none, fun _ => [], none⟩

/-- A deal of two at ten in the first second after a minute. -/
def smallDeal : Json :=
  .array [.real (121 / 2), .string "BTCCNY", .integer 1, .integer 2, .integer 1, .integer 2,
    .string "10", .string "2", .string "0", .string "0", .integer 2, .integer 7]

def dealMessage : Event :=
  .message 1 (fun _ => 0) (some smallDeal) 1

def smallKey : KlineKey := ⟨"BTCCNY", .sec, 60⟩

/-- The k-line of the second is refused, all else is answered. -/
def refuseSecond : Command → Answer
  | .hset _ ⟨.sec, _, _⟩ => .refused
  | _ => .answered

theorem dealMessage_changes : dealMessage.changes smallKey := by
  have read : (readDeal smallDeal).map (fun deal => (deal.market,
      klineStart .sec (truncate deal.timestamp))) = some ("BTCCNY", 60) := by
    decide +kernel
  obtain ⟨deal, valid, same⟩ := Option.map_eq_some_iff.mp read
  obtain ⟨market, start⟩ := Prod.mk.inj same
  exact ⟨deal, valid, market, start⟩

theorem answered_survives (now : Time) (connected : Bool) :
    (Event.flush now connected fun _ => .answered).Survives := by
  intro _ _
  nofun

/-- A write is refused once; the next flush writes the offset without it. -/
theorem kline_forgotten : ¬ ∀ (events : List Event) (now : Time) (answers : Command → Answer),
    (∀ event ∈ events, event.Survives) → (Event.flush now true answers).Survives →
    ((emptySystem.run events).flush now true answers).1 = true →
    ∀ key, (∃ event ∈ events, event.changes key) →
      ((emptySystem.run events).flush now true answers).2.cache.Clean klineToStr key := by
  intro all
  have survives : ∀ event ∈ [dealMessage, .flush 2 true refuseSecond], event.Survives := by
    intro event mem
    rcases List.mem_pair.mp mem with rfl | rfl
    · trivial
    · intro command executed
      unfold refuseSecond
      split <;> nofun
  have clean := all _ 3 _ survives (answered_survives 3 true) (by decide +kernel) smallKey
    ⟨dealMessage, List.mem_cons_self, dealMessage_changes⟩
  have held : (((emptySystem.run [dealMessage, .flush 2 true refuseSecond]).flush 3 true
      fun _ => .answered).2.cache.memory smallKey).isSome = true := by
    decide +kernel
  have missing : ((emptySystem.run [dealMessage, .flush 2 true refuseSecond]).flush 3 true
      fun _ => .answered).2.cache.stored smallKey = none := by
    decide +kernel
  obtain ⟨kline, found⟩ := Option.isSome_iff_exists.mp held
  have stored := clean kline found
  rw [missing] at stored
  cases stored

/-- Once all is answered the k-line of the second is stored. -/
theorem klines_flushed_small :
    ((emptySystem.run [dealMessage]).flush 2 true fun _ => .answered).2.cache.Clean klineToStr
      smallKey := by
  have named : Named emptySystem.state.markets := by
    intro name info found
    cases found
  have survives : ∀ event ∈ [dealMessage], event.Survives := by
    intro event mem
    obtain rfl := List.mem_singleton.mp mem
    trivial
  have never : (emptySystem.run [dealMessage]).state.lastFlush = 0 := by decide +kernel
  have inTime : ∀ {name info}, dictFind (emptySystem.run [dealMessage]).state.markets name =
      some info → info.updateTime < (emptySystem.run [dealMessage]).state.lastFlush →
      ∀ key, dictFind info.update key = none := by
    intro _ _ _ late
    rw [never] at late
    exact absurd late (Nat.not_lt_zero _)
  exact (klines_flushed named survives ⟨trivial, trivial⟩).2 2 (fun _ => .answered)
    (answered_survives 2 true) ⟨fun _ _ _ => rfl, inTime⟩ (by decide +kernel) smallKey
    ⟨dealMessage, List.mem_cons_self, dealMessage_changes⟩

end Small

end ViabtcServer.MarketPrice
