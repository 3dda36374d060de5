import ViabtcServer.MarketPrice.Backed

/-!
# One flush and what Redis holds

A command changes what Redis holds of one market at most. As long as the process
lives and no write of the market is given up for lost, the market stays backed
from one command to the next.
-/

namespace ViabtcServer.MarketPrice

open Decimal Container MatchEngine

/-- No write of the market is given up for lost: Redis refuses no k-line that is to
be written, neither refuses the deals with an error nor loses its reply to them,
and the market is not passed over while something waits. -/
structure MarketInfo.Sound (info : MarketInfo) (answers : Command → Answer) (lastFlush : Time) :
    Prop where
  written : ∀ {key}, dictFind info.update key = some () →
    answers (.hset info.name key) ≠ .error ∧ answers (.hset info.name key) ≠ .refused
  pushed : info.deals ≠ [] →
    answers (.lpush info.name) ≠ .error ∧ answers (.lpush info.name) ≠ .lost
  inTime : info.updateTime < lastFlush → info.Idle

section Send

variable {answers : Command → Answer} {l : Link} {command : Command} {effect : Redis → Redis}

/-- A process that lives after a command lived before it, and what Redis does is
what its answer says. -/
theorem Link.send_lives (lives : (l.send answers command effect).alive = true) :
    l.alive = true ∧ (∀ executed, answers command ≠ .died executed) ∧
      (l.send answers command effect).redis =
        if (answers command).executed then effect l.redis else l.redis := by
  unfold Link.send at lives ⊢
  by_cases alive : l.alive = true
  · rw [if_pos alive] at lives ⊢
    refine ⟨alive, ?_, rfl⟩
    intro executed died
    rw [died] at lives
    cases lives
  · rw [if_neg alive] at lives
    exact absurd lives alive

/-- What a command leaves alone. -/
theorem Link.send_frame {β : Type} {part : Redis → β} (same : ∀ r, part (effect r) = part r) :
    part (l.send answers command effect).redis = part l.redis := by
  unfold Link.send
  split
  · simp only
    split
    · exact same l.redis
    · rfl
  · rfl

end Send

/-! ## Other markets -/

section Frame

variable [DecimalText] {answers : Command → Answer} {info : MarketInfo} {β : Type}
  {part : Redis → β} {lastFlush : Time}

/-- The commands sent for a market leave `part` alone. -/
structure Untouched (part : Redis → β) (name : String) : Prop where
  hset : ∀ type start text r, part (Redis.hset name type start text r) = part r
  setLast : ∀ text r, part (Redis.setLast name text r) = part r
  lpush : ∀ deals r, part (Redis.lpush name deals r) = part r
  ltrim : ∀ r, part (Redis.ltrim name r) = part r

theorem flushUpdateKeys_frame (untouched : Untouched part info.name) {keys : List UpdateKey} :
    ∀ {l update}, part (flushUpdateKeys answers info keys l update).1.redis = part l.redis := by
  induction keys with
  | nil => exact rfl
  | cons key keys ih =>
      intro l update
      rw [flushUpdateKeys, ih]
      unfold flushKline
      split
      · rfl
      · exact Link.send_frame fun r => untouched.hset _ _ _ r

theorem flushPrices_frame (untouched : Untouched part info.name) (l : Link) :
    part (flushPrices answers l info).2.1.redis = part l.redis := by
  have last : part (flushLast answers l info).2.redis = part l.redis :=
    Link.send_frame fun r => untouched.setLast _ r
  unfold flushPrices
  simp only
  split
  · exact last
  split
  · exact last
  rw [← last]
  rcases flushDeals_cases answers (flushLast answers l info).2 info with kept | sent
  · rw [kept]
    exact Link.send_frame fun r => untouched.lpush _ r
  · rw [sent]
    simp only
    rw [Link.send_frame fun r => untouched.ltrim r, Link.send_frame fun r => untouched.lpush _ r]

theorem flushInfo_frame (untouched : Untouched part info.name) (l : Link) :
    part (flushInfo answers l lastFlush info).2.1.redis = part l.redis := by
  unfold flushInfo
  split
  · rfl
  · have sent : part (flushUpdate answers l info).1.redis = part l.redis :=
      flushUpdateKeys_frame untouched
    rw [← sent]
    exact @flushPrices_frame _ answers (flushUpdate answers l info).2 _ _ untouched _

end Frame

/-! ## The market itself -/

section Own

variable [Libmpdec] [DecimalText] {answers : Command → Answer} {info : MarketInfo} {l : Link}
  {lastFlush : Time} {kept : KlineType → ℤ → Prop} {key : UpdateKey} {keys : List UpdateKey}
  {update : Dict UpdateKey Unit}

omit [Libmpdec] [DecimalText] in
theorem Redis.hset_of (name : String) (type : KlineType) (start : ℤ) (text : List String)
    (r : Redis) : (r.hset name type start text).of name =
      { r.of name with
        klines := Function.update (r.klines name) type
          (dictReplace (r.klines name type) start text) } := by
  simp [Redis.hset, Redis.of]

/-- A marked k-line is written, and its mark goes. -/
theorem flushKline_backed [PrintedText]
    (written : answers (.hset info.name key) ≠ .error ∧ answers (.hset info.name key) ≠ .refused)
    (lives : (flushKline answers l info key).2.alive = true)
    (backed : Backed kept { info with update := update } (l.redis.of info.name)) :
    l.alive = true ∧
      Backed kept { info with update := dictDelete update key }
        ((flushKline answers l info key).2.redis.of info.name) := by
  unfold flushKline at lives ⊢
  cases found : dictFind (info.klines key.klineType) key.timestamp with
  | none =>
      rw [found] at lives
      simp only
      refine ⟨lives, ?_, ?_, backed.last, backed.deals, backed.shortKline, backed.shortLast⟩
      · intro type start kept_
        rcases backed.klines kept_ with ⟨padding, marked⟩ | fits
        · left
          refine ⟨padding, ?_⟩
          rw [dictFind_delete_ne]
          · exact marked
          · -- a marked k-line is in memory
            rintro rfl
            have there := backed.present marked
            rw [found] at there
            cases there
        · exact Or.inr fits
      · intro other marked
        by_cases same : other = key
        · rw [same, dictFind_delete] at marked
          cases marked
        · rw [dictFind_delete_ne same] at marked
          exact backed.present marked
  | some kline =>
      rw [found] at lives
      simp only at lives ⊢
      rcases Link.send_lives lives with ⟨alive, survives, redis⟩
      have executed : (answers (.hset info.name key)).executed = true := by
        cases answer : answers (.hset info.name key) with
        | answered => rfl
        | lost => rfl
        | error => exact absurd answer written.1
        | refused => exact absurd answer written.2
        | died executed => exact absurd answer (survives executed)
      rw [executed, if_pos rfl] at redis
      unfold redisCmd
      rw [redis, Redis.hset_of]
      refine ⟨alive, ?_, ?_, backed.last, backed.deals, backed.shortKline, backed.shortLast⟩
      · intro type start kept_
        by_cases own : type = key.klineType ∧ start = key.timestamp
        · rcases own with ⟨rfl, rfl⟩
          right
          simp only [Function.update_self, dictFind_replace]
          rcases klineFromStr_toStr (backed.shortKline found) with ⟨read, ok, alike⟩
          unfold Fits
          rw [Option.bind_some, ok, found]
          exact .some alike
        · rcases backed.klines kept_ with ⟨padding, marked⟩ | fits
          · left
            refine ⟨padding, ?_⟩
            rw [dictFind_delete_ne]
            · exact marked
            · rintro rfl
              exact own ⟨rfl, rfl⟩
          · right
            by_cases sameType : type = key.klineType
            · subst sameType
              have differ : start ≠ key.timestamp := fun same => own ⟨rfl, same⟩
              simp only [Function.update_self]
              rw [dictFind_replace_ne differ]
              exact fits
            · simp only [Function.update_of_ne sameType]
              exact fits
      · intro other marked
        by_cases same : other = key
        · rw [same, dictFind_delete] at marked
          cases marked
        · rw [dictFind_delete_ne same] at marked
          exact backed.present marked

omit [Libmpdec] in
theorem flushUpdateKeys_lives : ∀ {l update},
    (flushUpdateKeys answers info keys l update).1.alive = true → l.alive = true := by
  induction keys with
  | nil => exact fun lives => lives
  | cons key keys ih =>
      intro l update lives
      have next := ih lives
      unfold flushKline at next
      split at next
      · exact next
      · exact (Link.send_lives next).1

theorem flushUpdateKeys_backed [PrintedText] : ∀ {l update},
    (∀ key ∈ keys,
      answers (.hset info.name key) ≠ .error ∧ answers (.hset info.name key) ≠ .refused) →
    (flushUpdateKeys answers info keys l update).1.alive = true →
    Backed kept { info with update := update } (l.redis.of info.name) →
    Backed kept { info with update := (flushUpdateKeys answers info keys l update).2 }
      ((flushUpdateKeys answers info keys l update).1.redis.of info.name) := by
  induction keys with
  | nil => exact fun _ _ backed => backed
  | cons key keys ih =>
      intro l update written lives backed
      have next := flushKline_backed (written key List.mem_cons_self)
        (flushUpdateKeys_lives lives) backed
      exact ih (fun key mem => written key (List.mem_cons_of_mem _ mem)) lives next.2

/-- The last price is sent: where there is a reply, it is stored. -/
theorem flushLast_backed [PrintedText] (lives : (flushLast answers l info).2.alive = true)
    (backed : Backed kept info (l.redis.of info.name)) :
    Backed kept info ((flushLast answers l info).2.redis.of info.name) ∧
      ((flushLast answers l info).1 = true →
        LastFits info.last ((flushLast answers l info).2.redis.last info.name)) := by
  have fits : LastFits info.last (some (mpdToSci info.last)) := PrintedText.sci backed.shortLast
  have written (r : Redis) : (r.setLast info.name (mpdToSci info.last)).of info.name =
      { r.of info.name with last := some (mpdToSci info.last) } := by
    simp [Redis.setLast, Redis.of]
  unfold flushLast redisCmd at lives ⊢
  rcases Link.send_lives lives with ⟨alive, _, redis⟩
  simp only [redis]
  cases executed : (answers (.setLast info.name)).executed with
  | true =>
      simp only [if_true]
      constructor
      · rw [written]
        exact ⟨backed.klines, backed.present, fun _ => fits, backed.deals, backed.shortKline,
          backed.shortLast⟩
      · intro _
        simp only [Redis.setLast, Function.update_self]
        exact fits
  | false =>
      simp only [Bool.false_eq_true, if_false]
      refine ⟨backed, fun ok => ?_⟩
      rw [alive, Bool.true_and, decide_eq_true_iff] at ok
      rw [ok] at executed
      cases executed

omit [Libmpdec] [DecimalText] in
theorem flushDeals_ok : (flushDeals answers l info).1 = (l.alive &&
    decide (answers (.lpush info.name) = .answered ∨ answers (.lpush info.name) = .error)) := by
  unfold flushDeals redisCommandArgv
  simp only
  split
  · rename_i refused
    exact (Bool.not_eq_true' _ ▸ refused).symm
  · rename_i replied
    simp only [Bool.not_eq_true, Bool.not_eq_false'] at replied
    exact replied.symm

omit [DecimalText] in
/-- The deals are pushed and forgotten, or still wait. -/
theorem flushDeals_backed
    (pushed : answers (.lpush info.name) ≠ .error ∧ answers (.lpush info.name) ≠ .lost)
    (lives : (flushDeals answers l info).2.1.alive = true)
    (fits : LastFits info.last (l.redis.last info.name))
    (backed : Backed kept info (l.redis.of info.name)) :
    Backed kept (flushDeals answers l info).2.2
        ((flushDeals answers l info).2.1.redis.of info.name) ∧
      ((flushDeals answers l info).1 = true → (flushDeals answers l info).2.2.deals = []) := by
  have ok := @flushDeals_ok answers info l
  rcases flushDeals_cases answers l info with kept_ | sent
  · rw [kept_] at lives ok ⊢
    rcases Link.send_lives lives with ⟨alive, survives, redis⟩
    rw [alive, Bool.true_and] at ok
    have refused : (answers (.lpush info.name)).executed = false := by
      cases answer : answers (.lpush info.name) with
      | answered => simp [answer] at ok
      | error => rfl
      | lost => exact absurd answer pushed.2
      | refused => rfl
      | died executed => exact absurd answer (survives executed)
    simp only [redis, refused, Bool.false_eq_true, if_false]
    exact ⟨backed, nofun⟩
  · rw [sent] at lives ok ⊢
    rcases Link.send_lives lives with ⟨lives', _, trimmed⟩
    rcases Link.send_lives lives' with ⟨alive, _, redis⟩
    rw [alive, Bool.true_and] at ok
    have answered : (answers (.lpush info.name)).executed = true := by
      rcases of_decide_eq_true ok.symm with answered | refused
      · rw [answered]
        rfl
      · exact absurd refused pushed.1
    rw [answered, if_pos rfl] at redis
    refine ⟨?_, fun _ => rfl⟩
    -- whether or not the list was cut, it begins as it should
    have trim (r : Redis) : ∃ deals, (if (answers (.ltrim info.name)).executed then
        r.ltrim info.name else r).of info.name = { r.of info.name with deals := deals } ∧
          deals.take marketDealsMax = (r.deals info.name).take marketDealsMax := by
      split
      · refine ⟨(r.deals info.name).take marketDealsMax, ?_, ?_⟩
        · simp [Redis.ltrim, Redis.of]
        · rw [List.take_take, Nat.min_self]
      · exact ⟨r.deals info.name, rfl, rfl⟩
    rcases trim (l.redis.lpush info.name info.deals) with ⟨deals, stored, cut⟩
    have pushed_ : (l.redis.lpush info.name info.deals).of info.name =
        { l.redis.of info.name with deals := info.deals.reverse ++ l.redis.deals info.name } := by
      simp [Redis.lpush, Redis.of]
    rw [trimmed, redis, stored, pushed_]
    refine ⟨backed.klines, backed.present, fun _ => fits, ?_, backed.shortKline,
      backed.shortLast⟩
    simp only [List.reverse_nil, List.nil_append]
    rw [cut, ← backed.deals]
    simp [Redis.lpush, Redis.of]

/-- The last price and the deals of a market without marks. -/
theorem flushPrices_backed [PrintedText]
    (pushed : info.deals ≠ [] →
      answers (.lpush info.name) ≠ .error ∧ answers (.lpush info.name) ≠ .lost)
    (lives : (flushPrices answers l info).2.1.alive = true)
    (backed : Backed kept info (l.redis.of info.name)) :
    Backed kept (flushPrices answers l info).2.2
        ((flushPrices answers l info).2.1.redis.of info.name) ∧
      ((flushPrices answers l info).1 = true → (flushPrices answers l info).2.2.deals = []) := by
  unfold flushPrices at lives ⊢
  simp only at lives ⊢
  split
  · rename_i failed
    rw [if_pos failed] at lives
    exact ⟨(flushLast_backed lives backed).1, nofun⟩
  rename_i replied
  rw [if_neg replied] at lives
  split
  · rename_i empty
    rw [if_pos empty] at lives
    exact ⟨(flushLast_backed lives backed).1, fun _ => empty⟩
  rename_i waiting
  rw [if_neg waiting] at lives
  have lives' : (flushLast answers l info).2.alive = true := by
    rcases flushDeals_cases answers (flushLast answers l info).2 info with kept_ | sent
    · rw [kept_] at lives
      exact (Link.send_lives lives).1
    · rw [sent] at lives
      exact (Link.send_lives (Link.send_lives lives).1).1
  rcases flushLast_backed lives' backed with ⟨backed', fits⟩
  have replied' : (flushLast answers l info).1 = true := by simpa using replied
  exact flushDeals_backed (pushed waiting) lives (fits replied') backed'

omit [Libmpdec] in
theorem flushPrices_lives (lives : (flushPrices answers l info).2.1.alive = true) :
    l.alive = true := by
  unfold flushPrices at lives
  simp only at lives
  split at lives
  · exact (Link.send_lives lives).1
  split at lives
  · exact (Link.send_lives lives).1
  rcases flushDeals_cases answers (flushLast answers l info).2 info with kept_ | sent
  · rw [kept_] at lives
    exact (Link.send_lives (Link.send_lives lives).1).1
  · rw [sent] at lives
    exact (Link.send_lives (Link.send_lives (Link.send_lives lives).1).1).1

omit [Libmpdec] in
/-- A flush takes marks and waiting deals from a market, and nothing else. -/
theorem flushPrices_shape (answers : Command → Answer) (l : Link) (info : MarketInfo) :
    ∃ deals, (flushPrices answers l info).2.2 = { info with deals := deals } := by
  unfold flushPrices
  simp only
  split
  · exact ⟨info.deals, rfl⟩
  split
  · exact ⟨info.deals, rfl⟩
  rcases flushDeals_cases answers (flushLast answers l info).2 info with kept_ | sent
  · rw [kept_]
    exact ⟨info.deals, rfl⟩
  · rw [sent]
    exact ⟨[], rfl⟩

omit [Libmpdec] in
theorem flushInfo_shape (answers : Command → Answer) (l : Link) (lastFlush : Time)
    (info : MarketInfo) :
    ∃ update deals, (flushInfo answers l lastFlush info).2.2 =
      { info with update := update, deals := deals } := by
  unfold flushInfo
  split
  · exact ⟨info.update, info.deals, rfl⟩
  · rcases flushPrices_shape answers (flushUpdate answers l info).1 (flushUpdate answers l info).2
      with ⟨deals, shape⟩
    exact ⟨(flushUpdate answers l info).2.update, deals, shape⟩

omit [Libmpdec] in
theorem flushInfo_lives (lives : (flushInfo answers l lastFlush info).2.1.alive = true) :
    l.alive = true := by
  unfold flushInfo at lives
  split at lives
  · exact lives
  · exact flushUpdateKeys_lives (flushPrices_lives lives)

/-- One turn of the loop: the market stays backed, and when the loop goes on
nothing of it waits. -/
theorem flushInfo_backed [PrintedText] (sound : info.Sound answers lastFlush)
    (lives : (flushInfo answers l lastFlush info).2.1.alive = true)
    (backed : Backed kept info (l.redis.of info.name)) :
    Backed kept (flushInfo answers l lastFlush info).2.2
        ((flushInfo answers l lastFlush info).2.1.redis.of info.name) ∧
      ((flushInfo answers l lastFlush info).1 = true →
        (flushInfo answers l lastFlush info).2.2.Idle) := by
  unfold flushInfo at lives ⊢
  by_cases late : info.updateTime < lastFlush
  · rw [if_pos late]
    exact ⟨backed, fun _ => sound.inTime late⟩
  rw [if_neg late] at lives ⊢
  simp only at lives ⊢
  have marked : ∀ key ∈ info.update.keys,
      answers (.hset info.name key) ≠ .error ∧ answers (.hset info.name key) ≠ .refused := by
    intro key mem
    apply sound.written
    obtain ⟨_, present⟩ := Option.isSome_iff_exists.mp (AList.lookup_isSome.mpr mem)
    exact present
  have written : Backed kept (flushUpdate answers l info).2
      ((flushUpdate answers l info).1.redis.of info.name) :=
    flushUpdateKeys_backed marked (flushPrices_lives lives) backed
  rcases @flushPrices_backed _ _ answers (flushUpdate answers l info).2
    (flushUpdate answers l info).1 kept _ sound.pushed lives written with ⟨backed', sent⟩
  refine ⟨backed', fun ok => ⟨?_, sent ok⟩⟩
  intro key
  rcases flushPrices_shape answers (flushUpdate answers l info).1 (flushUpdate answers l info).2
    with ⟨deals, shape⟩
  rw [shape, Option.eq_none_iff_forall_not_mem]
  rintro ⟨⟩ held
  rcases flushUpdateKeys_marks held with ⟨absent, before⟩
  exact absent (AList.mem_keys.mp (AList.lookup_isSome.mp (Option.isSome_of_mem before)))

end Own

/-! ## All markets -/

section Markets

variable [DecimalText] {answers : Command → Answer} {l : Link} {lastFlush : Time}
  {kept : KlineType → ℤ → Prop} {name : String} {names : List String}
  {markets : Dict String MarketInfo} {β : Type} {part : Redis → β}

theorem flushMarkets_lives : ∀ {l markets},
    (flushMarkets answers lastFlush names l markets).2.1.alive = true → l.alive = true := by
  induction names with
  | nil => exact fun lives => lives
  | cons first names ih =>
      intro l markets lives
      rw [flushMarkets] at lives
      split at lives
      · exact ih lives
      · simp only at lives
        split at lives
        · exact flushInfo_lives lives
        · exact flushInfo_lives (ih lives)

theorem flushMarkets_frame (untouched : ∀ name, Untouched part name) : ∀ {l markets},
    part (flushMarkets answers lastFlush names l markets).2.1.redis = part l.redis := by
  induction names with
  | nil => exact rfl
  | cons first names ih =>
      intro l markets
      rw [flushMarkets]
      split
      · exact ih
      · simp only
        split
        · exact flushInfo_frame (untouched _) l
        · exact ih.trans (flushInfo_frame (untouched _) l)

/-- A flush takes marks and waiting deals from the markets, and nothing else. -/
theorem flushMarkets_shape (name : String) : ∀ {l markets}, Named markets →
    Named (flushMarkets answers lastFlush names l markets).2.2 ∧
      ∃ update deals, marketInfo (flushMarkets answers lastFlush names l markets).2.2 name =
        { marketInfo markets name with update := update, deals := deals } := by
  induction names with
  | nil => exact fun named => ⟨named, _, _, rfl⟩
  | cons first names ih =>
      intro l markets named
      rw [flushMarkets]
      cases found : dictFind markets first with
      | none => exact ih named
      | some info =>
          rcases flushInfo_shape answers l lastFlush info with ⟨update, deals, shape⟩
          have named' : Named (dictReplace markets first
              (flushInfo answers l lastFlush info).2.2) := by
            apply named.replace
            rw [shape]
            exact named first info found
          have one : ∃ update deals,
              marketInfo (dictReplace markets first (flushInfo answers l lastFlush info).2.2) name =
                { marketInfo markets name with update := update, deals := deals } := by
            by_cases own : name = first
            · subst own
              rw [marketInfo_replace, marketInfo_of_some found]
              exact ⟨update, deals, shape⟩
            · rw [marketInfo_replace_ne own]
              exact ⟨_, _, rfl⟩
          simp only
          split
          · exact ⟨named', one⟩
          · rcases ih named' with ⟨named'', update', deals', shape'⟩
            rcases one with ⟨update, deals, one⟩
            refine ⟨named'', update', deals', ?_⟩
            rw [shape', one]

omit [DecimalText] in
/-- Where nothing waits nothing can be lost. -/
theorem MarketInfo.Idle.sound {info : MarketInfo} (idle : info.Idle) :
    info.Sound answers lastFlush := by
  refine ⟨?_, fun waiting => absurd idle.2 waiting, fun _ => idle⟩
  intro key marked
  rw [idle.1] at marked
  cases marked

omit [DecimalText] in
theorem untouched_of {other : String} (differ : other ≠ name) :
    Untouched (fun r => r.of name) other := by
  constructor
  · intro type start text r
    simp [Redis.of, Redis.hset, Function.update_of_ne differ.symm]
  · intro text r
    simp [Redis.of, Redis.setLast, Function.update_of_ne differ.symm]
  · intro deals r
    simp [Redis.of, Redis.lpush, Function.update_of_ne differ.symm]
  · intro r
    simp [Redis.of, Redis.ltrim, Function.update_of_ne differ.symm]

omit [DecimalText] in
theorem marketInfo_idle_of_none (absent : dictFind markets name = none) :
    (marketInfo markets name).Idle := by
  unfold marketInfo
  rw [absent]
  exact ⟨fun _ => dictFind_empty, rfl⟩

/-- One turn of the loop, whichever market it is for. -/
theorem flushTurn_backed [Libmpdec] [PrintedText] {first : String} {info : MarketInfo}
    (named : Named markets) (found : dictFind markets first = some info)
    (sound : (marketInfo markets name).Sound answers lastFlush)
    (lives : (flushInfo answers l lastFlush info).2.1.alive = true)
    (backed : Backed kept (marketInfo markets name) (l.redis.of name)) :
    let turn := flushInfo answers l lastFlush info
    let markets' := dictReplace markets first turn.2.2
    Backed kept (marketInfo markets' name) (turn.2.1.redis.of name) ∧
      (turn.1 = true → (marketInfo markets name).Idle ∨ name = first →
        (marketInfo markets' name).Idle) := by
  intro turn markets'
  have called : info.name = first := named first info found
  by_cases own : name = first
  · subst own
    rw [marketInfo_of_some found] at sound backed ⊢
    rw [marketInfo_replace]
    have backed_ : Backed kept info (l.redis.of info.name) := by
      rw [called]
      exact backed
    rcases flushInfo_backed sound lives backed_ with ⟨backed', idle⟩
    rw [called] at backed'
    exact ⟨backed', fun ok _ => idle ok⟩
  · have same : turn.2.1.redis.of name = l.redis.of name :=
      flushInfo_frame (untouched_of (called ▸ Ne.symm own)) l
    rw [marketInfo_replace_ne own, same]
    exact ⟨backed, fun _ idle => idle.resolve_right own⟩

/-- The loop over the markets keeps a market backed, and once it is through
nothing of the market waits. -/
theorem flushMarkets_backed [Libmpdec] [PrintedText] : ∀ {l markets}, Named markets →
    (marketInfo markets name).Sound answers lastFlush →
    (flushMarkets answers lastFlush names l markets).2.1.alive = true →
    Backed kept (marketInfo markets name) (l.redis.of name) →
    Backed kept (marketInfo (flushMarkets answers lastFlush names l markets).2.2 name)
        ((flushMarkets answers lastFlush names l markets).2.1.redis.of name) ∧
      ((flushMarkets answers lastFlush names l markets).1 = true →
        (marketInfo markets name).Idle ∨ name ∈ names →
        (marketInfo (flushMarkets answers lastFlush names l markets).2.2 name).Idle) := by
  induction names with
  | nil =>
      intro l markets _ _ _ backed
      exact ⟨backed, fun _ idle => idle.resolve_right List.not_mem_nil⟩
  | cons first names ih =>
      intro l markets named sound lives backed
      rw [flushMarkets] at lives ⊢
      cases found : dictFind markets first with
      | none =>
          rw [found] at lives
          rcases ih named sound lives backed with ⟨backed', idle'⟩
          refine ⟨backed', fun ok waits => idle' ok ?_⟩
          rcases waits with idle | mem
          · exact Or.inl idle
          · rcases List.mem_cons.mp mem with rfl | later
            · exact Or.inl (marketInfo_idle_of_none found)
            · exact Or.inr later
      | some info =>
          rw [found] at lives
          simp only at lives ⊢
          have lives' : (flushInfo answers l lastFlush info).2.1.alive = true := by
            split at lives
            · exact lives
            · exact flushMarkets_lives lives
          rcases flushTurn_backed named found sound lives' backed with ⟨turn, idle⟩
          cases ok : (flushInfo answers l lastFlush info).1 with
          | false =>
              simp only [Bool.not_false, if_true]
              refine ⟨turn, ?_⟩
              intro done
              cases done
          | true =>
              rw [ok] at lives
              simp only [Bool.not_true, Bool.false_eq_true, if_false] at lives ⊢
              have named' : Named (dictReplace markets first
                  (flushInfo answers l lastFlush info).2.2) := by
                rcases flushInfo_shape answers l lastFlush info with ⟨update, deals, shape⟩
                apply named.replace
                rw [shape]
                exact named first info found
              have sound' : (marketInfo (dictReplace markets first
                  (flushInfo answers l lastFlush info).2.2) name).Sound answers lastFlush := by
                by_cases own : name = first
                · exact (idle ok (Or.inr own)).sound
                · rw [marketInfo_replace_ne own]
                  exact sound
              rcases ih named' sound' lives turn with ⟨backed', idle'⟩
              refine ⟨backed', fun through waits => idle' through ?_⟩
              rcases waits with before | mem
              · exact Or.inl (idle ok (Or.inl before))
              · rcases List.mem_cons.mp mem with own | later
                · exact Or.inl (idle ok (Or.inr own))
                · exact Or.inr later

end Markets

end ViabtcServer.MarketPrice
