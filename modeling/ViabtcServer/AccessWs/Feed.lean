import ViabtcServer.Container.Dict
import ViabtcServer.Container.HashTable
import ViabtcServer.Network.Connection
import ViabtcServer.Wire.Word

/-!
# Public feeds

The dictionaries of sessions of `aw_kline.c`, `aw_depth.c`, `aw_price.c`, `aw_state.c`,
`aw_today.c` and `aw_deals.c`. A session is hashed by what is in memory at it, which is
the state of its watcher.
-/

namespace ViabtcServer.AccessWs

open Container
open Network (Addr)
open Wire (Byte)

/-! ## Hashes of sessions -/

/-- `dict_generic_hash_function`. -/
def dictGenericHashFunction (data : List Byte) : BitVec 32 :=
  data.foldl (fun hval byte =>
    let hval := hval ^^^ byte.setWidth 32
    hval + ((hval <<< 1) + (hval <<< 4) + (hval <<< 7) + (hval <<< 8) + (hval <<< 24)))
    0x811c9dc5

/-- The first `sizeof(void *)` bytes at each session: `active` and `pending` of its
watcher. -/
abbrev Heads := Addr → List Byte

/-- `dict_ses_hash_func`. -/
def dictSesHashFunc (heads : Heads) (ses : Addr) : ℕ :=
  (dictGenericHashFunction (heads ses)).toNat

/-! ## Subscribing -/

/-- The dictionaries of one kind: the sessions for each key. -/
abbrev Feed (κ : Type) := Dict κ (HashTable Addr)

section Subscribe

variable {κ : Type} [DecidableEq κ]

/-- The dictionary of sessions of a new key. -/
def newSessions : HashTable Addr := .create 1024 (by decide)

/-- The subscribe functions: a key that is not `good` is refused. -/
def subscribe (good : κ → Bool) (heads : Heads) (feed : Feed κ) (ses : Addr) (key : κ) :
    Feed κ :=
  if !good key then feed
  else
    let sessions := (dictFind feed key).getD newSessions
    dictReplace feed key (sessions.add (dictSesHashFunc heads) ses)

/-- The unsubscribe functions go through all keys. -/
def unsubscribe (heads : Heads) (feed : Feed κ) (ses : Addr) : Feed κ :=
  feed.entries.foldl
    (dictFill fun _ sessions => some (sessions.delete (dictSesHashFunc heads) ses)) ∅

end Subscribe

/-- `struct kline_key`. -/
structure KlineKey where
  market : String
  interval : ℤ
  deriving DecidableEq

/-- `struct depth_key`. -/
structure DepthKey where
  market : String
  interval : String
  limit : ℕ
  deriving DecidableEq

/-- `is_good_limit` and `is_good_interval` of `aw_depth.c`, for the limits and intervals
that are set. -/
structure Settings where
  isGoodLimit : ℕ → Bool
  isGoodInterval : String → Bool

def klineSubscribe (heads : Heads) (feed : Feed KlineKey) (ses : Addr) (market : String)
    (interval : ℤ) : Feed KlineKey :=
  subscribe (fun _ => true) heads feed ses ⟨market, interval⟩

def depthSubscribe (settings : Settings) (heads : Heads) (feed : Feed DepthKey) (ses : Addr)
    (market : String) (limit : ℕ) (interval : String) : Feed DepthKey :=
  subscribe (fun key => settings.isGoodLimit key.limit && settings.isGoodInterval key.interval)
    heads feed ses ⟨market, interval, limit⟩

def priceSubscribe (heads : Heads) (feed : Feed String) (ses : Addr) (market : String) :
    Feed String :=
  subscribe (fun _ => true) heads feed ses market

def stateSubscribe := priceSubscribe

def todaySubscribe := priceSubscribe

def dealsSubscribe := priceSubscribe

def klineUnsubscribe (heads : Heads) (feed : Feed KlineKey) (ses : Addr) : Feed KlineKey :=
  unsubscribe heads feed ses

def depthUnsubscribe (heads : Heads) (feed : Feed DepthKey) (ses : Addr) : Feed DepthKey :=
  unsubscribe heads feed ses

def priceUnsubscribe (heads : Heads) (feed : Feed String) (ses : Addr) : Feed String :=
  unsubscribe heads feed ses

def stateUnsubscribe := priceUnsubscribe

def todayUnsubscribe := priceUnsubscribe

def dealsUnsubscribe := priceUnsubscribe

/-! ## Kinds of feeds -/

inductive Kind
  | kline
  | depth
  | price
  | state
  | today
  | deals
  deriving DecidableEq

namespace Kind

def Key : Kind → Type
  | kline => KlineKey
  | depth => DepthKey
  | price | state | today | deals => String

instance instDecidableEqKey : (kind : Kind) → DecidableEq kind.Key
  | kline => inferInstanceAs (DecidableEq KlineKey)
  | depth => inferInstanceAs (DecidableEq DepthKey)
  | price | state | today | deals => inferInstanceAs (DecidableEq String)

/-- The keys that are not refused. -/
def good (settings : Settings) : (kind : Kind) → kind.Key → Bool
  | depth => fun key => settings.isGoodLimit key.limit && settings.isGoodInterval key.interval
  | kline | price | state | today | deals => fun _ => true

/-- The subscribe function of a kind. -/
def subscribe (settings : Settings) (heads : Heads) :
    (kind : Kind) → Feed kind.Key → Addr → kind.Key → Feed kind.Key
  | kline => fun feed ses key => klineSubscribe heads feed ses key.market key.interval
  | depth => fun feed ses key =>
      depthSubscribe settings heads feed ses key.market key.limit key.interval
  | price => priceSubscribe heads
  | state => stateSubscribe heads
  | today => todaySubscribe heads
  | deals => dealsSubscribe heads

/-- The unsubscribe function of a kind. -/
def unsubscribe (heads : Heads) : (kind : Kind) → Feed kind.Key → Addr → Feed kind.Key
  | kline => klineUnsubscribe heads
  | depth => depthUnsubscribe heads
  | price => priceUnsubscribe heads
  | state => stateUnsubscribe heads
  | today => todayUnsubscribe heads
  | deals => dealsUnsubscribe heads

theorem subscribe_eq (settings : Settings) (heads : Heads) (kind : Kind) :
    kind.subscribe settings heads = AccessWs.subscribe (kind.good settings) heads := by
  cases kind <;> rfl

theorem unsubscribe_eq (heads : Heads) (kind : Kind) :
    kind.unsubscribe heads = AccessWs.unsubscribe heads := by
  cases kind <;> rfl

end Kind

/-- The dictionaries of all kinds. -/
abbrev Feeds := (kind : Kind) → Feed kind.Key

def Feeds.init : Feeds := fun _ => ∅

/-! ## What a feed holds -/

section Stored

variable {κ : Type} [DecidableEq κ] {good : κ → Bool} {heads : Heads} {feed : Feed κ}
  {ses : Addr} {key : κ}

/-- How often a session is stored for a key. -/
def stored (feed : Feed κ) (key : κ) (ses : Addr) : ℕ :=
  ((dictFind feed key).elim [] HashTable.keys).count ses

/-- If a session is stored for a key, it is in the bucket that is selected by what is in
memory at it now. -/
def Placed (heads : Heads) (feed : Feed κ) (ses : Addr) (key : κ) : Prop :=
  ∀ sessions, dictFind feed key = some sessions → ses ∈ sessions.keys →
    ses ∈ sessions.bucket (dictSesHashFunc heads) ses

theorem stored_of_find {sessions : HashTable Addr} (found : dictFind feed key = some sessions)
    (ses : Addr) : stored feed key ses = sessions.keys.count ses := by
  unfold stored
  rw [found]
  rfl

theorem stored_of_none (none_ : dictFind feed key = none) (ses : Addr) :
    stored feed key ses = 0 := by
  unfold stored
  rw [none_]
  rfl

theorem placed_of_find {sessions : HashTable Addr} (found : dictFind feed key = some sessions) :
    Placed heads feed ses key ↔
      (ses ∈ sessions.keys → sessions.find (dictSesHashFunc heads) ses = true) := by
  unfold HashTable.find
  rw [List.contains_iff_mem]
  constructor
  · intro placed
    exact placed sessions found
  · intro all sessions' found'
    rw [found, Option.some.injEq] at found'
    rwa [← found']

theorem dictFind_unsubscribe (heads : Heads) (feed : Feed κ) (ses : Addr) (key : κ) :
    dictFind (unsubscribe heads feed ses) key =
      (dictFind feed key).map (·.delete (dictSesHashFunc heads) ses) := by
  unfold unsubscribe
  rw [dictFind_foldl_fill]
  cases dictFind feed key <;> rfl

/-- Other sessions stay where they are. -/
theorem stored_unsubscribe_other {other : Addr} (differ : ses ≠ other) (key : κ) :
    stored (unsubscribe heads feed ses) key other = stored feed key other := by
  unfold stored
  rw [dictFind_unsubscribe]
  cases dictFind feed key with
  | none => rfl
  | some sessions =>
      change (sessions.delete (dictSesHashFunc heads) ses).keys.count other =
        sessions.keys.count other
      cases found : sessions.find (dictSesHashFunc heads) ses with
      | false => rw [HashTable.delete_of_not_find found]
      | true =>
          have count := HashTable.count_delete found other
          rwa [if_neg differ, Nat.add_zero] at count

/-- A session that is stored once is gone exactly when its hash leads to it. -/
theorem stored_unsubscribe_iff (once : stored feed key ses ≤ 1) :
    stored (unsubscribe heads feed ses) key ses = 0 ↔ Placed heads feed ses key := by
  cases entry : dictFind feed key with
  | none =>
      have gone : dictFind (unsubscribe heads feed ses) key = none := by
        rw [dictFind_unsubscribe, entry]
        rfl
      apply iff_of_true (stored_of_none gone ses)
      intro sessions some_
      rw [entry] at some_
      cases some_
  | some sessions =>
      have left : dictFind (unsubscribe heads feed ses) key =
          some (sessions.delete (dictSesHashFunc heads) ses) := by
        rw [dictFind_unsubscribe, entry]
        rfl
      rw [stored_of_find entry] at once
      rw [stored_of_find left, placed_of_find entry]
      cases found : sessions.find (dictSesHashFunc heads) ses with
      | false =>
          rw [HashTable.delete_of_not_find found, List.count_eq_zero]
          constructor
          · intro absent mem
            exact absurd mem absent
          · intro all mem
            cases all mem
      | true =>
          have count := HashTable.count_delete found ses
          rw [if_pos rfl] at count
          exact iff_of_true (by omega) (fun _ => rfl)

/-- In general, a session is gone exactly when it is stored at most once and its hash leads
to it. -/
theorem stored_unsubscribe_eq_zero_iff :
    stored (unsubscribe heads feed ses) key ses = 0 ↔
      stored feed key ses ≤ 1 ∧ Placed heads feed ses key := by
  by_cases once : stored feed key ses ≤ 1
  · rw [stored_unsubscribe_iff once]
    exact (and_iff_right once).symm
  · apply iff_of_false _ (fun both => once both.1)
    intro gone
    cases entry : dictFind feed key with
    | none =>
        rw [stored_of_none entry] at once
        exact once (Nat.zero_le 1)
    | some sessions =>
        have left : dictFind (unsubscribe heads feed ses) key =
            some (sessions.delete (dictSesHashFunc heads) ses) := by
          rw [dictFind_unsubscribe, entry]
          rfl
        rw [stored_of_find left] at gone
        rw [stored_of_find entry] at once
        cases found : sessions.find (dictSesHashFunc heads) ses with
        | false =>
            rw [HashTable.delete_of_not_find found] at gone
            exact once (gone ▸ Nat.zero_le 1)
        | true =>
            have count := HashTable.count_delete found ses
            rw [if_pos rfl] at count
            omega

theorem stored_newSessions (none_ : dictFind feed key = none) (ses : Addr) :
    stored feed key ses = newSessions.keys.count ses := by
  unfold newSessions
  rw [stored_of_none none_, HashTable.keys_create]
  rfl

/-- What a subscription does at its own key. -/
theorem stored_subscribe (accepted : good key = true) :
    ∃ sessions : HashTable Addr,
      (∀ other, stored feed key other = sessions.keys.count other) ∧
      (Placed heads feed ses key ↔
        (ses ∈ sessions.keys → sessions.find (dictSesHashFunc heads) ses = true)) ∧
      (∀ other, stored (subscribe good heads feed ses key) key other =
        (sessions.add (dictSesHashFunc heads) ses).keys.count other) ∧
      ∀ key', key' ≠ key →
        dictFind (subscribe good heads feed ses key) key' = dictFind feed key' := by
  have taken : subscribe good heads feed ses key =
      dictReplace feed key
        (((dictFind feed key).getD newSessions).add (dictSesHashFunc heads) ses) := by
    unfold subscribe
    rw [accepted]
    rfl
  rw [taken]
  refine ⟨(dictFind feed key).getD newSessions, ?_, ?_,
    stored_of_find dictFind_replace, fun _ differ => dictFind_replace_ne differ⟩
  · intro other
    cases entry : dictFind feed key with
    | none => exact stored_newSessions entry other
    | some sessions => exact stored_of_find entry other
  · cases entry : dictFind feed key with
    | none =>
        have absent : ses ∉ newSessions.keys := by
          rw [← List.count_eq_zero, ← stored_newSessions entry, stored_of_none entry]
        apply iff_of_true
        · intro sessions some_
          rw [entry] at some_
          cases some_
        · intro mem
          exact absurd mem absent
    | some sessions => exact placed_of_find entry

theorem subscribe_of_refused (refused : ¬good key = true) :
    subscribe good heads feed ses key = feed := by
  unfold subscribe
  rw [Bool.not_eq_true] at refused
  rw [refused]
  rfl

/-- Other sessions and keys are as before. -/
theorem stored_subscribe_other {other : Addr} {key' : κ} (differ : ¬(ses = other ∧ key' = key)) :
    stored (subscribe good heads feed ses key) key' other = stored feed key' other := by
  cases accepted : good key with
  | false => rw [subscribe_of_refused (Bool.eq_false_iff.mp accepted)]
  | true =>
      obtain ⟨sessions, before, _, after, others⟩ :=
        @stored_subscribe _ _ good heads feed ses key accepted
      by_cases same : key' = key
      · subst same
        have differ' : ses ≠ other := fun same' => differ ⟨same', rfl⟩
        rw [before, after]
        cases found : sessions.find (dictSesHashFunc heads) ses with
        | true => rw [HashTable.add_of_find found]
        | false => rw [HashTable.count_add found, if_neg differ', Nat.add_zero]
      · unfold stored
        rw [others key' same]

/-- A session is stored once after it is subscribed exactly when it was not before, or
its hash leads to it. -/
theorem stored_subscribe_iff (accepted : good key = true) (once : stored feed key ses ≤ 1) :
    stored (subscribe good heads feed ses key) key ses = 1 ↔ Placed heads feed ses key := by
  obtain ⟨sessions, before, placed, after, _⟩ :=
    @stored_subscribe _ _ good heads feed ses key accepted
  rw [before] at once
  rw [after, placed]
  cases found : sessions.find (dictSesHashFunc heads) ses with
  | false =>
      rw [HashTable.count_add found, if_pos rfl, Nat.add_eq_right, List.count_eq_zero]
      constructor
      · intro absent mem
        exact absurd mem absent
      · intro all mem
        cases all mem
  | true =>
      have mem := HashTable.mem_keys_of_find found
      have positive := List.count_pos_iff.mpr mem
      rw [HashTable.add_of_find found]
      exact iff_of_true (by omega) (fun _ => rfl)

end Stored

end ViabtcServer.AccessWs
