import ViabtcServer.AccessWs.Depth
import ViabtcServer.MarketPrice.Resume

/-!
# The depth feed

What the subscribers of a depth are sent: the whole of an answer when they subscribe,
when there was none before, and every minute, and differences in between. A notification
names the market and nothing else of the key. A client that applies those about its market
holds the last answer, as long as it is stored for one key of the market.
-/

namespace ViabtcServer.AccessWs

open Container Decimal Chart
open Network (Addr)
open MarketPrice (PrintedText)

/-! ## The feed -/

/-- `struct depth_val`. -/
structure DepthVal where
  sessions : HashTable Addr
  last : Option MatchEngine.Json
  lastClean : ℤ

/-- A `depth.update` notification: the parameters are `clean`, `result` and `market`. -/
structure DepthUpdate where
  ses : Addr
  clean : Bool
  result : MatchEngine.Json
  market : String

/-- `dict_depth`, what is in memory at the sessions, and the notifications sent. -/
structure DepthFeed where
  heads : Heads
  dictDepth : Dict DepthKey DepthVal
  sent : List DepthUpdate

/-- `CLEAN_INTERVAL`. -/
def cleanInterval : ℤ := 60

/-- `MARKET_NAME_MAX_LEN` and `INTERVAL_MAX_LEN`. -/
def nameMaxLen : ℕ := 16

/-- `broadcast_update`. -/
def broadcastUpdate (key : DepthKey) (sessions : HashTable Addr) (clean : Bool)
    (result : MatchEngine.Json) : List DepthUpdate :=
  sessions.keys.map fun ses => ⟨ses, clean, result, key.market⟩

namespace DepthFeed

def init (heads : Heads) : DepthFeed := ⟨heads, ∅, []⟩

/-- `depth_unsubscribe`. -/
def depthUnsubscribe (feed : DepthFeed) (ses : Addr) : DepthFeed :=
  { feed with
    dictDepth := feed.dictDepth.entries.foldl
      (dictFill fun _ val => some
        { val with sessions := val.sessions.delete (dictSesHashFunc feed.heads) ses }) ∅ }

/-- `depth_subscribe` for a good key. -/
def depthSubscribe (feed : DepthFeed) (ses : Addr) (key : DepthKey) : DepthFeed :=
  let val := (dictFind feed.dictDepth key).getD ⟨newSessions, none, 0⟩
  { feed with
    dictDepth := dictReplace feed.dictDepth key
      { val with sessions := val.sessions.add (dictSesHashFunc feed.heads) ses } }

/-- `depth_send_clean`. -/
def depthSendClean (feed : DepthFeed) (ses : Addr) (key : DepthKey) : DepthFeed :=
  match dictFind feed.dictDepth key with
  | none => feed
  | some val =>
      match val.last with
      | none => feed
      | some last => { feed with sent := feed.sent ++ [⟨ses, true, last, key.market⟩] }

/-- `on_method_depth_subscribe`, but for the answer to the request. -/
def onMethodDepthSubscribe (settings : Settings) (feed : DepthFeed) (ses : Addr)
    (market : String) (limit : ℤ) (interval : String) : DepthFeed :=
  if nameMaxLen ≤ market.utf8ByteSize ∨ limit ≤ 0 ∨ nameMaxLen ≤ interval.utf8ByteSize then feed
  else
    let feed := feed.depthUnsubscribe ses
    let key : DepthKey := ⟨market, interval, limit.toNat⟩
    if settings.isGoodLimit key.limit && settings.isGoodInterval key.interval then
      (feed.depthSubscribe ses key).depthSendClean ses key
    else feed

/-- `on_timer` drops the keys nobody subscribes to, and asks for the others. -/
def onTimer (feed : DepthFeed) : DepthFeed :=
  { feed with
    dictDepth := feed.dictDepth.entries.foldl
      (dictFill fun _ val => if val.sessions.keys.length = 0 then none else some val) ∅ }

section Reply

variable [Libmpdec] [DecimalText]

/-- `on_market_depth_reply`. -/
def onMarketDepthReply (feed : DepthFeed) (key : DepthKey) (result : MatchEngine.Json) (now : ℤ) :
    DepthFeed :=
  match dictFind feed.dictDepth key with
  | none => feed
  | some val =>
      match val.last with
      | none =>
          { feed with
            dictDepth := dictReplace feed.dictDepth key
              { val with last := some result, lastClean := now }
            sent := feed.sent ++ broadcastUpdate key val.sessions true result }
      | some last =>
          match getDepthDiff last result key.limit with
          | none => feed
          | some diff =>
              if now - val.lastClean ≥ cleanInterval then
                { feed with
                  dictDepth := dictReplace feed.dictDepth key
                    { val with last := some result, lastClean := now }
                  sent := feed.sent ++ broadcastUpdate key val.sessions true result }
              else
                { feed with
                  dictDepth := dictReplace feed.dictDepth key { val with last := some result }
                  sent := feed.sent ++ broadcastUpdate key val.sessions false diff }

/-- `on_backend_recv_pkg`, for a request about `key`: an error drops the key. -/
def onBackendRecvPkg (feed : DepthFeed) (key : DepthKey) (reply : MatchEngine.Json) (now : ℤ) :
    DepthFeed :=
  match jsonObjectGet reply "error", jsonObjectGet reply "result" with
  | none, _ => feed
  | some .null, none => feed
  | some .null, some result => feed.onMarketDepthReply key result now
  | some _, _ => { feed with dictDepth := dictDelete feed.dictDepth key }

/-- What happens to the feed. A reply is one to a request about `key`, at any time after
it. -/
inductive Event
  /-- libev changes the watcher of a session. -/
  | watch (ses : Addr) (head : List Wire.Byte)
  | subscribe (ses : Addr) (market : String) (limit : ℤ) (interval : String)
  /-- A request to unsubscribe, or the end of the connection. -/
  | unsubscribe (ses : Addr)
  | timer
  | reply (key : DepthKey) (reply : MatchEngine.Json) (now : ℤ)

def step (settings : Settings) (feed : DepthFeed) : Event → DepthFeed
  | .watch ses head => { feed with heads := Function.update feed.heads ses head }
  | .subscribe ses market limit interval =>
      feed.onMethodDepthSubscribe settings ses market limit interval
  | .unsubscribe ses => feed.depthUnsubscribe ses
  | .timer => feed.onTimer
  | .reply key reply now => feed.onBackendRecvPkg key reply now

def run (settings : Settings) (feed : DepthFeed) (events : List Event) : DepthFeed :=
  events.foldl (step settings) feed

end Reply

end DepthFeed

/-! ## The client -/

/-- The two sides of a depth, each with its best price first. -/
structure DepthBook where
  asks : List (ℚ × ℚ)
  bids : List (ℚᵒᵈ × ℚ)

section Client

variable [Libmpdec]

/-- The units of one side of an answer. -/
def unitsOf (result : MatchEngine.Json) (side : String) : List MatchEngine.Json :=
  (jsonObjectGet result side).elim [] jsonArrayItems

def bookOf (result : MatchEngine.Json) : DepthBook where
  asks := readLevels (fun price => price) (unitsOf result "asks")
  bids := readLevels OrderDual.toDual (unitsOf result "bids")

/-- Each level is put in its place, and the best `limit` of them are kept. -/
def DepthBook.apply (book : DepthBook) (limit : ℕ) (diff : MatchEngine.Json) : DepthBook where
  asks := (putAll (bookOf diff).asks book.asks).take limit
  bids := (putAll (bookOf diff).bids book.bids).take limit

/-- What a client holds after a notification. -/
def receive (limit : ℕ) (book : Option DepthBook) (update : DepthUpdate) : Option DepthBook :=
  if update.clean then some (bookOf update.result)
  else book.map fun book => book.apply limit update.result

/-- What the client at a session holds of a market, from all it was sent about it, when it
keeps as many levels as it subscribed to. -/
def DepthFeed.held (feed : DepthFeed) (key : DepthKey) (ses : Addr) : Option DepthBook :=
  (feed.sent.filter fun update => update.market = key.market ∧ update.ses = ses).foldl
    (receive key.limit) none

/-- One side of an answer: levels in order, with amounts, at most `limit`. -/
structure SideOk {P : Type} [LinearOrder P] (price : ℚ → P) (limit : ℕ)
    (units : List MatchEngine.Json) : Prop where
  readable : Readable units
  ladder : IsLadder (readLevels price units)
  most : units.length ≤ limit

/-- An answer about a depth. -/
structure DepthResult (limit : ℕ) (result : MatchEngine.Json) : Prop where
  asks : ∃ units, jsonObjectGet result "asks" = some (.array units) ∧
    SideOk (fun price : ℚ => price) limit units
  bids : ∃ units, jsonObjectGet result "bids" = some (.array units) ∧
    SideOk OrderDual.toDual limit units

/-- Every session that is stored for a key holds its last answer, if there is one. -/
def DepthFeed.Holds (feed : DepthFeed) : Prop :=
  ∀ key val, dictFind feed.dictDepth key = some val → ∀ last, val.last = some last →
    DepthResult key.limit last ∧
      ∀ ses ∈ val.sessions.keys, feed.held key ses = some (bookOf last)

/-- When a session subscribes to a key, every other key of the market that stores it stores
it once, in the bucket that is selected by what is in memory at it now. -/
def DepthFeed.Event.Placed (settings : Settings) (feed : DepthFeed) : DepthFeed.Event → Prop
  | .subscribe ses market limit interval =>
      (market.utf8ByteSize < nameMaxLen ∧ 0 < limit ∧ interval.utf8ByteSize < nameMaxLen ∧
        settings.isGoodLimit limit.toNat = true ∧ settings.isGoodInterval interval = true) →
      ∀ key val, dictFind feed.dictDepth key = some val → key.market = market →
        key ≠ ⟨market, interval, limit.toNat⟩ → ses ∈ val.sessions.keys →
          val.sessions.keys.count ses = 1 ∧
            val.sessions.find (dictSesHashFunc feed.heads) ses = true
  | _ => True

/-- The answers of a reply are in order. -/
def DepthFeed.Event.Ok : DepthFeed.Event → Prop
  | .reply key answer _ => ∀ result, jsonObjectGet answer "error" = some .null →
      jsonObjectGet answer "result" = some result → DepthResult key.limit result
  | _ => True

/-- All steps of a run meet the condition. -/
def DepthFeed.PlacedRun [DecimalText] (settings : Settings) :
    DepthFeed → List DepthFeed.Event → Prop
  | _, [] => True
  | feed, event :: events =>
      event.Placed settings feed ∧ (feed.step settings event).PlacedRun settings events

end Client

/-! ## One difference -/

section Difference

variable [Libmpdec] [DecimalText] [PrintedText] [ReadsZero] {limit : ℕ}

/-- What `get_list_diff` must answer for lists in order. -/
def ListDiffRight {P : Type} [LinearOrder P] (price : ℚ → P) (side : ℤ) : Prop :=
  ∀ {limit : ℕ} {units1 units2 : List MatchEngine.Json}, SideOk price limit units1 →
    SideOk price limit units2 →
      let diff := getListDiff (some (.array units1)) (some (.array units2)) limit side
      (diff = none ↔ readLevels price units1 = readLevels price units2) ∧
        (putAll (readLevels price (diff.getD [])) (readLevels price units1)).take limit =
          readLevels price units2 ∧
        (putAll (readLevels price (diff.getD [])) (readLevels price units2)).take limit =
          readLevels price units2

theorem listDiffRight {P : Type} [LinearOrder P] {price : ℚ → P} {side : ℤ}
    (sided : Sided price side) : ListDiffRight price side := by
  intro limit units1 units2 ok1 ok2
  have most1 : (readLevels price units1).length ≤ limit :=
    (readLevels_length ok1.readable).le.trans ok1.most
  have most2 : (readLevels price units2).length ≤ limit :=
    (readLevels_length ok2.readable).le.trans ok2.most
  rcases getListDiff_reads sided ok1.readable ok2.readable limit with ⟨none_, levels⟩
  simp only [levels]
  refine ⟨none_.trans (difference_eq_nil_iff ok1.ladder ok2.ladder most1 most2),
    take_putAll_difference ok1.ladder ok2.ladder most2, ?_⟩
  rw [putAll_difference_again ok1.ladder ok2.ladder, List.take_of_length_le most2]

omit [PrintedText] [ReadsZero] in
/-- The sides of a difference are those of its lists. -/
theorem getDepthDiff_sides {first second diff : MatchEngine.Json}
    (some_ : getDepthDiff first second limit = some diff) :
    unitsOf diff "asks" = (getListDiff (jsonObjectGet first "asks")
        (jsonObjectGet second "asks") limit 1).getD [] ∧
      unitsOf diff "bids" = (getListDiff (jsonObjectGet first "bids")
        (jsonObjectGet second "bids") limit (-1)).getD [] := by
  unfold getDepthDiff at some_
  generalize getListDiff (jsonObjectGet first "asks") (jsonObjectGet second "asks") limit 1 = asks
    at some_ ⊢
  generalize getListDiff (jsonObjectGet first "bids") (jsonObjectGet second "bids") limit (-1) =
    bids at some_ ⊢
  cases asks with
  | none =>
      cases bids with
      | none => cases some_
      | some bids =>
          obtain rfl := Option.some.inj some_
          exact ⟨rfl, rfl⟩
  | some asks =>
      cases bids with
      | none =>
          obtain rfl := Option.some.inj some_
          exact ⟨rfl, rfl⟩
      | some bids =>
          obtain rfl := Option.some.inj some_
          exact ⟨rfl, rfl⟩

/-- A difference leads from the first answer to the second one, and leaves that. -/
theorem getDepthDiff_applied {first second diff : MatchEngine.Json}
    (ok : DepthResult limit first) (ok' : DepthResult limit second)
    (some_ : getDepthDiff first second limit = some diff) :
    (bookOf first).apply limit diff = bookOf second ∧
      (bookOf second).apply limit diff = bookOf second := by
  rcases getDepthDiff_sides some_ with ⟨asks, bids⟩
  rcases ok.asks with ⟨asks1, eq1, asksOk1⟩
  rcases ok'.asks with ⟨asks2, eq2, asksOk2⟩
  rcases ok.bids with ⟨bids1, eq3, bidsOk1⟩
  rcases ok'.bids with ⟨bids2, eq4, bidsOk2⟩
  rcases listDiffRight sided_asks asksOk1 asksOk2 with ⟨_, turned, again⟩
  rcases listDiffRight sided_bids bidsOk1 bidsOk2 with ⟨_, turned', again'⟩
  rw [eq1, eq2] at asks
  rw [eq3, eq4] at bids
  have asksOf1 : unitsOf first "asks" = asks1 := by unfold unitsOf; rw [eq1]; rfl
  have asksOf2 : unitsOf second "asks" = asks2 := by unfold unitsOf; rw [eq2]; rfl
  have bidsOf1 : unitsOf first "bids" = bids1 := by unfold unitsOf; rw [eq3]; rfl
  have bidsOf2 : unitsOf second "bids" = bids2 := by unfold unitsOf; rw [eq4]; rfl
  unfold DepthBook.apply bookOf
  rw [asks, bids, asksOf1, asksOf2, bidsOf1, bidsOf2]
  exact ⟨congrArg₂ DepthBook.mk turned turned', congrArg₂ DepthBook.mk again again'⟩

end Difference

/-! ## Runs -/

section Runs

variable [Libmpdec] [DecimalText] [PrintedText] [ReadsZero] {feed : DepthFeed} {key : DepthKey}
  {ses : Addr} {settings : Settings}

namespace DepthFeed

/-- No session is stored for two keys of one market. -/
def Apart (feed : DepthFeed) : Prop :=
  ∀ key val, dictFind feed.dictDepth key = some val → ∀ other val',
    dictFind feed.dictDepth other = some val' → key.market = other.market →
      ∀ ses ∈ val.sessions.keys, ses ∈ val'.sessions.keys → key = other

omit [DecimalText] [PrintedText] [ReadsZero] in
theorem held_append (sent : List DepthUpdate) (key : DepthKey) (ses : Addr) :
    held { feed with sent := feed.sent ++ sent } key ses =
      (sent.filter fun update => update.market = key.market ∧ update.ses = ses).foldl
        (receive key.limit) (feed.held key ses) := by
  unfold held
  rw [List.filter_append, List.foldl_append]

omit [Libmpdec] [DecimalText] [PrintedText] [ReadsZero] in
/-- Of a broadcast a session is sent its own copies. -/
theorem mem_broadcast {sessions : HashTable Addr} {clean : Bool} {result : MatchEngine.Json}
    {market : String} {update : DepthUpdate} :
    update ∈ (broadcastUpdate key sessions clean result).filter
        (fun update => update.market = market ∧ update.ses = ses) ↔
      update = ⟨ses, clean, result, key.market⟩ ∧ key.market = market ∧ ses ∈ sessions.keys := by
  unfold broadcastUpdate
  rw [List.mem_filter, List.mem_map, decide_eq_true_eq]
  constructor
  · rintro ⟨⟨ses', mem, rfl⟩, rfl, rfl⟩
    exact ⟨rfl, rfl, mem⟩
  · rintro ⟨rfl, rfl, mem⟩
    exact ⟨⟨ses, mem, rfl⟩, rfl, rfl⟩

omit [DecimalText] [PrintedText] [ReadsZero] in
/-- A session of the key holds what one copy or more make of what it held. -/
theorem held_broadcast {sessions : HashTable Addr} {clean : Bool} {result : MatchEngine.Json}
    {other : DepthKey} {book : DepthBook} (market : key.market = other.market)
    (mem : ses ∈ sessions.keys)
    (first : receive other.limit (feed.held other ses) ⟨ses, clean, result, key.market⟩ =
      some book)
    (again : receive other.limit (some book) ⟨ses, clean, result, key.market⟩ = some book) :
    held { feed with sent := feed.sent ++ broadcastUpdate key sessions clean result } other ses =
      some book := by
  have settle (updates : List DepthUpdate)
      (all : ∀ update ∈ updates, update = ⟨ses, clean, result, key.market⟩) :
      updates.foldl (receive other.limit) (some book) = some book := by
    induction updates with
    | nil => rfl
    | cons update updates ih =>
        rw [List.foldl_cons, all update List.mem_cons_self, again]
        exact ih fun other mem => all other (List.mem_cons_of_mem _ mem)
  rw [held_append]
  cases copies : (broadcastUpdate key sessions clean result).filter
      fun update => update.market = other.market ∧ update.ses = ses with
  | nil =>
      have own : (⟨ses, clean, result, key.market⟩ : DepthUpdate) ∈ ([] : List DepthUpdate) := by
        rw [← copies, mem_broadcast]
        exact ⟨rfl, market, mem⟩
      cases own
  | cons update updates =>
      have all : ∀ other ∈ update :: updates, other = ⟨ses, clean, result, key.market⟩ := by
        intro other mem
        rw [← copies, mem_broadcast] at mem
        exact mem.1
      rw [List.foldl_cons, all update List.mem_cons_self, first]
      exact settle updates fun other mem => all other (List.mem_cons_of_mem _ mem)

omit [DecimalText] [PrintedText] [ReadsZero] in
/-- It reaches no other session, and is about no other market. -/
theorem held_broadcast_ne {sessions : HashTable Addr} {clean : Bool} {result : MatchEngine.Json}
    {other : DepthKey} (differ : key.market = other.market → ses ∉ sessions.keys) :
    held { feed with sent := feed.sent ++ broadcastUpdate key sessions clean result } other ses =
      feed.held other ses := by
  have none_ : (broadcastUpdate key sessions clean result).filter
      (fun update => update.market = other.market ∧ update.ses = ses) = [] := by
    rw [List.eq_nil_iff_forall_not_mem]
    intro update mem
    rcases mem_broadcast.mp mem with ⟨_, same, reached⟩
    exact differ same reached
  rw [held_append, none_]
  rfl

/-! ### Steps -/

/-- What is kept of a feed: its sessions hold the last answers, and are stored for one key
of a market. -/
structure Inv (feed : DepthFeed) : Prop where
  holds : feed.Holds
  apart : feed.Apart

omit [DecimalText] [PrintedText] [ReadsZero] in
/-- A step that keeps what was sent and adds no session keeps what sessions hold. -/
theorem Inv.of_less (inv : feed.Inv) {dictDepth : Dict DepthKey DepthVal} {heads : Heads}
    (less : ∀ key val, dictFind dictDepth key = some val → ∃ old,
      dictFind feed.dictDepth key = some old ∧ val.last = old.last ∧
        ∀ ses ∈ val.sessions.keys, ses ∈ old.sessions.keys) :
    Inv { feed with dictDepth := dictDepth, heads := heads } where
  holds key val found last some_ := by
    rcases less key val found with ⟨old, found', same, sessions⟩
    rw [same] at some_
    rcases inv.holds key old found' last some_ with ⟨ok, all⟩
    exact ⟨ok, fun ses mem => all ses (sessions ses mem)⟩
  apart key val found other val' found' market ses mem mem' := by
    rcases less key val found with ⟨old, there, _, sessions⟩
    rcases less other val' found' with ⟨old', there', _, sessions'⟩
    exact inv.apart key old there other old' there' market ses (sessions ses mem)
      (sessions' ses mem')

omit [Libmpdec] [DecimalText] [PrintedText] [ReadsZero] in
theorem dictFind_depthUnsubscribe (feed : DepthFeed) (ses : Addr) (key : DepthKey) :
    dictFind (feed.depthUnsubscribe ses).dictDepth key =
      (dictFind feed.dictDepth key).map fun val =>
        { val with sessions := val.sessions.delete (dictSesHashFunc feed.heads) ses } := by
  unfold DepthFeed.depthUnsubscribe
  rw [dictFind_foldl_fill]
  cases dictFind feed.dictDepth key <;> rfl

omit [DecimalText] [PrintedText] [ReadsZero] in
theorem Inv.depthUnsubscribe (inv : feed.Inv) (ses : Addr) : (feed.depthUnsubscribe ses).Inv := by
  apply inv.of_less
  intro key val found
  have left := (dictFind_depthUnsubscribe feed ses key).symm.trans found
  rcases Option.map_eq_some_iff.mp left with ⟨old, found', rfl⟩
  exact ⟨old, found', rfl, fun other mem => HashTable.mem_of_mem_delete mem⟩

omit [DecimalText] [PrintedText] [ReadsZero] in
theorem Inv.onTimer (inv : feed.Inv) : feed.onTimer.Inv := by
  apply inv.of_less
  intro key val found
  rw [dictFind_foldl_fill] at found
  rcases Option.bind_eq_some_iff.mp found with ⟨old, found', same⟩
  split at same
  · cases same
  · obtain rfl := Option.some.inj same
    exact ⟨old, found', rfl, fun other mem => mem⟩

/-- No other key of the market stores the session. -/
def Free (feed : DepthFeed) (ses : Addr) (key : DepthKey) : Prop :=
  ∀ other val, dictFind feed.dictDepth other = some val → other.market = key.market →
    other ≠ key → ses ∉ val.sessions.keys

omit [Libmpdec] [DecimalText] [PrintedText] [ReadsZero] in
/-- What is stored once, where its hash leads, is gone after the session is unsubscribed. -/
theorem free_depthUnsubscribe
    (placed : ∀ other val, dictFind feed.dictDepth other = some val → other.market = key.market →
      other ≠ key → ses ∈ val.sessions.keys → val.sessions.keys.count ses = 1 ∧
        val.sessions.find (dictSesHashFunc feed.heads) ses = true) :
    (feed.depthUnsubscribe ses).Free ses key := by
  intro other val found market differ mem
  rw [dictFind_depthUnsubscribe] at found
  rcases Option.map_eq_some_iff.mp found with ⟨old, found', rfl⟩
  rcases placed other old found' market differ (HashTable.mem_of_mem_delete mem) with ⟨once, there⟩
  have count := HashTable.count_delete there ses
  rw [if_pos rfl, once] at count
  have left := List.count_pos_iff.mpr mem
  simp only at left
  omega

omit [Libmpdec] [DecimalText] [PrintedText] [ReadsZero] in
theorem dictFind_depthSubscribe (feed : DepthFeed) (ses : Addr) (key : DepthKey) :
    dictFind (feed.depthSubscribe ses key).dictDepth key =
      some { (dictFind feed.dictDepth key).getD ⟨newSessions, none, 0⟩ with
        sessions := ((dictFind feed.dictDepth key).getD ⟨newSessions, none, 0⟩).sessions.add
          (dictSesHashFunc feed.heads) ses } :=
  dictFind_replace

omit [Libmpdec] [DecimalText] [PrintedText] [ReadsZero] in
/-- After a subscription an entry has the last answer it had, and its sessions but for the new
one. -/
theorem of_depthSubscribe {other : DepthKey} {val : DepthVal}
    (found : dictFind (feed.depthSubscribe ses key).dictDepth other = some val) :
    (∃ old, dictFind feed.dictDepth other = some old ∧ val.last = old.last ∧
      ∀ ses' ∈ val.sessions.keys, (other = key ∧ ses' = ses) ∨ ses' ∈ old.sessions.keys) ∨
    (other = key ∧ val.last = none ∧ ∀ ses' ∈ val.sessions.keys, ses' = ses) := by
  by_cases same : other = key
  · subst same
    rw [dictFind_depthSubscribe] at found
    obtain rfl := Option.some.inj found
    cases old : dictFind feed.dictDepth other with
    | none =>
        refine Or.inr ⟨rfl, rfl, fun ses' mem => ?_⟩
        rcases HashTable.mem_of_mem_add mem with new | there
        · exact new
        · change ses' ∈ newSessions.keys at there
          unfold newSessions at there
          rw [HashTable.keys_create] at there
          cases there
    | some val =>
        refine Or.inl ⟨val, rfl, rfl, fun ses' mem => ?_⟩
        rcases HashTable.mem_of_mem_add mem with new | there
        · exact Or.inl ⟨rfl, new⟩
        · exact Or.inr there
  · have before : dictFind feed.dictDepth other = some val :=
      (dictFind_replace_ne same).symm.trans found
    exact Or.inl ⟨val, before, rfl, fun ses' mem => Or.inr mem⟩

omit [Libmpdec] [DecimalText] [PrintedText] [ReadsZero] in
theorem Apart.depthSubscribe (apart : feed.Apart) (free : feed.Free ses key) :
    (feed.depthSubscribe ses key).Apart := by
  -- the new session is in no other entry of the market, nor was it before
  have own {one : DepthKey} {val : DepthVal}
      (found : dictFind (feed.depthSubscribe ses key).dictDepth one = some val)
      (market : key.market = one.market) (mem : ses ∈ val.sessions.keys) : one = key := by
    rcases of_depthSubscribe found with ⟨old, before, _, sessions⟩ | ⟨same, _⟩
    · rcases sessions ses mem with ⟨same, _⟩ | there
      · exact same
      · by_contra differ
        exact free one old before market.symm differ there
    · exact same
  intro one val found other val' found' market ses' mem mem'
  by_cases new : ses' = ses ∧ key.market = one.market
  · rcases new with ⟨rfl, market'⟩
    rw [own found market' mem, own found' (market'.trans market) mem']
  · have old {one : DepthKey} {val : DepthVal} (new : ¬(ses' = ses ∧ key.market = one.market))
        (found : dictFind (feed.depthSubscribe ses key).dictDepth one = some val)
        (mem : ses' ∈ val.sessions.keys) :
        ∃ old, dictFind feed.dictDepth one = some old ∧ ses' ∈ old.sessions.keys := by
      rcases of_depthSubscribe found with ⟨old, before, _, sessions⟩ | ⟨rfl, _, sessions⟩
      · rcases sessions ses' mem with ⟨rfl, same⟩ | there
        · exact absurd ⟨same, rfl⟩ new
        · exact ⟨old, before, there⟩
      · exact absurd ⟨sessions ses' mem, rfl⟩ new
    rcases old new found mem with ⟨val, before, there⟩
    rcases old (fun both => new ⟨both.1, both.2.trans market.symm⟩) found' mem' with
      ⟨val', before', there'⟩
    exact apart one val before other val' before' market ses' there there'

omit [DecimalText] [PrintedText] [ReadsZero] in
/-- A session that subscribes is sent the last answer, if there is one. -/
theorem Inv.depthSubscribe (inv : feed.Inv) (free : feed.Free ses key) :
    ((feed.depthSubscribe ses key).depthSendClean ses key).Inv := by
  have apart := inv.apart.depthSubscribe free
  have own := dictFind_depthSubscribe feed ses key
  have earlier {other : DepthKey} {val : DepthVal} {last : MatchEngine.Json}
      (found : dictFind (feed.depthSubscribe ses key).dictDepth other = some val)
      (some_ : val.last = some last) :
      DepthResult other.limit last ∧ ∀ ses' ∈ val.sessions.keys,
        (other = key ∧ ses' = ses) ∨ feed.held other ses' = some (bookOf last) := by
    rcases of_depthSubscribe found with ⟨old, before, same, sessions⟩ | ⟨_, none_, _⟩
    · rcases inv.holds other old before last (same ▸ some_) with ⟨ok, all⟩
      exact ⟨ok, fun ses' mem => (sessions ses' mem).imp_right (all ses')⟩
    · rw [none_] at some_
      cases some_
  unfold depthSendClean
  rw [own]
  simp only
  cases answer : ((dictFind feed.dictDepth key).getD ⟨newSessions, none, 0⟩).last with
  | none =>
      refine ⟨?_, apart⟩
      intro other val found last some_
      rcases earlier found some_ with ⟨ok, all⟩
      refine ⟨ok, fun ses' mem => ?_⟩
      rcases all ses' mem with ⟨rfl, _⟩ | held
      · rw [own] at found
        obtain rfl := Option.some.inj found
        cases answer.symm.trans some_
      · exact held
  | some whole =>
      refine ⟨?_, apart⟩
      intro other val found last some_
      rcases earlier found some_ with ⟨ok, all⟩
      refine ⟨ok, fun ses' mem => ?_⟩
      rw [held_append]
      by_cases reached : key.market = other.market ∧ ses = ses'
      · rcases reached with ⟨market, rfl⟩
        have mem' : ses ∈ (((dictFind feed.dictDepth key).getD ⟨newSessions, none, 0⟩).sessions.add
            (dictSesHashFunc feed.heads) ses).keys := HashTable.mem_keys_add
        obtain rfl := apart key _ own other val found market ses mem' mem
        rw [own] at found
        obtain rfl := Option.some.inj found
        obtain rfl := Option.some.inj (answer.symm.trans some_)
        rw [List.filter_cons_of_pos (by simp)]
        rfl
      · rw [List.filter_cons_of_neg (by simpa using reached)]
        rcases all ses' mem with ⟨rfl, rfl⟩ | held
        · exact absurd ⟨rfl, rfl⟩ reached
        · exact held

omit [Libmpdec] [DecimalText] [PrintedText] [ReadsZero] in
/-- A new answer for a key moves no session. -/
theorem Apart.replace (apart : feed.Apart) {val new : DepthVal}
    (found : dictFind feed.dictDepth key = some val) (same : new.sessions = val.sessions)
    (sent : List DepthUpdate) :
    Apart { feed with dictDepth := dictReplace feed.dictDepth key new, sent := sent } := by
  have old {one : DepthKey} {val' : DepthVal}
      (found' : dictFind (dictReplace feed.dictDepth key new) one = some val') :
      ∃ old, dictFind feed.dictDepth one = some old ∧ old.sessions = val'.sessions := by
    by_cases own : one = key
    · subst own
      rw [dictFind_replace] at found'
      obtain rfl := Option.some.inj found'
      exact ⟨val, found, same.symm⟩
    · rw [dictFind_replace_ne own] at found'
      exact ⟨val', found', rfl⟩
  intro one val₁ found₁ other val₂ found₂ market ses mem mem'
  rcases old found₁ with ⟨old₁, before₁, same₁⟩
  rcases old found₂ with ⟨old₂, before₂, same₂⟩
  exact apart one old₁ before₁ other old₂ before₂ market ses (same₁ ▸ mem) (same₂ ▸ mem')

theorem Inv.onMarketDepthReply (inv : feed.Inv) {result : MatchEngine.Json}
    (ok : DepthResult key.limit result) (now : ℤ) :
    (feed.onMarketDepthReply key result now).Inv := by
  unfold DepthFeed.onMarketDepthReply
  split
  case h_1 => exact inv
  case h_2 val found =>
    have replaced (lastClean : ℤ) (clean : Bool) (body : MatchEngine.Json)
        (reached : ∀ ses ∈ val.sessions.keys,
          receive key.limit (feed.held key ses) ⟨ses, clean, body, key.market⟩ =
            some (bookOf result) ∧
          receive key.limit (some (bookOf result)) ⟨ses, clean, body, key.market⟩ =
            some (bookOf result)) :
        Inv { feed with
          dictDepth := dictReplace feed.dictDepth key
            { sessions := val.sessions, last := some result, lastClean := lastClean }
          sent := feed.sent ++ broadcastUpdate key val.sessions clean body } := by
      constructor
      case apart =>
        apply inv.apart.replace found
        rfl
      intro other val' found' last some_
      by_cases same : other = key
      · subst same
        rw [dictFind_replace] at found'
        obtain rfl := Option.some.inj found'
        obtain rfl := Option.some.inj some_
        exact ⟨ok, fun ses mem => held_broadcast rfl mem (reached ses mem).1 (reached ses mem).2⟩
      · rw [dictFind_replace_ne same] at found'
        rcases inv.holds other val' found' last some_ with ⟨ok', all⟩
        refine ⟨ok', fun ses mem => (held_broadcast_ne fun market mem' => ?_).trans (all ses mem)⟩
        exact same (inv.apart other val' found' key val found market.symm ses mem mem')
    split
    case h_1 fresh =>
      exact replaced _ true result fun ses _ => ⟨rfl, rfl⟩
    case h_2 last some_ =>
      rcases inv.holds key val found last some_ with ⟨ok', all⟩
      split
      case h_1 => exact inv
      case h_2 diff different =>
        split
        case isTrue =>
          exact replaced _ true result fun ses _ => ⟨rfl, rfl⟩
        case isFalse =>
          rcases getDepthDiff_applied ok' ok different with ⟨turned, again⟩
          apply replaced _ false diff
          intro ses mem
          rw [all ses mem]
          exact ⟨congrArg some turned, congrArg some again⟩

theorem Inv.step (inv : feed.Inv) {event : Event} (ok : event.Ok)
    (placed : event.Placed settings feed) : (feed.step settings event).Inv := by
  cases event with
  | watch ses head => exact inv.of_less fun key val found => ⟨val, found, rfl, fun _ mem => mem⟩
  | subscribe ses market limit interval =>
      change (feed.onMethodDepthSubscribe settings ses market limit interval).Inv
      unfold onMethodDepthSubscribe
      by_cases refused : nameMaxLen ≤ market.utf8ByteSize ∨ limit ≤ 0 ∨
          nameMaxLen ≤ interval.utf8ByteSize
      · rw [if_pos refused]
        exact inv
      · rw [if_neg refused]
        have left := inv.depthUnsubscribe ses
        by_cases good : (settings.isGoodLimit limit.toNat &&
            settings.isGoodInterval interval) = true
        · rw [not_or, not_or, not_le, not_le, not_le] at refused
          rcases refused with ⟨short, positive, short'⟩
          rcases (Bool.and_eq_true _ _).mp good with ⟨goodLimit, goodInterval⟩
          have free : (feed.depthUnsubscribe ses).Free ses ⟨market, interval, limit.toNat⟩ :=
            free_depthUnsubscribe (placed ⟨short, positive, short', goodLimit, goodInterval⟩)
          exact (if_pos good).symm ▸ left.depthSubscribe free
        · exact (if_neg good).symm ▸ left
  | unsubscribe ses => exact inv.depthUnsubscribe ses
  | timer => exact inv.onTimer
  | reply key answer now =>
      change (feed.onBackendRecvPkg key answer now).Inv
      unfold onBackendRecvPkg
      split
      case h_1 => exact inv
      case h_2 => exact inv
      case h_3 result error some_ => exact inv.onMarketDepthReply (ok result error some_) now
      case h_4 =>
        apply inv.of_less
        intro other val found
        have differ : other ≠ key := by
          rintro rfl
          rw [dictFind_delete] at found
          cases found
        rw [dictFind_delete_ne differ] at found
        exact ⟨val, found, rfl, fun _ mem => mem⟩

theorem Inv.run {events : List Event} (inv : feed.Inv) (ok : ∀ event ∈ events, event.Ok)
    (placed : feed.PlacedRun settings events) : (feed.run settings events).Inv := by
  induction events generalizing feed with
  | nil => exact inv
  | cons event events ih =>
      exact ih (inv.step (ok event List.mem_cons_self) placed.1)
        (fun other mem => ok other (List.mem_cons_of_mem _ mem)) placed.2

end DepthFeed

/-- The difference of two lists in order, applied to the first one, gives the second one,
and there is none only between equal lists. So after any run in which subscriptions leave
the other keys of their market, every session that is stored for a key holds the last answer
about it. -/
theorem depth_updates_reproduce :
    ListDiffRight (fun price : ℚ => price) 1 ∧ ListDiffRight (OrderDual.toDual : ℚ → ℚᵒᵈ) (-1) ∧
      ∀ (settings : Settings) (heads : Heads) (events : List DepthFeed.Event),
        (∀ event ∈ events, event.Ok) → (DepthFeed.init heads).PlacedRun settings events →
          ((DepthFeed.init heads).run settings events).Holds := by
  refine ⟨listDiffRight sided_asks, listDiffRight sided_bids, ?_⟩
  intro settings heads events ok placed
  have start : (DepthFeed.init heads).Inv := by
    constructor
    · intro key val found
      cases dictFind_empty.symm.trans found
    · intro key val found
      cases dictFind_empty.symm.trans found
  exact (start.run ok placed).holds

end Runs

/-! ## Two keys of a market -/

section Small

attribute [local instance] Libmpdec.reference MarketPrice.smallText MarketPrice.printedText_small

theorem readsZero_small : ReadsZero :=
  ⟨⟨.finite false 0 0, by decide +kernel, rfl, by decide +kernel⟩⟩

attribute [local instance] readsZero_small

/-- Levels as an answer has them. -/
def levelUnits (levels : List (String × String)) : List MatchEngine.Json :=
  levels.map fun level => .array [.string level.1, .string level.2]

/-- An answer about a depth. -/
def smallDepth (asks bids : List (String × String)) : MatchEngine.Json :=
  .object [("asks", .array (levelUnits asks)), ("bids", .array (levelUnits bids))]

/-- A reply with an answer. -/
def smallReply (key : DepthKey) (result : MatchEngine.Json) (now : ℤ) : DepthFeed.Event :=
  .reply key (.object [("error", .null), ("result", result)]) now

/-- The levels are numbers in order, with amounts. -/
def goodLevels (side : ℚ) (limit : ℕ) (levels : List (String × String)) : Bool :=
  let units := levelUnits levels
  let read : List (ℚ × ℚ) := units.filterMap readLevel
  units.all (fun unit => (readLevel unit).isSome) && decide (units.length ≤ limit) &&
    decide (read.Pairwise fun one other => one.1 * side < other.1 * side) &&
    decide (∀ level ∈ read, level.2 ≠ 0)

theorem smallReply_ok {key : DepthKey} {asks bids : List (String × String)} (now : ℤ)
    (good : (goodLevels 1 key.limit asks && goodLevels (-1) key.limit bids) = true) :
    (smallReply key (smallDepth asks bids) now).Ok := by
  rintro result _ ⟨⟩
  simp only [goodLevels, Bool.and_eq_true, decide_eq_true_eq, List.all_eq_true] at good
  rcases good with ⟨⟨⟨⟨readable, most⟩, sorted⟩, some_⟩, ⟨⟨readable', most'⟩, sorted'⟩, some'⟩
  have ladder {P : Type} [LinearOrder P] {price : ℚ → P} {side : ℚ}
      {levels : List (String × String)}
      (order : ∀ {one other : ℚ}, one * side < other * side → price one < price other)
      (sorted : ((levelUnits levels).filterMap readLevel).Pairwise fun one other =>
        one.1 * side < other.1 * side)
      (some_ : ∀ level ∈ (levelUnits levels).filterMap readLevel, level.2 ≠ 0) :
      IsLadder (readLevels price (levelUnits levels)) := by
    constructor
    · exact List.pairwise_map.mpr (sorted.imp order)
    · intro level mem
      rcases List.mem_map.mp mem with ⟨read, there, rfl⟩
      exact some_ read there
  constructor
  · refine ⟨levelUnits asks, rfl, readable, ladder ?_ sorted some_, most⟩
    intro one other lt
    simpa using lt
  · refine ⟨levelUnits bids, rfl, readable', ladder ?_ sorted' some', most'⟩
    intro one other lt
    apply OrderDual.toDual_lt_toDual.mpr
    simpa using lt

/-- One level of the market, and two of it. -/
def oneLevel : DepthKey := ⟨"BTCCNY", "0", 1⟩
def twoLevels : DepthKey := ⟨"BTCCNY", "0", 2⟩

/-- The condition on a subscription, as a test. -/
def DepthFeed.Event.placed (feed : DepthFeed) : DepthFeed.Event → Bool
  | .subscribe ses market limit interval => feed.dictDepth.entries.all fun entry =>
      decide (entry.1.market = market → entry.1 ≠ ⟨market, interval, limit.toNat⟩ →
        ses ∈ entry.2.sessions.keys → entry.2.sessions.keys.count ses = 1 ∧
          entry.2.sessions.find (dictSesHashFunc feed.heads) ses = true)
  | _ => true

def DepthFeed.placedRun (settings : Settings) : DepthFeed → List DepthFeed.Event → Bool
  | _, [] => true
  | feed, event :: events =>
      event.placed feed && (feed.step settings event).placedRun settings events

theorem placedRun_sound {settings : Settings} {feed : DepthFeed} {events : List DepthFeed.Event}
    (placed : feed.placedRun settings events = true) : feed.PlacedRun settings events := by
  induction events generalizing feed with
  | nil => trivial
  | cons event events ih =>
      rcases (Bool.and_eq_true _ _).mp placed with ⟨now, later⟩
      refine ⟨?_, ih later⟩
      cases event with
      | subscribe ses market limit interval =>
          intro _ key val found
          exact of_decide_eq_true (List.all_eq_true.mp now ⟨key, val⟩ (mem_entries_iff.mpr found))
      | _ => trivial

/-- Both keys have a session, and both get answers. A third session joins, and the second
one moves to the other key. -/
def busyDepth : List DepthFeed.Event :=
  [.subscribe 1 "BTCCNY" 2 "0", .subscribe 2 "BTCCNY" 1 "0",
    smallReply twoLevels (smallDepth [("10", "2"), ("11", "1")] [("9", "1")]) 100,
    smallReply oneLevel (smallDepth [("10", "2")] [("9", "1")]) 100,
    smallReply twoLevels (smallDepth [("10", "3"), ("12", "1")] [("9", "1"), ("8", "2")]) 101,
    .subscribe 3 "BTCCNY" 2 "0", .subscribe 2 "BTCCNY" 2 "0",
    smallReply twoLevels (smallDepth [("12", "1")] [("9", "5"), ("7", "1")]) 102, .timer,
    smallReply twoLevels (smallDepth [("11", "4")] []) 160]

theorem busyDepth_ok : ∀ event ∈ busyDepth, event.Ok := by
  intro event mem
  simp only [busyDepth, List.mem_cons, List.not_mem_nil, or_false] at mem
  rcases mem with rfl | rfl | rfl | rfl | rfl | rfl | rfl | rfl | rfl | rfl
  · trivial
  · trivial
  · exact smallReply_ok 100 (by decide +kernel)
  · exact smallReply_ok 100 (by decide +kernel)
  · exact smallReply_ok 101 (by decide +kernel)
  · trivial
  · trivial
  · exact smallReply_ok 102 (by decide +kernel)
  · trivial
  · exact smallReply_ok 160 (by decide +kernel)

/-- Differences and whole answers go to three sessions. -/
theorem depth_updates_reproduce_small :
    ((DepthFeed.init fun _ => []).run ⟨fun _ => true, fun _ => true⟩ busyDepth).Holds ∧
      ((((DepthFeed.init fun _ => []).run ⟨fun _ => true, fun _ => true⟩
        (busyDepth.take 8)).sent.filter fun update => update.ses = 2).map DepthUpdate.clean) =
          [true, true, false] := by
  constructor
  · exact depth_updates_reproduce.2.2 _ _ busyDepth busyDepth_ok
      (placedRun_sound (by decide +kernel))
  · decide +kernel

/-! ### A table that grows -/

/-- A watcher that is active, and one that is pending as well. -/
def calm : List Wire.Byte := [1, 0, 0, 0, 0, 0, 0, 0]
def stirred : List Wire.Byte := [1, 0, 0, 0, 1, 0, 0, 0]

namespace DepthFeed

/-- What a subscription to a good key does. -/
def joined (feed : DepthFeed) (ses : Addr) (key : DepthKey) : DepthFeed :=
  ((feed.depthUnsubscribe ses).depthSubscribe ses key).depthSendClean ses key

variable {feed : DepthFeed} {ses : Addr} {key other : DepthKey} {val : DepthVal}

theorem depthSendClean_silent (found : dictFind feed.dictDepth key = some val)
    (new : val.last = none) : feed.depthSendClean ses key = feed := by
  unfold depthSendClean
  rw [found]
  simp only [new]

/-- Where a key has an entry without an answer, a new session is stored in it. -/
theorem joined_found (found : dictFind feed.dictDepth key = some val) (new : val.last = none) :
    (feed.joined ses key).sent = feed.sent ∧ (feed.joined ses key).heads = feed.heads ∧
      dictFind (feed.joined ses key).dictDepth key = some { val with
        sessions := (val.sessions.delete (dictSesHashFunc feed.heads) ses).add
          (dictSesHashFunc feed.heads) ses } := by
  have entry := dictFind_depthSubscribe (feed.depthUnsubscribe ses) ses key
  rw [dictFind_depthUnsubscribe, found] at entry
  unfold joined
  rw [depthSendClean_silent entry new]
  exact ⟨rfl, rfl, entry⟩

/-- Where a key has none, it gets one. -/
theorem joined_new (absent : dictFind feed.dictDepth key = none) :
    (feed.joined ses key).sent = feed.sent ∧ (feed.joined ses key).heads = feed.heads ∧
      dictFind (feed.joined ses key).dictDepth key =
        some ⟨newSessions.add (dictSesHashFunc feed.heads) ses, none, 0⟩ := by
  have entry := dictFind_depthSubscribe (feed.depthUnsubscribe ses) ses key
  rw [dictFind_depthUnsubscribe, absent] at entry
  unfold joined
  rw [depthSendClean_silent entry rfl]
  exact ⟨rfl, rfl, entry⟩

theorem joined_heads : (feed.joined ses key).heads = feed.heads := by
  unfold joined depthSendClean
  split
  · rfl
  · split <;> rfl

theorem joined_other (differ : other ≠ key) : dictFind (feed.joined ses key).dictDepth other =
    (dictFind feed.dictDepth other).map fun val =>
      { val with sessions := val.sessions.delete (dictSesHashFunc feed.heads) ses } := by
  have sent : (feed.joined ses key).dictDepth =
      ((feed.depthUnsubscribe ses).depthSubscribe ses key).dictDepth := by
    unfold joined depthSendClean
    split
    · rfl
    · split <;> rfl
  rw [sent]
  exact (dictFind_replace_ne differ).trans (dictFind_depthUnsubscribe ..)

/-- After the first `n` sessions have subscribed to one level. -/
structure Crowd (feed : DepthFeed) (n : ℕ) : Prop where
  heads : feed.heads = fun _ => calm
  sent : feed.sent = []
  none_ : dictFind feed.dictDepth twoLevels = none
  entry : ∃ val, dictFind feed.dictDepth oneLevel = some val ∧ val.last = none ∧
    val.sessions.size = 1024 ∧ val.sessions.keys.Perm ((List.range n).map (· + 1))

theorem fresh_session {n : ℕ} {sessions : HashTable Addr}
    (keys : sessions.keys.Perm ((List.range n).map (· + 1))) : n + 1 ∉ sessions.keys := by
  intro mem
  rcases List.mem_map.mp (keys.mem_iff.mp mem) with ⟨i, ranged, same⟩
  exact absurd (Nat.succ.inj same) (List.mem_range.mp ranged).ne

theorem newSessions_size : newSessions.size = 1024 :=
  List.length_replicate

theorem Crowd.first : ((init fun _ => calm).joined 1 oneLevel).Crowd 1 := by
  have absent : dictFind (init fun _ => calm).dictDepth oneLevel = none := dictFind_empty
  rcases @joined_new _ 1 _ absent with ⟨sent, heads, entry⟩
  have keys : newSessions.keys = [] := HashTable.keys_create 1024 (by decide)
  have size : newSessions.size = 1024 := newSessions_size
  generalize newSessions = sessions at entry keys size
  have empty : 1 ∉ sessions.keys := by
    rw [keys]
    exact List.not_mem_nil
  refine ⟨heads, sent, ?_, _, entry, rfl, ?_, ?_⟩
  · rw [joined_other (by decide)]
    exact congrArg _ (dictFind_empty : dictFind (init fun _ => calm).dictDepth twoLevels = none)
  · apply (HashTable.size_add _).trans size
    rw [keys, size]
    decide
  · have perm := @HashTable.perm_add _ _ sessions (dictSesHashFunc fun _ => calm) 1
      (HashTable.find_of_not_mem empty)
    rwa [keys] at perm

theorem Crowd.next {n : ℕ} (crowd : feed.Crowd n) (room : n < 4096) :
    (feed.joined (n + 1) oneLevel).Crowd (n + 1) := by
  rcases crowd.entry with ⟨val, found, new, size, keys⟩
  rcases @joined_found _ (n + 1) _ _ found new with ⟨sent, heads, entry⟩
  have fresh := fresh_session keys
  have same := @HashTable.delete_of_not_find _ _ val.sessions (dictSesHashFunc feed.heads) _
    (HashTable.find_of_not_mem fresh)
  have size' := val.sessions.size_delete (dictSesHashFunc feed.heads) (n + 1)
  refine ⟨heads.trans crowd.heads, sent.trans crowd.sent, ?_, _, entry, new, ?_, ?_⟩
  · rw [joined_other (by decide), crowd.none_]
    rfl
  · apply (HashTable.size_add _).trans (size'.trans size)
    rw [same, size', size, keys.length_eq, List.length_map, List.length_range]
    exact room
  · have perm := @HashTable.perm_add _ _ (val.sessions.delete (dictSesHashFunc feed.heads) (n + 1))
      (dictSesHashFunc feed.heads) (n + 1) (HashTable.find_of_not_mem (same.symm ▸ fresh))
    rw [same] at perm
    rw [List.range_succ, List.map_append]
    exact (perm.trans (keys.cons _)).trans (List.perm_append_singleton _ _).symm

/-- A session that is not found where its hash leads is stored for both keys. -/
structure Mixed (feed : DepthFeed) : Prop where
  sent : feed.sent = []
  one : ∃ val, dictFind feed.dictDepth oneLevel = some val ∧ val.last = none ∧
    1 ∈ val.sessions.keys
  two : ∃ val, dictFind feed.dictDepth twoLevels = some val ∧ val.last = none ∧
    1 ∈ val.sessions.keys

/-- The table grows while the first session is pending; that session then subscribes to two
levels instead. -/
theorem Crowd.mixed (crowd : feed.Crowd 4096) :
    Mixed (DepthFeed.joined { DepthFeed.joined
        { feed with heads := Function.update feed.heads 1 stirred } 4097 oneLevel with
      heads := Function.update (Function.update feed.heads 1 stirred) 1 calm } 1 twoLevels) := by
  rcases crowd.entry with ⟨val, found, new, size, keys⟩
  have fresh := fresh_session keys
  rw [crowd.heads]
  have found' : dictFind ({ feed with
      heads := Function.update (fun _ => calm) 1 stirred } : DepthFeed).dictDepth oneLevel =
        some val := found
  rcases @joined_found _ 4097 _ _ found' new with ⟨sent, _, entry⟩
  have none_ := @joined_other { feed with heads := Function.update (fun _ => calm) 1 stirred } 4097
    oneLevel twoLevels (by decide)
  simp only at none_
  rw [crowd.none_] at none_
  generalize DepthFeed.joined { feed with heads := Function.update (fun _ => calm) 1 stirred }
    4097 oneLevel = grown at sent entry none_ ⊢
  simp only at entry
  -- the table grows, and the first session is elsewhere in it
  have first : 1 ∈ (List.range 4096).map (· + 1) :=
    List.mem_map.mpr ⟨0, List.mem_range.mpr (by decide), rfl⟩
  have same := @HashTable.delete_of_not_find _ _ val.sessions
    (dictSesHashFunc (Function.update (fun _ => calm) 1 stirred)) 4097
    (HashTable.find_of_not_mem fresh)
  have size' := val.sessions.size_delete
    (dictSesHashFunc (Function.update (fun _ => calm) 1 stirred)) 4097
  have absent : (val.sessions.delete (dictSesHashFunc (Function.update (fun _ => calm) 1 stirred))
      4097).find (dictSesHashFunc (Function.update (fun _ => calm) 1 stirred)) 4097 = false :=
    HashTable.find_of_not_mem (same.symm ▸ fresh)
  have full : (val.sessions.delete (dictSesHashFunc (Function.update (fun _ => calm) 1 stirred))
      4097).size * 4 ≤ (val.sessions.delete (dictSesHashFunc
        (Function.update (fun _ => calm) 1 stirred)) 4097).keys.length := by
    rw [same, size', size, keys.length_eq, List.length_map, List.length_range]
  have lost := @HashTable.find_add_grown _ _ _ _ _ 1 (dictSesHashFunc fun _ => calm) absent full
    (by decide) (by rw [size', size]; decide +kernel)
  have stays := (HashTable.perm_add absent).mem_iff.mpr
    (List.mem_cons_of_mem 4097 (same.symm ▸ keys.mem_iff.mpr first))
  generalize (val.sessions.delete (dictSesHashFunc (Function.update (fun _ => calm) 1 stirred))
    4097).add (dictSesHashFunc (Function.update (fun _ => calm) 1 stirred)) 4097 = table
      at entry lost stays
  have heads : Function.update (Function.update (fun _ => calm) 1 stirred) 1 calm =
      fun _ : Addr => calm := by
    rw [Function.update_idem]
    exact Function.update_eq_self 1 _
  rw [heads]
  have none' : dictFind ({ grown with heads := fun _ => calm } : DepthFeed).dictDepth twoLevels =
      none := none_
  rcases @joined_new _ 1 _ none' with ⟨sent', _, two⟩
  refine ⟨sent'.trans (sent.trans crowd.sent), ?_, ?_⟩
  · rw [joined_other (by decide)]
    refine ⟨_, congrArg _ entry, new, ?_⟩
    simp only
    rw [HashTable.delete_of_not_find lost]
    exact stays
  · have there := @HashTable.mem_keys_add _ _ newSessions (dictSesHashFunc fun _ => calm) 1
    simp only at two
    generalize newSessions.add (dictSesHashFunc fun _ => calm) 1 = sessions at two there
    exact ⟨_, two, rfl, there⟩

end DepthFeed

/-- The first answer about a key. -/
theorem step_smallReply {feed : DepthFeed} {key : DepthKey} {val : DepthVal} (settings : Settings)
    (found : dictFind feed.dictDepth key = some val) (new : val.last = none)
    (asks bids : List (String × String)) (now : ℤ) :
    feed.step settings (smallReply key (smallDepth asks bids) now) = { feed with
      dictDepth := dictReplace feed.dictDepth key
        { val with last := some (smallDepth asks bids), lastClean := now }
      sent := feed.sent ++ broadcastUpdate key val.sessions true (smallDepth asks bids) } := by
  change feed.onMarketDepthReply key (smallDepth asks bids) now = _
  unfold DepthFeed.onMarketDepthReply
  rw [found]
  simp only [new]

/-- The two answers about a market. -/
def wideDepth : MatchEngine.Json := smallDepth [("10", "2"), ("11", "1")] [("9", "1")]
def narrowDepth : MatchEngine.Json := smallDepth [("10", "2")] [("9", "1")]

/-- The client takes the answer about the other key for its own. -/
theorem DepthFeed.Mixed.not_holds {feed : DepthFeed} (mixed : feed.Mixed) (settings : Settings) :
    ¬((feed.step settings (smallReply twoLevels wideDepth 100)).step settings
      (smallReply oneLevel narrowDepth 100)).Holds := by
  rcases mixed.one with ⟨one, found, new, mem⟩
  rcases mixed.two with ⟨two, found', new', mem'⟩
  have answered := step_smallReply settings found' new' [("10", "2"), ("11", "1")] [("9", "1")] 100
  have own : dictFind (feed.step settings (smallReply twoLevels wideDepth 100)).dictDepth oneLevel =
      some one := by
    rw [wideDepth, answered]
    exact (dictFind_replace_ne (by decide)).trans found
  have other : dictFind (feed.step settings (smallReply twoLevels wideDepth 100)).dictDepth
      twoLevels = some { two with last := some wideDepth, lastClean := 100 } := by
    rw [wideDepth, answered]
    exact dictFind_replace
  generalize feed.step settings (smallReply twoLevels wideDepth 100) = feed at own other
  intro holds
  rw [narrowDepth, step_smallReply settings own new, ← narrowDepth] at holds
  rcases holds twoLevels _ ((dictFind_replace_ne (by decide)).trans other) _ rfl with ⟨_, all⟩
  have kept := all 1 mem'
  have turned := @held_broadcast _ { feed with
    dictDepth := dictReplace feed.dictDepth oneLevel
      { one with last := some narrowDepth, lastClean := 100 } } oneLevel 1 one.sessions
    true narrowDepth twoLevels (bookOf narrowDepth) rfl mem rfl rfl
  have same := turned.symm.trans kept
  have differ : (bookOf narrowDepth).asks.length ≠ (bookOf wideDepth).asks.length := by
    decide +kernel
  exact differ (congrArg (fun book => book.asks.length) (Option.some.inj same))

/-- Sessions subscribe to one level of a market. -/
def crowdRun (n : ℕ) : List DepthFeed.Event :=
  (List.range n).map fun i => .subscribe (i + 1) "BTCCNY" 1 "0"

/-- The table grows for the next one, while the first session is pending, and puts that
elsewhere. When the first session then asks for two levels of the market it is not found, and
stays. -/
def mixedRun : List DepthFeed.Event :=
  [.watch 1 stirred, .subscribe 4097 "BTCCNY" 1 "0", .watch 1 calm, .subscribe 1 "BTCCNY" 2 "0",
    smallReply twoLevels wideDepth 100, smallReply oneLevel narrowDepth 100]

theorem mixedRun_ok (n : ℕ) : ∀ event ∈ crowdRun n ++ mixedRun, event.Ok := by
  intro event mem
  rcases List.mem_append.mp mem with crowd | rest
  · rcases List.mem_map.mp crowd with ⟨i, _, rfl⟩
    trivial
  · simp only [mixedRun, List.mem_cons, List.not_mem_nil, or_false] at rest
    rcases rest with rfl | rfl | rfl | rfl | rfl | rfl
    · trivial
    · trivial
    · trivial
    · trivial
    · exact smallReply_ok 100 (by decide +kernel)
    · exact smallReply_ok 100 (by decide +kernel)

/-- All limits and intervals are good. -/
def anyDepth : Settings := ⟨fun _ => true, fun _ => true⟩

theorem subscribe_one (feed : DepthFeed) (ses : Addr) :
    feed.step anyDepth (.subscribe ses "BTCCNY" 1 "0") = feed.joined ses oneLevel :=
  rfl

theorem subscribe_two (feed : DepthFeed) (ses : Addr) :
    feed.step anyDepth (.subscribe ses "BTCCNY" 2 "0") = feed.joined ses twoLevels :=
  rfl

theorem step_watch (feed : DepthFeed) (ses : Addr) (head : List Wire.Byte) :
    feed.step anyDepth (.watch ses head) =
      { feed with heads := Function.update feed.heads ses head } :=
  rfl

theorem crowd_run {n : ℕ} (some_ : 0 < n) (room : n ≤ 4096) :
    ((DepthFeed.init fun _ => calm).run anyDepth (crowdRun n)).Crowd n := by
  induction n, some_ using Nat.le_induction with
  | base => exact DepthFeed.Crowd.first
  | succ n _ ih =>
      have before := ih (by omega)
      rw [crowdRun, DepthFeed.run] at before ⊢
      rw [List.range_succ, List.map_append, List.foldl_append]
      exact before.next room

theorem DepthFeed.Crowd.not_holds {feed : DepthFeed} (crowd : feed.Crowd 4096) :
    ¬(feed.run anyDepth mixedRun).Holds := by
  have mixed := crowd.mixed
  rw [mixedRun, DepthFeed.run, List.foldl_cons, List.foldl_cons, subscribe_one, List.foldl_cons,
    List.foldl_cons, subscribe_two]
  rw [step_watch, step_watch, DepthFeed.joined_heads, List.foldl_cons, List.foldl_cons,
    List.foldl_nil]
  generalize DepthFeed.joined _ 1 twoLevels = late at mixed ⊢
  exact mixed.not_holds anyDepth

/-- A client that is stored for two keys of a market mixes their answers. -/
theorem depth_updates_mixed : ¬∀ (settings : Settings) (heads : Heads)
    (events : List DepthFeed.Event), (∀ event ∈ events, event.Ok) →
      ((DepthFeed.init heads).run settings events).Holds := by
  intro all
  have holds := all anyDepth (fun _ => calm) (crowdRun 4096 ++ mixedRun) (mixedRun_ok 4096)
  rw [DepthFeed.run, List.foldl_append] at holds
  exact (crowd_run (by omega) le_rfl).not_holds holds

end Small

end ViabtcServer.AccessWs
