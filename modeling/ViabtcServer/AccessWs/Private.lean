import Mathlib.Data.List.Find
import ViabtcServer.AccessWs.Server

/-!
# Feeds of a user

A session is on a list of a user only while it is open and is that user's client.
-/

namespace ViabtcServer.AccessWs

open Container Network

/-! ## What holds of a server -/

/-- A notification goes to an open session of the connection that subscribed, which is
the user's now. -/
def Sent.Private (sent : Sent) : Prop :=
  match sent.output with
  | .update _ userId conn =>
      sent.ses.id ≠ 0 ∧ sent.ses.conn = conn ∧
        ∃ info, sent.info = some info ∧ info.auth = true ∧ info.userId = userId
  | _ => True

namespace Server

variable {server : Server} {conn : ℕ} {ses info : Addr} {feed : Private} {userId : BitVec 32}

/-- The session of a connection is open and is now the client of a user. -/
def Authenticated (server : Server) (conn : ℕ) (ses : Addr) (userId : BitVec 32) : Prop :=
  ∃ info, server.client conn = some (ses, info) ∧ (server.infos info).auth = true ∧
    (server.infos info).userId = userId

structure Ok (server : Server) : Prop where
  svr : server.svr.Ok
  apart : ∀ conn other ses ses' info, server.client conn = some (ses, info) →
    server.client other = some (ses', info) → conn = other
  cached : ∀ conn ses info, server.client conn = some (ses, info) →
    info ∉ server.privdataCache.free
  nodup : server.privdataCache.free.Nodup
  waits : ∀ via sequence data, nwStateGet (server.contexts via) sequence = some data →
    ∃ conn, server.svr.addrs[conn]? = some data.ses ∧ data.sesId = idOf conn ∧
      (server.svr.openAt conn = some data.ses → server.client conn = some (data.ses, data.info))
  listed : ∀ feed userId, ∀ unit ∈ server.units feed userId,
    server.Authenticated unit.conn unit.ses userId
  sent : ∀ sent ∈ server.sent, sent.Private

theorem client_eq_some :
    server.client conn = some (ses, info) ↔
      server.svr.openAt conn = some ses ∧ server.privdata ses = some info := by
  unfold client
  rw [Option.bind_eq_some_iff]
  constructor
  · rintro ⟨addr, opened, mapped⟩
    obtain ⟨info', own, same⟩ := Option.map_eq_some_iff.mp mapped
    cases same
    exact ⟨opened, own⟩
  · rintro ⟨opened, own⟩
    refine ⟨ses, opened, ?_⟩
    rw [own]
    rfl

theorem Ok.init (heads : Heads) : (Server.init heads).Ok := by
  have none_ (conn : ℕ) : (Server.init heads).client conn = none := rfl
  constructor
  · exact NwSvr.Ok.empty
  · intro conn other ses ses' info absurd_
    cases absurd_
  · intro conn ses info absurd_
    cases absurd_
  · exact List.nodup_nil
  · intro via sequence data absurd_
    exact absurd ((dictFind_empty).symm.trans absurd_) (Option.some_ne_none data).symm
  · intro feed userId unit absurd_
    have empty : (Server.init heads).units feed userId = [] := by
      unfold units
      rw [show dictFind ((Server.init heads).dictSub feed) userId = none from dictFind_empty]
      rfl
    rw [empty] at absurd_
    cases absurd_
  · intro sent absurd_
    cases absurd_

/-! ## Leaving the lists -/

theorem find_userUnsubscribe (dictSub : DictSub) (userId : BitVec 32) (ses : Addr)
    (other : BitVec 32) :
    (dictFind (userUnsubscribe dictSub userId ses) other).getD [] =
      if other = userId then ((dictFind dictSub userId).getD []).filter (·.ses ≠ ses)
      else (dictFind dictSub other).getD [] := by
  unfold userUnsubscribe
  cases found : dictFind dictSub userId with
  | none =>
      by_cases same : other = userId
      · rw [if_pos same, same, found]
        rfl
      · rw [if_neg same]
  | some list =>
      simp only
      by_cases same : other = userId
      · rw [if_pos same, same, Option.getD_some]
        split
        · rename_i empty
          rw [dictFind_delete, List.length_eq_zero_iff.mp empty]
          rfl
        · rw [dictFind_replace, Option.getD_some]
      · rw [if_neg same]
        split
        · rw [dictFind_delete_ne same]
        · rw [dictFind_replace_ne same]

theorem units_leave (server : Server) (userId : BitVec 32) (ses : Addr) (feed : Private)
    (other : BitVec 32) :
    (server.leave userId ses).units feed other =
      if other = userId then (server.units feed userId).filter (·.ses ≠ ses)
      else server.units feed other :=
  find_userUnsubscribe (server.dictSub feed) userId ses other

/-- A unit with the session of a client is that client's, which is the user's. -/
theorem Ok.own (ok : server.Ok) (here : server.client conn = some (ses, info)) {unit : SubUnit}
    (mem : unit ∈ server.units feed userId) (same : unit.ses = ses) :
    unit.conn = conn ∧ (server.infos info).auth = true ∧ (server.infos info).userId = userId := by
  obtain ⟨info', here', auth, user⟩ := ok.listed feed userId unit mem
  rw [same] at here'
  obtain ⟨opened, own⟩ := client_eq_some.mp here
  obtain ⟨opened', own'⟩ := client_eq_some.mp here'
  rw [own] at own'
  cases own'
  exact ⟨NwSvr.openAt_injective opened' opened, auth, user⟩

/-- `on_close` takes the session off all lists. -/
theorem Ok.units_onClose (ok : server.Ok) (here : server.client conn = some (ses, info))
    (feed : Private) (userId : BitVec 32) :
    (server.onClose ses info).units feed userId =
      (server.units feed userId).filter (·.ses ≠ ses) := by
  -- on the list of somebody else there is no unit of the session
  have untouched (other : ¬((server.infos info).auth = true ∧
      (server.infos info).userId = userId)) :
      (server.units feed userId).filter (·.ses ≠ ses) = server.units feed userId := by
    rw [List.filter_eq_self]
    intro unit mem
    rw [decide_eq_true_iff]
    intro same
    exact other (ok.own here mem same).2
  unfold onClose
  simp only
  split
  · rename_i auth
    have after := units_leave { server with
      board := { server.board with
        feeds := closeFeeds server.board.heads server.board.feeds ses } }
      (server.infos info).userId ses feed userId
    apply after.trans
    split
    · rename_i same
      rw [same]
      rfl
    · rename_i differ
      exact (untouched fun both => differ both.2.symm).symm
  · rename_i notAuth
    exact (untouched fun both => notAuth both.1).symm

/-! ## Closing -/

/-- What closing an open session leaves. -/
structure Closed (server : Server) (conn : ℕ) (addr : Addr) (after : Server) : Prop where
  svr : after.svr.Ok
  addrs : after.svr.addrs = server.svr.addrs
  opened : ∀ other, after.svr.openAt other =
    if other = conn then none else server.svr.openAt other
  privdata : after.privdata = server.privdata
  infos : after.infos = server.infos
  contexts : after.contexts = server.contexts
  sent : after.sent = server.sent
  units : ∀ feed userId, after.units feed userId =
    if (server.privdata addr).isSome then (server.units feed userId).filter (·.ses ≠ addr)
    else server.units feed userId
  cache : after.privdataCache.free = server.privdataCache.free ∨
    ∃ info, server.privdata addr = some info ∧
      after.privdataCache.free = info :: server.privdataCache.free

theorem onClose_same (server : Server) (ses info : Addr) :
    (server.onClose ses info).svr = server.svr ∧
      (server.onClose ses info).privdata = server.privdata ∧
      (server.onClose ses info).infos = server.infos ∧
      (server.onClose ses info).contexts = server.contexts ∧
      (server.onClose ses info).sent = server.sent := by
  unfold onClose leave
  simp only
  split <;> exact ⟨rfl, rfl, rfl, rfl, rfl⟩

theorem Ok.closed (ok : server.Ok) {addr : Addr} (opened : server.svr.openAt conn = some addr) :
    Closed server conn addr (server.closeSes addr) := by
  obtain ⟨_, cell, found, _, nonzero⟩ := NwSvr.openAt_eq_some.mp opened
  obtain ⟨ok', addrs, gone, others⟩ := ok.svr.close opened
  have isOpen : ¬(server.svr.idAt addr).getD 0 = 0 := by
    unfold NwSvr.idAt
    rw [found]
    exact nonzero
  have opened' (other : ℕ) : (nwSvrCloseSes server.svr addr).openAt other =
      if other = conn then none else server.svr.openAt other := by
    split
    · rename_i same
      rw [same, gone]
    · rename_i differ
      exact others other differ
  unfold closeSes
  rw [if_neg isOpen]
  cases own : server.privdata addr with
  | none =>
      refine ⟨ok', addrs, opened', rfl, rfl, rfl, rfl, ?_, Or.inl rfl⟩
      intro feed userId
      rw [own]
      rfl
  | some info =>
      have here := client_eq_some.mpr ⟨opened, own⟩
      obtain ⟨svr, privdata, infos, contexts, sent⟩ := onClose_same server addr info
      simp only
      rw [svr]
      refine ⟨ok', addrs, opened', privdata, infos, contexts, sent, ?_, ?_⟩
      · intro feed userId
        rw [own]
        exact ok.units_onClose here feed userId
      · have free := nwCacheFree_free server.privdataCache info
        split at free
        · exact Or.inr ⟨info, own, free⟩
        · exact Or.inl free

theorem Closed.client {addr : Addr} {after : Server} (closed : Closed server conn addr after)
    (other : ℕ) : after.client other = if other = conn then none else server.client other := by
  unfold Server.client
  rw [closed.opened, closed.privdata]
  split <;> rfl

theorem Ok.close (ok : server.Ok) {addr : Addr} {after : Server}
    (opened : server.svr.openAt conn = some addr) (closed : Closed server conn addr after) :
    after.Ok := by
  have before {other : ℕ} {ses info : Addr} (here : after.client other = some (ses, info)) :
      other ≠ conn ∧ server.client other = some (ses, info) := by
    rw [closed.client, Option.ite_none_left_eq_some] at here
    exact here
  constructor
  · exact closed.svr
  · intro other other' ses ses' info here here'
    exact ok.apart other other' ses ses' info (before here).2 (before here').2
  · intro other ses info here
    obtain ⟨differ, here⟩ := before here
    have old := ok.cached other ses info here
    rcases closed.cache with free | ⟨info', own, free⟩
    · rwa [free]
    · rw [free, List.mem_cons, not_or]
      refine ⟨?_, old⟩
      rintro rfl
      exact differ (ok.apart other conn ses addr info here (client_eq_some.mpr ⟨opened, own⟩))
  · rcases closed.cache with free | ⟨info, own, free⟩
    · rw [free]
      exact ok.nodup
    · rw [free]
      have new := ok.cached conn addr info (client_eq_some.mpr ⟨opened, own⟩)
      exact List.nodup_cons.mpr ⟨new, ok.nodup⟩
  · intro via sequence data found
    rw [closed.contexts] at found
    obtain ⟨other, known, id, own⟩ := ok.waits via sequence data found
    refine ⟨other, by rw [closed.addrs, known], id, ?_⟩
    rw [closed.opened, closed.client]
    split
    · intro absurd_
      cases absurd_
    · exact own
  · intro feed userId unit mem
    rw [closed.units] at mem
    have old : unit ∈ server.units feed userId := by
      split at mem
      · exact List.mem_of_mem_filter mem
      · exact mem
    obtain ⟨info, here, auth, user⟩ := ok.listed feed userId unit old
    have differ : unit.conn ≠ conn := by
      intro same
      obtain ⟨opened', own⟩ := client_eq_some.mp here
      rw [same, opened] at opened'
      cases opened'
      rw [own, Option.isSome_some, if_pos rfl, List.mem_filter, decide_eq_true_iff] at mem
      exact mem.2 rfl
    refine ⟨info, ?_, by rw [closed.infos, auth], by rw [closed.infos, user]⟩
    rw [closed.client, if_neg differ, here]
  · rw [closed.sent]
    exact ok.sent

theorem Ok.closeSes (ok : server.Ok) (addr : Addr) : (server.closeSes addr).Ok := by
  by_cases id : (server.svr.idAt addr).getD 0 = 0
  · unfold Server.closeSes
    rwa [if_pos id]
  · obtain ⟨conn, opened⟩ := ok.svr.open_of_id id
    exact ok.close opened (ok.closed opened)

/-! ## Sending -/

theorem send_same (server : Server) (addr : Addr) (output : Output) :
    (server.send addr output false).svr = server.svr ∧
      (server.send addr output false).privdata = server.privdata ∧
      (server.send addr output false).units = server.units := by
  unfold Server.send
  cases server.svr.mem addr <;> exact ⟨rfl, rfl, rfl⟩

theorem send_fails (server : Server) (addr : Addr) (output : Output) :
    server.send addr output true = (server.send addr output false).closeSes addr := by
  unfold Server.send
  cases found : server.svr.mem addr with
  | none =>
      have none_ : (server.svr.idAt addr).getD 0 = 0 := by
        unfold NwSvr.idAt
        rw [found]
        rfl
      unfold Server.closeSes
      rw [if_pos none_]
  | some cell => rfl

theorem Ok.send (ok : server.Ok) (addr : Addr) (output : Output) (fails : Bool)
    (private_ : ∀ cell, server.svr.mem addr = some cell →
      Sent.Private ⟨cell, (server.privdata addr).map server.infos, output⟩) :
    (server.send addr output fails).Ok := by
  unfold Server.send
  cases found : server.svr.mem addr with
  | none => exact ok
  | some cell =>
      have logged : ({ server with sent := server.sent ++
          [⟨cell, (server.privdata addr).map server.infos, output⟩] } : Server).Ok := by
        refine ⟨ok.svr, ok.apart, ok.cached, ok.nodup, ok.waits, ok.listed, ?_⟩
        intro sent mem
        rcases List.mem_append.mp mem with old | new
        · exact ok.sent sent old
        · rw [List.mem_singleton.mp new]
          exact private_ cell found
      cases fails with
      | false => exact logged
      | true => exact logged.closeSes addr

/-- A reply is not a notification. -/
theorem Ok.reply (ok : server.Ok) (addr : Addr) {output : Output} (fails : Bool)
    (reply : ∀ feed userId conn, output ≠ .update feed userId conn) :
    (server.send addr output fails).Ok := by
  apply ok.send
  intro cell found
  cases output with
  | success id => trivial
  | error id code message => trivial
  | update feed userId conn => exact absurd rfl (reply feed userId conn)

/-! ## Authentication -/

/-- Another client's user stays when the `clt_info` of a client is written. -/
theorem Ok.authenticated_update (ok : server.Ok) (here : server.client conn = some (ses, info))
    {after : Server} {new : CltInfo} (client : after.client = server.client)
    (infos : after.infos = Function.update server.infos info new) {other : ℕ} {ses' : Addr}
    (old : server.Authenticated other ses' userId) (differ : ses' ≠ ses) :
    after.Authenticated other ses' userId := by
  obtain ⟨info', here', auth, user⟩ := old
  have apart : info' ≠ info := by
    rintro rfl
    obtain rfl := ok.apart other conn ses' ses info' here' here
    rw [here] at here'
    cases here'
    exact differ rfl
  refine ⟨info', by rw [client, here'], ?_, ?_⟩
  · rw [infos, Function.update_of_ne apart, auth]
  · rw [infos, Function.update_of_ne apart, user]

theorem become_same (server : Server) (data : StateData) (userId : BitVec 32) :
    (server.become data userId).svr = server.svr ∧
      (server.become data userId).privdata = server.privdata ∧
      (server.become data userId).privdataCache = server.privdataCache ∧
      (server.become data userId).contexts = server.contexts ∧
      (server.become data userId).sent = server.sent ∧
      (server.become data userId).infos =
        Function.update server.infos data.info ⟨true, userId⟩ := by
  unfold become
  simp only
  split <;> exact ⟨rfl, rfl, rfl, rfl, rfl, rfl⟩

/-- A client that becomes another user is first taken off the lists of the one it was. -/
theorem Ok.units_become (ok : server.Ok) {data : StateData}
    (here : server.client conn = some (data.ses, data.info)) {new : BitVec 32} {unit : SubUnit}
    (mem : unit ∈ (server.become data new).units feed userId) :
    unit ∈ server.units feed userId ∧ (unit.ses = data.ses → userId = new) := by
  unfold become at mem
  simp only at mem
  split at mem
  · have mem' : unit ∈ (server.leave (server.infos data.info).userId data.ses).units feed userId :=
      mem
    rw [units_leave] at mem'
    split at mem'
    · rename_i same
      rw [List.mem_filter, decide_eq_true_iff, ← same] at mem'
      exact ⟨mem'.1, fun absurd_ => absurd absurd_ mem'.2⟩
    · rename_i differ
      exact ⟨mem', fun same => absurd (ok.own here mem' same).2.2.symm differ⟩
  · rename_i stays
    have mem' : unit ∈ server.units feed userId := mem
    refine ⟨mem', fun same => ?_⟩
    obtain ⟨_, auth, user⟩ := ok.own here mem' same
    by_contra differ
    exact stays ⟨auth, fun same' => differ (user.symm.trans same')⟩

theorem Ok.become (ok : server.Ok) {data : StateData}
    (here : server.client conn = some (data.ses, data.info)) (new : BitVec 32) :
    (server.become data new).Ok := by
  obtain ⟨svr, privdata, cache, contexts, sent, infos⟩ := become_same server data new
  have client : (server.become data new).client = server.client := by
    unfold Server.client
    rw [svr, privdata]
  constructor
  · rw [svr]
    exact ok.svr
  · rw [client]
    exact ok.apart
  · rw [client, cache]
    exact ok.cached
  · rw [cache]
    exact ok.nodup
  · rw [contexts, svr, client]
    exact ok.waits
  · intro feed userId unit mem
    obtain ⟨old, same⟩ := ok.units_become here mem
    by_cases own : unit.ses = data.ses
    · obtain ⟨conn', _, _⟩ := ok.own here old own
      refine ⟨data.info, by rw [client, conn', own, here], ?_, ?_⟩
      · rw [infos, Function.update_self]
      · rw [infos, Function.update_self, same own]
    · exact ok.authenticated_update here client infos (ok.listed feed userId unit old) own
  · rw [sent]
    exact ok.sent

theorem Ok.onResult (ok : server.Ok) {via : Via} {sequence : BitVec 32} {data : StateData}
    (found : nwStateGet (server.contexts via) sequence = some data) (result : Option AuthReply)
    (fails : Bool) : (server.onResult data result fails).Ok := by
  obtain ⟨conn, known, id, own⟩ := ok.waits via sequence data found
  have error : (server.send data.ses (sendErrorInternalError data.requestId) fails).Ok :=
    ok.reply _ _ (fun _ _ _ absurd_ => by cases absurd_)
  unfold Server.onResult
  split
  · exact ok
  rename_i same
  rw [not_not, id] at same
  have here := own ((ok.svr.idAt_iff known).mp same)
  simp only
  split
  · exact error
  split
  · exact error
  split
  · split
    · exact error
    · exact ok.reply _ _ (fun _ _ _ absurd_ => by cases absurd_)
  split
  · exact error
  split
  · exact error
  · exact (ok.become here _).reply _ _ (fun _ _ _ absurd_ => by cases absurd_)

theorem Ok.setContext (ok : server.Ok) {via : Via} {context : NwState StateData}
    (waits : ∀ sequence data, nwStateGet context sequence = some data →
      ∃ conn, server.svr.addrs[conn]? = some data.ses ∧ data.sesId = idOf conn ∧
        (server.svr.openAt conn = some data.ses →
          server.client conn = some (data.ses, data.info))) :
    (server.setContext via context).Ok := by
  refine ⟨ok.svr, ok.apart, ok.cached, ok.nodup, ?_, ok.listed, ok.sent⟩
  intro via' sequence data found
  unfold Server.setContext at found
  by_cases same : via' = via
  · subst same
    simp only [Function.update_self] at found
    exact waits sequence data found
  · simp only [Function.update_of_ne same] at found
    exact ok.waits via' sequence data found

theorem Ok.done (ok : server.Ok) (via : Via) (sequence : BitVec 32) :
    (server.setContext via (nwStateDel (server.contexts via) sequence)).Ok := by
  apply ok.setContext
  intro other data found
  by_cases same : other = sequence
  · rw [same, nwStateGet_del] at found
    cases found
  · rw [nwStateGet_del_ne _ same] at found
    exact ok.waits via other data found

theorem Ok.onFinish (ok : server.Ok) (via : Via) (sequence : BitVec 32)
    (result : Option AuthReply) (fails : Bool) :
    (Server.onFinish via server sequence result fails).Ok := by
  unfold Server.onFinish
  split
  · exact ok
  · rename_i data found
    exact (ok.onResult found result fails).done via sequence

theorem Ok.onTimeout (ok : server.Ok) (via : Via) (sequence : BitVec 32) (fails : Bool) :
    (Server.onTimeout via server sequence fails).Ok := by
  unfold Server.onTimeout
  split
  · exact ok
  · apply Ok.done
    split
    · exact ok.reply _ _ (fun _ _ _ absurd_ => by cases absurd_)
    · exact ok

theorem Ok.sendRequest (ok : server.Ok) (here : server.client conn = some (ses, info)) (via : Via)
    (id : BitVec 64) (params : List Json) (fails : Bool) :
    (Server.sendRequest via server ses id info params fails).Ok := by
  obtain ⟨opened, _⟩ := client_eq_some.mp here
  obtain ⟨known, _⟩ := NwSvr.openAt_eq_some.mp opened
  unfold Server.sendRequest
  split
  · exact ok.reply _ _ (fun _ _ _ absurd_ => by cases absurd_)
  simp only
  split
  · exact ok
  rename_i number context added
  obtain ⟨new, old⟩ := nwStateGet_of_add added
  apply ok.setContext
  intro sequence data found
  by_cases same : sequence = number
  · rw [same, new] at found
    cases found
    refine ⟨conn, known, ?_, fun _ => here⟩
    rw [(ok.svr.idAt_iff known).mpr opened]
    rfl
  · rw [old sequence same] at found
    exact ok.waits via sequence data found

/-! ## Subscribing -/

theorem mem_userSubscribe {dictSub : DictSub} {new unit : SubUnit} {other : BitVec 32}
    (mem : unit ∈ (dictFind (userSubscribe dictSub userId new) other).getD []) :
    unit ∈ (dictFind dictSub other).getD [] ∨ other = userId ∧ unit = new := by
  unfold userSubscribe at mem
  simp only at mem
  by_cases same : other = userId
  · subst same
    split at mem
    · rw [dictFind_replace] at mem
      exact Or.inl mem
    · rw [dictFind_replace, Option.getD_some] at mem
      rcases List.mem_append.mp mem with old | new'
      · exact Or.inl old
      · exact Or.inr ⟨rfl, List.mem_singleton.mp new'⟩
  · left
    split at mem
    · rwa [dictFind_replace_ne same] at mem
    · rwa [dictFind_replace_ne same] at mem

/-- What the loop adds are units of the session on the user's list. -/
theorem mem_userSubscribeAll {dictSub : DictSub} {params : List Json} {unit : SubUnit}
    {other : BitVec 32}
    (mem : unit ∈
      (dictFind (userSubscribeAll dictSub userId ses conn params).1 other).getD []) :
    unit ∈ (dictFind dictSub other).getD [] ∨
      other = userId ∧ unit.ses = ses ∧ unit.conn = conn := by
  induction params generalizing dictSub with
  | nil => exact Or.inl mem
  | cons param params ih =>
      unfold userSubscribeAll at mem
      split at mem
      · exact Or.inl mem
      split at mem
      · exact Or.inl mem
      rcases ih mem with old | new
      · rcases mem_userSubscribe old with old | ⟨user, rfl⟩
        · exact Or.inl old
        · exact Or.inr ⟨user, rfl, rfl⟩
      · exact Or.inr new

theorem Ok.setDictSub (ok : server.Ok) {dictSub : DictSub}
    (listed : ∀ userId, ∀ unit ∈ (dictFind dictSub userId).getD [],
      server.Authenticated unit.conn unit.ses userId) : (server.setDictSub feed dictSub).Ok := by
  refine ⟨ok.svr, ok.apart, ok.cached, ok.nodup, ok.waits, ?_, ok.sent⟩
  intro feed' userId unit mem
  unfold units Server.setDictSub at mem
  by_cases same : feed' = feed
  · subst same
    simp only [Function.update_self] at mem
    exact listed userId unit mem
  · simp only [Function.update_of_ne same] at mem
    exact ok.listed feed' userId unit mem

theorem Ok.listed_userUnsubscribe (ok : server.Ok) {other : BitVec 32} {unit : SubUnit}
    (mem : unit ∈
      (dictFind (userUnsubscribe (server.dictSub feed) userId ses) other).getD []) :
    server.Authenticated unit.conn unit.ses other := by
  rw [find_userUnsubscribe] at mem
  split at mem
  · rename_i same
    rw [same]
    exact ok.listed feed userId unit (List.mem_of_mem_filter mem)
  · exact ok.listed feed other unit mem

theorem Ok.onMethodSubscribe (ok : server.Ok) (here : server.client conn = some (ses, info))
    (feed : Private) (id : BitVec 64) (params : List Json) (fails : Bool) :
    (Server.onMethodSubscribe feed server ses conn id info params fails).Ok := by
  unfold Server.onMethodSubscribe
  split
  · exact ok.reply _ _ (fun _ _ _ absurd_ => by cases absurd_)
  rename_i auth
  rw [Bool.not_eq_true, Bool.not_eq_false'] at auth
  apply Ok.reply
  · apply ok.setDictSub
    intro other unit mem
    rcases mem_userSubscribeAll mem with old | ⟨user, ses', conn'⟩
    · exact ok.listed_userUnsubscribe old
    · rw [ses', conn']
      exact ⟨info, here, auth, user.symm⟩
  · intro feed userId conn
    split <;> exact fun absurd_ => by cases absurd_

theorem Ok.onMethodUnsubscribe (ok : server.Ok) (feed : Private) (id : BitVec 64) (fails : Bool) :
    (Server.onMethodUnsubscribe feed server ses id info fails).Ok := by
  unfold Server.onMethodUnsubscribe
  split
  · exact ok.reply _ _ (fun _ _ _ absurd_ => by cases absurd_)
  · apply Ok.reply
    · exact ok.setDictSub fun _ _ mem => ok.listed_userUnsubscribe mem
    · exact fun _ _ _ absurd_ => by cases absurd_

/-! ## Notifications -/

/-- What a unit of a user is sent is private; when sending fails, the session leaves the
list. -/
theorem Ok.notifyUnit (ok : server.Ok) {unit : SubUnit} (mem : unit ∈ server.units feed userId)
    (name : String) (delivery : Delivery) :
    (Server.notifyUnit feed userId name delivery server unit).Ok ∧
      (Server.notifyUnit feed userId name delivery server unit).units feed userId =
        if unit.name = name ∧ delivery.fails unit.ses = true then
          (server.units feed userId).filter (·.ses ≠ unit.ses)
        else server.units feed userId := by
  obtain ⟨info, here, auth, user⟩ := ok.listed feed userId unit mem
  obtain ⟨opened, own⟩ := client_eq_some.mp here
  obtain ⟨_, cell, found, conn, nonzero⟩ := NwSvr.openAt_eq_some.mp opened
  have sending (fails : Bool) :
      (server.send unit.ses (.update feed userId unit.conn) fails).Ok := by
    apply ok.send
    intro cell' found'
    rw [found] at found'
    cases found'
    refine ⟨nonzero, conn, server.infos info, ?_, auth, user⟩
    rw [own]
    rfl
  unfold Server.notifyUnit
  by_cases same : unit.name = name
  · rw [if_pos same]
    refine ⟨sending _, ?_⟩
    obtain ⟨svr, privdata, units⟩ := send_same server unit.ses (.update feed userId unit.conn)
    cases fails : delivery.fails unit.ses with
    | false =>
        rw [if_neg fun both => Bool.false_ne_true both.2]
        exact congrFun (congrFun units feed) userId
    | true =>
        rw [if_pos ⟨same, rfl⟩, send_fails]
        have after := ((sending false).closed (by rw [svr, opened])).units feed userId
        rwa [privdata, own, Option.isSome_some, if_pos rfl, units] at after
  · rw [if_neg same, if_neg fun both => same both.1]
    exact ⟨ok, rfl⟩

theorem Ok.notify (ok : server.Ok) {name : String} {delivery : Delivery} {closed : List Addr}
    {list : List SubUnit}
    (listed : ∀ unit ∈ list, unit ∈ server.units feed userId ↔ unit.ses ∉ closed)
    (steady : Steady name delivery closed list) :
    (Server.notify feed userId name delivery server list).Ok := by
  induction list generalizing server closed with
  | nil => exact ok
  | cons unit rest ih =>
      have here := listed unit List.mem_cons_self
      have others : ∀ other ∈ rest, other ∈ server.units feed userId ↔ other.ses ∉ closed :=
        fun other mem => listed other (List.mem_cons_of_mem unit mem)
      unfold Server.notify
      unfold Steady at steady
      by_cases mem : unit ∈ server.units feed userId
      · rw [if_neg (not_not_intro mem)]
        rw [if_neg (here.mp mem)] at steady
        obtain ⟨ok', units⟩ := ok.notifyUnit mem name delivery
        generalize Server.notifyUnit feed userId name delivery server unit = after at ok' units
        simp only
        have found : rest.find? (· ∈ server.units feed userId) =
            rest.find? (·.ses ∉ closed) :=
          List.find?_congr fun other mem' => decide_eq_decide.mpr (others other mem')
        rw [found]
        by_cases gone : unit.name = name ∧ delivery.fails unit.ses = true
        · rw [if_pos gone] at steady units
          obtain ⟨apart, steady⟩ := steady
          have left : ∀ other ∈ rest, other ∈ after.units feed userId ↔
              other.ses ∉ unit.ses :: closed := by
            intro other mem'
            rw [units, List.mem_filter, others other mem', decide_eq_true_iff, List.mem_cons,
              not_or, and_comm]
          split
          · exact ok'
          rename_i next next_
          have stays : next ∈ after.units feed userId := by
            rw [left next (List.mem_of_find?_eq_some next_), List.mem_cons, not_or]
            have open_ := List.find?_some next_
            rw [decide_eq_true_iff] at open_
            exact ⟨apart next next_, open_⟩
          rw [if_pos stays]
          exact ih ok' left steady
        · rw [if_neg gone] at steady units
          rw [units]
          split
          · exact ok'
          rename_i next next_
          have stays : next ∈ server.units feed userId := by
            rw [others next (List.mem_of_find?_eq_some next_)]
            have open_ := List.find?_some next_
            rwa [decide_eq_true_iff] at open_
          rw [if_pos stays]
          refine ih ok' ?_ steady
          rw [units]
          exact others
      · rw [if_pos mem]
        rw [if_pos (by_contra fun open_ => mem (here.mpr open_))] at steady
        exact ih ok others steady

theorem Ok.notifyAll (ok : server.Ok) (feed : Private) (userId : BitVec 32) {name : String}
    {delivery : Delivery} (steady : Steady name delivery [] (server.units feed userId)) :
    (Server.notify feed userId name delivery server (server.units feed userId)).Ok := by
  refine ok.notify ?_ steady
  intro unit mem
  exact iff_of_true mem List.not_mem_nil

theorem Ok.setQueries (ok : server.Ok) (queries : NwState BalanceQuery) :
    ({ server with queries := queries } : Server).Ok :=
  ⟨ok.svr, ok.apart, ok.cached, ok.nodup, ok.waits, ok.listed, ok.sent⟩

theorem Ok.setBoard (ok : server.Ok) (board : Board) :
    ({ server with board := board } : Server).Ok :=
  ⟨ok.svr, ok.apart, ok.cached, ok.nodup, ok.waits, ok.listed, ok.sent⟩

/-! ## New clients -/

/-- A new connection is no client yet, and the clients are as before. -/
theorem Ok.client_connect (ok : server.Ok) {fresh : Addr}
    (unused : server.svr.cache.free = [] → server.svr.mem fresh = none)
    (room : server.svr.addrs.length + 1 < 2 ^ 64) :
    (server.onNewConnection fresh).client = server.client := by
  obtain ⟨_, addrs, opened, others⟩ := ok.svr.add unused room
  obtain ⟨notOpen, _⟩ := ok.svr.alloc unused
  funext conn
  apply Option.ext
  rintro ⟨ses, info⟩
  rw [client_eq_some, client_eq_some]
  unfold onNewConnection
  simp only
  rcases Nat.lt_trichotomy conn server.svr.addrs.length with old | same | beyond
  · rw [others conn old]
    constructor
    · rintro ⟨isOpen, own⟩
      have differ : ses ≠ (nwCacheAlloc server.svr.cache fresh).1 := by
        rintro rfl
        exact notOpen conn isOpen
      rw [Function.update_of_ne differ] at own
      exact ⟨isOpen, own⟩
    · rintro ⟨isOpen, own⟩
      have differ : ses ≠ (nwCacheAlloc server.svr.cache fresh).1 := by
        rintro rfl
        exact notOpen conn isOpen
      rw [Function.update_of_ne differ]
      exact ⟨isOpen, own⟩
  · constructor
    · rintro ⟨isOpen, own⟩
      rw [same, opened] at isOpen
      cases isOpen
      rw [Function.update_self] at own
      cases own
    · rintro ⟨isOpen, _⟩
      have inside := (List.getElem?_eq_some_iff.mp (NwSvr.openAt_eq_some.mp isOpen).1).1
      omega
  · constructor
    · rintro ⟨isOpen, _⟩
      have inside := (List.getElem?_eq_some_iff.mp (NwSvr.openAt_eq_some.mp isOpen).1).1
      rw [addrs, List.length_append, List.length_singleton] at inside
      omega
    · rintro ⟨isOpen, _⟩
      have inside := (List.getElem?_eq_some_iff.mp (NwSvr.openAt_eq_some.mp isOpen).1).1
      omega

theorem Ok.onNewConnection (ok : server.Ok) {fresh : Addr}
    (unused : server.svr.cache.free = [] → server.svr.mem fresh = none)
    (room : server.svr.addrs.length + 1 < 2 ^ 64) : (server.onNewConnection fresh).Ok := by
  have client := ok.client_connect unused room
  obtain ⟨svr, addrs, _, others⟩ := ok.svr.add unused room
  constructor
  · exact svr
  · rw [client]
    exact ok.apart
  · rw [client]
    exact ok.cached
  · exact ok.nodup
  · intro via sequence data found
    obtain ⟨conn, known, id, own⟩ := ok.waits via sequence data found
    have inside := (List.getElem?_eq_some_iff.mp known).1
    refine ⟨conn, ?_, id, ?_⟩
    · change (nwSvrAddSes server.svr fresh).addrs[conn]? = some data.ses
      rw [addrs, List.getElem?_append_left inside, known]
    · rw [client]
      intro isOpen
      exact own ((others conn inside).symm.trans isOpen)
  · intro feed userId unit mem
    obtain ⟨info, here, auth, user⟩ := ok.listed feed userId unit mem
    exact ⟨info, by rw [client, here], auth, user⟩
  · exact ok.sent

/-- The memory for a new client is no other client's, and is not kept any more. -/
theorem Ok.alloc (ok : server.Ok) {fresh : Addr}
    (unused : server.privdataCache.free = [] → ∀ conn ses, server.client conn ≠ some (ses, fresh)) :
    (∀ conn ses, server.client conn ≠ some (ses, (nwCacheAlloc server.privdataCache fresh).1)) ∧
      (nwCacheAlloc server.privdataCache fresh).2.free.Nodup ∧
      (nwCacheAlloc server.privdataCache fresh).1 ∉
        (nwCacheAlloc server.privdataCache fresh).2.free ∧
      ∀ info ∈ (nwCacheAlloc server.privdataCache fresh).2.free,
        info ∈ server.privdataCache.free := by
  have nodup := ok.nodup
  unfold nwCacheAlloc
  cases free : server.privdataCache.free with
  | nil =>
      simp only [free]
      exact ⟨unused free, List.nodup_nil, List.not_mem_nil, fun _ mem => mem⟩
  | cons info rest =>
      rw [free, List.nodup_cons] at nodup
      refine ⟨?_, nodup.2, nodup.1, fun _ mem => List.mem_cons_of_mem info mem⟩
      intro conn ses here
      apply ok.cached conn ses info here
      rw [free]
      exact List.mem_cons_self

theorem Ok.onUpgrade (ok : server.Ok) {addr fresh : Addr}
    (opened : server.svr.openAt conn = some addr) (new : server.privdata addr = none)
    (unused : server.privdataCache.free = [] →
      ∀ conn ses, server.client conn ≠ some (ses, fresh)) : (server.onUpgrade addr fresh).Ok := by
  obtain ⟨notClient, nodup, notFree, free⟩ := ok.alloc unused
  unfold Server.onUpgrade
  generalize nwCacheAlloc server.privdataCache fresh = alloc at notClient nodup notFree free
  rcases alloc with ⟨info, cache⟩
  simp only at notClient nodup notFree free ⊢
  -- the other clients are as before
  have old {other : ℕ} {ses info' : Addr} (differ : other ≠ conn) :
      ({ server with
          privdata := Function.update server.privdata addr (some info)
          privdataCache := cache
          infos := Function.update server.infos info ⟨false, 0⟩ } : Server).client other =
        some (ses, info') ↔ server.client other = some (ses, info') := by
    rw [client_eq_some, client_eq_some]
    simp only
    constructor
    · rintro ⟨isOpen, own⟩
      have apart : ses ≠ addr := by
        rintro rfl
        exact differ (NwSvr.openAt_injective isOpen opened)
      rw [Function.update_of_ne apart] at own
      exact ⟨isOpen, own⟩
    · rintro ⟨isOpen, own⟩
      have apart : ses ≠ addr := by
        rintro rfl
        exact differ (NwSvr.openAt_injective isOpen opened)
      rw [Function.update_of_ne apart]
      exact ⟨isOpen, own⟩
  have here : ({ server with
      privdata := Function.update server.privdata addr (some info)
      privdataCache := cache
      infos := Function.update server.infos info ⟨false, 0⟩ } : Server).client conn =
        some (addr, info) :=
    client_eq_some.mpr ⟨opened, Function.update_self ..⟩
  have wasNot {ses info' : Addr} : server.client conn ≠ some (ses, info') := by
    intro was
    obtain ⟨isOpen, own⟩ := client_eq_some.mp was
    rw [opened] at isOpen
    cases isOpen
    rw [new] at own
    cases own
  constructor
  · exact ok.svr
  · intro first second ses ses' info' one two
    by_cases same : first = conn
    · by_cases same' : second = conn
      · rw [same, same']
      · rw [same, here] at one
        cases one
        exact absurd ((old same').mp two) (notClient second ses')
    · by_cases same' : second = conn
      · rw [same', here] at two
        cases two
        exact absurd ((old same).mp one) (notClient first ses)
      · exact ok.apart first second ses ses' info' ((old same).mp one) ((old same').mp two)
  · intro other ses info' one
    by_cases same : other = conn
    · rw [same, here] at one
      cases one
      exact notFree
    · intro mem
      exact ok.cached other ses info' ((old same).mp one) (free info' mem)
  · exact nodup
  · intro via sequence data found
    obtain ⟨other, known, id, own⟩ := ok.waits via sequence data found
    refine ⟨other, known, id, ?_⟩
    intro isOpen
    have differ : other ≠ conn := by
      rintro rfl
      exact wasNot (own isOpen)
    exact (old differ).mpr (own isOpen)
  · intro feed userId unit mem
    obtain ⟨info', was, auth, user⟩ := ok.listed feed userId unit mem
    have differ : unit.conn ≠ conn := by
      intro same
      rw [same] at was
      exact wasNot was
    have apart : info' ≠ info := by
      rintro rfl
      exact notClient unit.conn unit.ses was
    refine ⟨info', (old differ).mpr was, ?_, ?_⟩
    · simp only [Function.update_of_ne apart]
      exact auth
    · simp only [Function.update_of_ne apart]
      exact user
  · exact ok.sent

/-! ## Runs -/

theorem Ok.serve (ok : server.Ok) {handler : Addr → Addr → Server}
    (handles : ∀ ses info, server.client conn = some (ses, info) → (handler ses info).Ok) :
    (server.serve conn handler).Ok := by
  unfold Server.serve
  split
  · exact ok
  · rename_i ses info here
    exact handles ses info here

theorem Ok.step (settings : Settings) (ok : server.Ok) {event : Event} (fits : server.Fits event) :
    (server.step settings event).Ok := by
  cases event with
  | connect fresh => exact ok.onNewConnection fits.1 fits.2
  | upgrade conn fresh =>
      unfold Server.step
      simp only
      split
      · exact ok
      rename_i addr opened
      split
      · exact ok
      · rename_i new
        rw [Option.not_isSome_iff_eq_none] at new
        exact ok.onUpgrade opened new fits
  | close conn =>
      unfold Server.step
      simp only
      split
      · exact ok
      · exact ok.closeSes _
  | watch ses head => exact ok.setBoard _
  | subscribeFeed conn kind key => exact ok.serve fun ses info _ => ok.setBoard _
  | unsubscribeFeed conn kind => exact ok.serve fun ses info _ => ok.setBoard _
  | request via conn id params fails =>
      exact ok.serve fun ses info here => ok.sendRequest here via id params fails
  | finish via sequence result fails => exact ok.onFinish via sequence result fails
  | timeout via sequence fails => exact ok.onTimeout via sequence fails
  | subscribe feed conn id params fails =>
      exact ok.serve fun ses info here => ok.onMethodSubscribe here feed id params fails
  | unsubscribe feed conn id fails =>
      exact ok.serve fun ses info _ => ok.onMethodUnsubscribe feed id fails
  | orderUpdate userId market delivery =>
      cases market with
      | none => exact ok
      | some market => exact ok.notifyAll .order userId (fits market rfl)
  | assetUpdate userId asset =>
      unfold Server.step assetOnUpdate
      simp only
      split
      · split
        · exact ok
        · exact ok.setQueries _
      · exact ok
  | balanceReply sequence accepted delivery =>
      unfold Server.step onBalanceReply
      simp only
      split
      · exact ok
      rename_i query found
      apply Ok.setQueries
      split
      · rename_i accepted
        exact ok.notifyAll .asset query.userId (fits accepted query found)
      · exact ok
  | balanceTimeout sequence => exact ok.setQueries _

theorem Ok.run {settings : Settings} {events : List Event} (ok : server.Ok)
    (fits : RunFits settings server events) : (server.run settings events).Ok := by
  induction events generalizing server with
  | nil => exact ok
  | cons event events ih => exact ih (ok.step settings fits.1) fits.2

theorem RunFits.append {settings : Settings} {past events : List Event}
    (fits : RunFits settings server past)
    (more : RunFits settings (server.run settings past) events) :
    RunFits settings server (past ++ events) := by
  induction past generalizing server with
  | nil => exact more
  | cons event past ih => exact ⟨fits.1, ih fits.2 more⟩

theorem RunFits.append_left {settings : Settings} {past events : List Event}
    (fits : RunFits settings server (past ++ events)) : RunFits settings server past := by
  induction past generalizing server with
  | nil => trivial
  | cons event past ih => exact ⟨fits.1, ih fits.2⟩

end Server

/-- The lists of a user hold only open sessions that are this user's clients now, and
what is sent for a user goes to those that subscribed, as long as no loop over a list goes
on in memory that was freed. -/
theorem private_feeds_stay_private (settings : Settings) (heads : Heads)
    (events : List Server.Event) (fits : Server.RunFits settings (.init heads) events) :
    ∀ past, past <+: events →
      let server := (Server.init heads).run settings past
      (∀ feed userId, ∀ unit ∈ server.units feed userId,
        server.Authenticated unit.conn unit.ses userId) ∧
      ∀ sent ∈ server.sent, sent.Private := by
  rintro past ⟨later, rfl⟩
  have ok := (Server.Ok.init heads).run fits.append_left
  exact ⟨ok.listed, ok.sent⟩

/-- Two clients become users 7 and 8, and the first subscribes to its orders on two
markets. -/
def twoUsers : List Server.Event :=
  let login (conn : ℕ) (userId : BitVec 64) : List Server.Event :=
    [.connect (100 * conn), .upgrade conn (100 * conn + 50),
      .request .auth conn 1 [.string "token", .string "web"] false,
      .finish .auth (BitVec.ofNat 32 (conn + 1))
        (some ⟨some (.integer 0), none, some (.integer userId)⟩) false]
  login 0 7 ++ login 1 8 ++
    [.subscribe .order 0 2 [.string "BTCUSD", .string "LTCUSD"] false]

theorem twoUsers_units :
    ((Server.init fun _ => []).run ⟨fun _ => true, fun _ => true⟩ twoUsers).units .order 7 =
      [⟨0, "BTCUSD", 0⟩, ⟨0, "LTCUSD", 0⟩] := by
  decide +kernel

theorem twoUsers_fits :
    Server.RunFits ⟨fun _ => true, fun _ => true⟩ (.init fun _ => []) twoUsers := by
  have fresh (server : Server) (fresh : Addr) (writes : List (Addr × Option Addr))
      (privdata : server.privdata =
        writes.foldr (fun write rest => Function.update rest write.1 write.2) fun _ => none)
      (differ : ∀ write ∈ writes, write.2 ≠ some fresh) (conn : ℕ) (ses : Addr) :
      server.client conn ≠ some (ses, fresh) := by
    intro here
    have own := (Server.client_eq_some.mp here).2
    rw [privdata] at own
    clear privdata here
    induction writes with
    | nil => cases own
    | cons write writes ih =>
        rw [List.foldr_cons] at own
        by_cases same : ses = write.1
        · rw [same, Function.update_self] at own
          exact differ write List.mem_cons_self own
        · rw [Function.update_of_ne same] at own
          exact ih (fun other mem => differ other (List.mem_cons_of_mem write mem)) own
  have kept (server : Server) (sequence : BitVec 32) (data : StateData)
      (waits : nwStateGet (server.contexts .auth) sequence = some data)
      (isSome : (server.svr.mem data.ses).isSome) :
      ∀ data, nwStateGet (server.contexts .auth) sequence = some data →
        (server.svr.mem data.ses).isSome := by
    intro data' found
    rw [waits, Option.some.injEq] at found
    rwa [← found]
  refine ⟨⟨fun _ => rfl, by decide⟩, ?_, trivial, ?_, ⟨fun _ => rfl, by decide⟩, ?_, trivial, ?_,
    trivial, trivial⟩
  · exact fun _ => fresh _ 50 [(0, none)] rfl (by decide)
  · exact kept _ 1 ⟨0, 1, 1, 50⟩ rfl rfl
  · exact fun _ => fresh _ 150 [(100, none), (0, some 50), (0, none)] rfl (by decide)
  · exact kept _ 2 ⟨100, 2, 1, 150⟩ rfl rfl

/-- An update is sent to the first client, and sending fails at its last unit. -/
theorem private_feeds_stay_private_small :
    let events := twoUsers ++ [.orderUpdate 7 (some "LTCUSD") ⟨fun _ => true, []⟩]
    let server := (Server.init fun _ => []).run ⟨fun _ => true, fun _ => true⟩ events
    (∀ feed userId, ∀ unit ∈ server.units feed userId,
      server.Authenticated unit.conn unit.ses userId) ∧
    ∀ sent ∈ server.sent, sent.Private := by
  intro events
  have steady : Server.Steady "LTCUSD" ⟨fun _ => true, []⟩ []
      [⟨0, "BTCUSD", 0⟩, ⟨0, "LTCUSD", 0⟩] := by
    simp [Server.Steady]
  have fits : Server.RunFits ⟨fun _ => true, fun _ => true⟩ (.init fun _ => []) events := by
    refine twoUsers_fits.append ⟨?_, trivial⟩
    rintro _ ⟨rfl⟩
    rw [twoUsers_units]
    exact steady
  exact private_feeds_stay_private _ _ events fits events List.prefix_rfl

/-- Sending fails at the first of two units of a client. Both are freed, and the loop
goes on with what is in the memory of the second, where it may find a session of somebody
else. -/
theorem private_feeds_not_always_private :
    ¬∀ delivery : Server.Delivery, ∀ sent ∈ ((Server.init fun _ => []).run
      ⟨fun _ => true, fun _ => true⟩
        (twoUsers ++ [.orderUpdate 7 (some "BTCUSD") delivery])).sent, sent.Private := by
  intro private_
  have mem : (⟨⟨2, 1⟩, some ⟨true, 8⟩, .update .order 7 1⟩ : Sent) ∈
      ((Server.init fun _ => []).run ⟨fun _ => true, fun _ => true⟩
        (twoUsers ++ [.orderUpdate 7 (some "BTCUSD")
          ⟨fun ses => ses = 0, [⟨100, "BTCUSD", 1⟩]⟩])).sent := by
    decide +kernel
  obtain ⟨_, _, info, own, _, user⟩ := private_ _ _ mem
  cases own
  cases user

end ViabtcServer.AccessWs
