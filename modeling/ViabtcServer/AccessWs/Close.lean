import ViabtcServer.AccessWs.Private

/-!
# Closing

What is left of a session in the dictionaries and lists when it is closed.
-/

namespace ViabtcServer.AccessWs

open Container Network

namespace Server

variable {server : Server} {conn : ℕ} {ses info : Addr}

/-- A session is in a dictionary of a public feed or on a list of a user. -/
def Registered (server : Server) (ses : Addr) : Prop :=
  (∃ kind, ∃ key : kind.Key, server.board.stored kind key ses ≠ 0) ∨
    ∃ feed userId, ∃ unit ∈ server.units feed userId, unit.ses = ses

/-- A session is in no dictionary of market states, and where it is in another dictionary
it is there once, in the bucket that is selected by what is in memory at it now. -/
def Removable (server : Server) (ses : Addr) : Prop :=
  ∀ kind (key : kind.Key),
    if kind = .state then server.board.stored kind key ses = 0
    else server.board.stored kind key ses ≤ 1 ∧
      Placed server.board.heads (server.board.feeds kind) ses key

theorem onClose_board (server : Server) (ses info : Addr) :
    (server.onClose ses info).board =
      { server.board with feeds := closeFeeds server.board.heads server.board.feeds ses } := by
  unfold onClose leave
  simp only
  split <;> rfl

theorem closeFeeds_eq (heads : Heads) (feeds : Feeds) (ses : Addr) (kind : Kind) :
    closeFeeds heads feeds ses kind =
      if kind = .state then feeds kind else unsubscribe heads (feeds kind) ses := by
  cases kind <;> rfl

/-- What is left in the dictionaries of a kind. -/
theorem stored_onClose_iff (kind : Kind) (key : kind.Key) :
    (server.onClose ses info).board.stored kind key ses = 0 ↔
      if kind = .state then server.board.stored kind key ses = 0
      else server.board.stored kind key ses ≤ 1 ∧
        Placed server.board.heads (server.board.feeds kind) ses key := by
  rw [onClose_board]
  unfold Board.stored
  simp only
  rw [closeFeeds_eq]
  split
  · rfl
  · exact stored_unsubscribe_eq_zero_iff

/-- `on_close` takes a session out of all dictionaries and lists exactly when it can. -/
theorem Ok.onClose_iff (ok : server.Ok) (here : server.client conn = some (ses, info)) :
    ¬(server.onClose ses info).Registered ses ↔ server.Removable ses := by
  have lists (feed : Private) (userId : BitVec 32) :
      ∀ unit ∈ (server.onClose ses info).units feed userId, unit.ses ≠ ses := by
    intro unit mem
    rw [ok.units_onClose here, List.mem_filter, decide_eq_true_iff] at mem
    exact mem.2
  constructor
  · intro gone kind key
    apply (stored_onClose_iff kind key).mp
    by_contra left
    exact gone (Or.inl ⟨kind, key, left⟩)
  · rintro removable (⟨kind, key, left⟩ | ⟨feed, userId, unit, mem, same⟩)
    · exact left ((stored_onClose_iff kind key).mpr (removable kind key))
    · exact lists feed userId unit mem same

end Server

/-- After any run, closing a session takes it out of all dictionaries and lists exactly when
it is in no dictionary of market states, and its hash still leads to it in the others. -/
theorem close_unregisters_iff (settings : Settings) (heads : Heads) (events : List Server.Event)
    (fits : Server.RunFits settings (.init heads) events) (conn : ℕ) (ses info : Addr)
    (here : ((Server.init heads).run settings events).client conn = some (ses, info)) :
    ¬(((Server.init heads).run settings events).onClose ses info).Registered ses ↔
      ((Server.init heads).run settings events).Removable ses :=
  ((Server.Ok.init heads).run fits).onClose_iff here

theorem twoUsers_subscribeFeed_fits (kind : Kind) (key : kind.Key) :
    Server.RunFits ⟨fun _ => true, fun _ => true⟩ (.init fun _ => [])
      (twoUsers ++ [.subscribeFeed 0 kind key]) :=
  twoUsers_fits.append (And.intro trivial trivial)

/-- The first of two clients is closed, which has subscribed to prices as well. -/
theorem close_unregisters_small :
    let events := twoUsers ++ [.subscribeFeed 0 .price ("BTCUSD" : String)]
    let server := (Server.init fun _ => []).run ⟨fun _ => true, fun _ => true⟩ events
    ¬(server.onClose 0 50).Registered 0 ↔ server.Removable 0 :=
  close_unregisters_iff _ _ _ (twoUsers_subscribeFeed_fits _ _) 0 0 50 rfl

/-- A client that has subscribed to the state of a market stays in its dictionary. -/
theorem close_not_always_unregisters :
    ¬∀ (settings : Settings) (heads : Heads) (events : List Server.Event) (conn : ℕ)
      (ses info : Addr), Server.RunFits settings (.init heads) events →
      ((Server.init heads).run settings events).client conn = some (ses, info) →
      ¬(((Server.init heads).run settings events).onClose ses info).Registered ses := by
  intro always
  have gone := always ⟨fun _ => true, fun _ => true⟩ (fun _ => [])
    (twoUsers ++ [.subscribeFeed 0 .state ("BTCUSD" : String)]) 0 0 50
    (twoUsers_subscribeFeed_fits _ _) rfl
  apply gone
  left
  refine ⟨.state, ("BTCUSD" : String), ?_⟩
  decide +kernel

end ViabtcServer.AccessWs
