import Mathlib.Data.List.Induction
import ViabtcServer.AccessWs.Feed

/-!
# Sets of sessions

Whether the dictionaries hold the sessions that subscribed and have not unsubscribed
since, while libev changes what is in memory at the sessions.
-/

namespace ViabtcServer.AccessWs

open Container
open Network (Addr)

/-! ## Calls -/

/-- What happens to the feeds. -/
inductive Call
  /-- libev changes the watcher of a session. -/
  | watch (ses : Addr) (head : List Wire.Byte)
  | subscribe (ses : Addr) (kind : Kind) (key : kind.Key)
  | unsubscribe (ses : Addr) (kind : Kind)

/-- The feeds, and what is in memory at the sessions. -/
structure Board where
  heads : Heads
  feeds : Feeds

namespace Board

def init (heads : Heads) : Board := ⟨heads, .init⟩

def step (settings : Settings) (board : Board) : Call → Board
  | .watch ses head => { board with heads := Function.update board.heads ses head }
  | .subscribe ses kind key =>
      { board with
        feeds := Function.update board.feeds kind
          (kind.subscribe settings board.heads (board.feeds kind) ses key) }
  | .unsubscribe ses kind =>
      { board with
        feeds := Function.update board.feeds kind
          (kind.unsubscribe board.heads (board.feeds kind) ses) }

def run (settings : Settings) (board : Board) (calls : List Call) : Board :=
  calls.foldl (step settings) board

/-- How often a session is in the dictionary of a key. -/
def stored (board : Board) (kind : Kind) (key : kind.Key) (ses : Addr) : ℕ :=
  AccessWs.stored (board.feeds kind) key ses

/-- The sessions a call looks for are in the buckets that are selected by what is in
memory at them now, where they are stored. -/
def Stable (settings : Settings) (board : Board) : Call → Prop
  | .watch _ _ => True
  | .subscribe ses kind key =>
      kind.good settings key = true → Placed board.heads (board.feeds kind) ses key
  | .unsubscribe ses kind => ∀ key, Placed board.heads (board.feeds kind) ses key

end Board

/-- A session subscribed to a key and has not unsubscribed since. -/
def Subscribed (settings : Settings) (calls : List Call) (kind : Kind) (key : kind.Key)
    (ses : Addr) : Prop :=
  kind.good settings key = true ∧
    ∃ before after, calls = before ++ Call.subscribe ses kind key :: after ∧
      Call.unsubscribe ses kind ∉ after

/-- The dictionaries hold each session once where it is subscribed, and nowhere else. -/
def Board.Exact (settings : Settings) (board : Board) (calls : List Call) : Prop :=
  ∀ kind (key : kind.Key) ses,
    (Subscribed settings calls kind key ses → board.stored kind key ses = 1) ∧
      (¬Subscribed settings calls kind key ses → board.stored kind key ses = 0)

/-! ## Subscriptions -/

section Subscriptions

variable {settings : Settings} {calls : List Call} {kind : Kind} {key : kind.Key} {ses : Addr}

theorem not_subscribed_nil : ¬Subscribed settings [] kind key ses := by
  rintro ⟨_, before, after, split, _⟩
  exact List.append_ne_nil_of_right_ne_nil before (List.cons_ne_nil _ after) split.symm

/-- What one more call does to the subscriptions. -/
theorem subscribed_concat (calls : List Call) (call : Call) :
    Subscribed settings (calls ++ [call]) kind key ses ↔
      call = .subscribe ses kind key ∧ kind.good settings key = true ∨
        call ≠ .unsubscribe ses kind ∧ Subscribed settings calls kind key ses := by
  constructor
  · rintro ⟨accepted, before, after, split, since⟩
    rcases List.eq_nil_or_concat after with rfl | ⟨after, last, rfl⟩
    · obtain ⟨_, same⟩ := List.append_inj' split rfl
      exact Or.inl ⟨List.singleton_inj.mp same, accepted⟩
    · rw [List.concat_eq_append] at split since
      rw [← List.cons_append, ← List.append_assoc] at split
      obtain ⟨rest, same⟩ := List.append_inj' split rfl
      cases List.singleton_inj.mp same
      rw [List.mem_append, not_or, List.mem_singleton] at since
      exact Or.inr ⟨Ne.symm since.2, accepted, before, after, rest, since.1⟩
  · rintro (⟨rfl, accepted⟩ | ⟨differ, accepted, before, after, rfl, since⟩)
    · exact ⟨accepted, calls, [], rfl, List.not_mem_nil⟩
    · refine ⟨accepted, before, after ++ [call], ?_, ?_⟩
      · rw [List.append_assoc]
        rfl
      · rw [List.mem_append, not_or, List.mem_singleton]
        exact ⟨since, Ne.symm differ⟩

end Subscriptions

/-! ## Steps -/

section Step

variable {settings : Settings} {board : Board} {calls : List Call} {kind : Kind} {key : kind.Key}
  {ses : Addr}

namespace Board

theorem stored_subscribe :
    (board.step settings (.subscribe ses kind key)).stored kind key ses =
      AccessWs.stored
        (AccessWs.subscribe (kind.good settings) board.heads (board.feeds kind) ses key)
        key ses := by
  rw [← Kind.subscribe_eq]
  exact congrArg (AccessWs.stored · key ses) (Function.update_self ..)

theorem stored_unsubscribe :
    (board.step settings (.unsubscribe ses kind)).stored kind key ses =
      AccessWs.stored (AccessWs.unsubscribe board.heads (board.feeds kind) ses) key ses := by
  rw [← Kind.unsubscribe_eq]
  exact congrArg (AccessWs.stored · key ses) (Function.update_self ..)

/-- A call changes nothing else. -/
theorem stored_step_other {call : Call}
    (subscribe : ¬(call = .subscribe ses kind key ∧ kind.good settings key = true))
    (unsubscribe : call ≠ .unsubscribe ses kind) :
    (board.step settings call).stored kind key ses = board.stored kind key ses := by
  have elsewhere {kind' : Kind} (differ : kind ≠ kind') (feed : Feed kind'.Key) :
      AccessWs.stored (Function.update board.feeds kind' feed kind) key ses =
        AccessWs.stored (board.feeds kind) key ses := by
    rw [Function.update_of_ne differ]
  cases call with
  | watch ses' head => rfl
  | subscribe ses' kind' key' =>
      by_cases kinds : kind = kind'
      · subst kinds
        have here := congrArg (AccessWs.stored · key ses)
          (Function.update_self kind (kind.subscribe settings board.heads (board.feeds kind)
            ses' key') board.feeds)
        apply here.trans
        rw [Kind.subscribe_eq]
        by_cases same : ses' = ses ∧ key = key'
        · rcases same with ⟨rfl, rfl⟩
          have refused : ¬kind.good settings key = true := fun good => subscribe ⟨rfl, good⟩
          exact congrArg (AccessWs.stored · key ses') (subscribe_of_refused refused)
        · exact stored_subscribe_other same
      · exact elsewhere kinds _
  | unsubscribe ses' kind' =>
      by_cases kinds : kind = kind'
      · subst kinds
        have differ : ses' ≠ ses := fun same => unsubscribe (same ▸ rfl)
        have here := congrArg (AccessWs.stored · key ses)
          (Function.update_self kind (kind.unsubscribe board.heads (board.feeds kind) ses')
            board.feeds)
        apply here.trans
        rw [Kind.unsubscribe_eq]
        exact stored_unsubscribe_other differ key
      · exact elsewhere kinds _

theorem Exact.once (exact : board.Exact settings calls) (kind : Kind) (key : kind.Key)
    (ses : Addr) : board.stored kind key ses ≤ 1 := by
  by_cases subscribed : Subscribed settings calls kind key ses
  · exact le_of_eq ((exact kind key ses).1 subscribed)
  · exact le_of_eq_of_le ((exact kind key ses).2 subscribed) (Nat.zero_le 1)

/-- One call keeps the dictionaries exact when the sessions it looks for are where it
looks, and only then. -/
theorem Exact.step_iff (exact : board.Exact settings calls) (call : Call) :
    (board.step settings call).Exact settings (calls ++ [call]) ↔
      board.Stable settings call := by
  constructor
  · intro after
    cases call with
    | watch ses head => trivial
    | subscribe ses kind key =>
        intro accepted
        have now := (subscribed_concat calls (.subscribe ses kind key)).mpr (Or.inl ⟨rfl, accepted⟩)
        have once := (after kind key ses).1 now
        rw [stored_subscribe] at once
        exact (stored_subscribe_iff accepted (exact.once kind key ses)).mp once
    | unsubscribe ses kind =>
        intro key
        have gone : ¬Subscribed settings (calls ++ [.unsubscribe ses kind]) kind key ses := by
          rw [subscribed_concat]
          rintro (⟨now, _⟩ | ⟨absurd_, _⟩)
          · cases now
          · exact absurd_ rfl
        have none_ := (after kind key ses).2 gone
        rw [stored_unsubscribe] at none_
        exact (stored_unsubscribe_iff (exact.once kind key ses)).mp none_
  · intro stable kind key ses
    rw [subscribed_concat]
    by_cases now : call = .subscribe ses kind key ∧ kind.good settings key = true
    · rcases now with ⟨rfl, accepted⟩
      have once : (board.step settings (.subscribe ses kind key)).stored kind key ses = 1 := by
        rw [stored_subscribe]
        exact (stored_subscribe_iff accepted (exact.once kind key ses)).mpr (stable accepted)
      exact ⟨fun _ => once, fun no => absurd (Or.inl ⟨rfl, accepted⟩) no⟩
    · by_cases gone : call = .unsubscribe ses kind
      · subst gone
        have none_ : (board.step settings (.unsubscribe ses kind)).stored kind key ses = 0 := by
          rw [stored_unsubscribe]
          exact (stored_unsubscribe_iff (exact.once kind key ses)).mpr (stable key)
        refine ⟨?_, fun _ => none_⟩
        rintro (absurd_ | ⟨absurd_, _⟩)
        · exact absurd absurd_ now
        · exact absurd rfl absurd_
      · rw [stored_step_other now gone]
        have still : call = .subscribe ses kind key ∧ kind.good settings key = true ∨
            call ≠ .unsubscribe ses kind ∧ Subscribed settings calls kind key ses ↔
              Subscribed settings calls kind key ses := by
          constructor
          · rintro (absurd_ | ⟨_, before⟩)
            · exact absurd absurd_ now
            · exact before
          · exact fun before => Or.inr ⟨gone, before⟩
        rw [still]
        exact exact kind key ses

end Board

end Step

/-! ## Runs -/

section Run

variable {settings : Settings}

theorem Board.init_exact (heads : Heads) : (Board.init heads).Exact settings [] := by
  intro kind key ses
  refine ⟨fun absurd_ => absurd absurd_ not_subscribed_nil, fun _ => ?_⟩
  exact stored_of_none dictFind_empty ses

theorem Board.run_concat (board : Board) (calls : List Call) (call : Call) :
    board.run settings (calls ++ [call]) = (board.run settings calls).step settings call := by
  unfold Board.run
  rw [List.foldl_concat]

/-- For as long as the dictionaries of all feeds are to hold each session once while it
is subscribed and not at all otherwise, what is in memory at a session must select the
bucket that holds it each time the session is subscribed again or unsubscribed. -/
theorem sessions_exact_iff (heads : Heads) (calls : List Call) :
    (∀ past, past <+: calls → ((Board.init heads).run settings past).Exact settings past) ↔
      ∀ past call, past ++ [call] <+: calls →
        ((Board.init heads).run settings past).Stable settings call := by
  constructor
  · intro exact past call begins
    rw [← (exact past ((List.prefix_append past [call]).trans begins)).step_iff,
      ← Board.run_concat]
    exact exact _ begins
  · intro stable past begins
    induction past using List.reverseRecOn with
    | nil => exact Board.init_exact heads
    | append_singleton past call ih =>
        rw [Board.run_concat,
          (ih ((List.prefix_append past [call]).trans begins)).step_iff]
        exact stable past call begins

end Run

/-- The watcher of a session becomes pending before it unsubscribes: it is looked for in
another bucket, and stays. -/
theorem sessions_not_always_exact :
    ¬∀ (settings : Settings) (heads : Heads) (calls : List Call),
      ((Board.init heads).run settings calls).Exact settings calls := by
  intro exact
  let key : Kind.depth.Key := (⟨"BTCUSD", "0", 10⟩ : DepthKey)
  let calls : List Call :=
    [.subscribe 0 .depth key, .watch 0 [1, 0, 0, 0, 1, 0, 0, 0], .unsubscribe 0 .depth]
  let settings : Settings := ⟨fun _ => true, fun _ => true⟩
  have gone : ¬Subscribed settings calls .depth key 0 := by
    change ¬Subscribed settings (calls.take 2 ++ [.unsubscribe 0 .depth]) .depth key 0
    rw [subscribed_concat]
    rintro (⟨now, _⟩ | ⟨absurd_, _⟩)
    · cases now
    · exact absurd_ rfl
  have none_ := (exact settings (fun _ => [1, 0, 0, 0, 0, 0, 0, 0]) calls .depth key 0).2 gone
  have stays : ((Board.init fun _ => [1, 0, 0, 0, 0, 0, 0, 0]).run settings calls).stored .depth
      key 0 = 1 := by
    decide +kernel
  rw [stays] at none_
  cases none_

end ViabtcServer.AccessWs
