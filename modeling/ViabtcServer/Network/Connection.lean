import Mathlib.Data.List.Basic
import Mathlib.Data.List.Nodup
import Mathlib.Algebra.Group.Nat.Defs

/-!
# Connections in recycled memory

The sessions of `nw_svr`: each lives in memory that a closed session may have used
before, and has an id of its own while it is open.
-/

namespace ViabtcServer.Network

/-- Where a session is in memory. -/
abbrev Addr := ℕ

/-! ## Memory -/

/-- `nw_cache`; `free` is `free_arr`, the last first. -/
structure NwCache where
  free : List Addr
  freeTotal : ℕ

/-- `nw_cache_create`. -/
def nwCacheCreate : NwCache := ⟨[], 64⟩

/-- `nw_cache_alloc`, where `malloc` returns `fresh`. -/
def nwCacheAlloc (cache : NwCache) (fresh : Addr) : Addr × NwCache :=
  match cache.free with
  | addr :: free => (addr, { cache with free := free })
  | [] => (fresh, cache)

/-- `nw_cache_free`, and whether the cache keeps the memory. -/
def nwCacheFree (cache : NwCache) (obj : Addr) : NwCache × Bool :=
  if cache.free.length < cache.freeTotal then
    ({ cache with free := obj :: cache.free }, true)
  else if cache.freeTotal < 65535 then
    (⟨obj :: cache.free, cache.freeTotal * 2⟩, true)
  else (cache, false)

/-- The cache keeps memory that is freed next. -/
def NwCache.Room (cache : NwCache) : Prop :=
  cache.free.length < cache.freeTotal ∨ cache.freeTotal < 65535

theorem nwCacheFree_free (cache : NwCache) (obj : Addr) :
    (nwCacheFree cache obj).1.free =
      if (nwCacheFree cache obj).2 then obj :: cache.free else cache.free := by
  unfold nwCacheFree
  split
  · rfl
  · split <;> rfl

/-! ## Sessions -/

/-- Of `nw_ses` the id, and which connection of the server it is or was. -/
structure NwSes where
  id : BitVec 64
  conn : ℕ
  deriving DecidableEq

/-- `nw_svr`: the memory of its sessions, and the address of each connection there
was. -/
structure NwSvr where
  mem : Addr → Option NwSes
  idStart : BitVec 64
  cache : NwCache
  addrs : List Addr

def NwSvr.empty : NwSvr := ⟨fun _ => none, 0, nwCacheCreate, []⟩

/-- The id of a new session, and what `id_start` becomes. -/
def newSesId (idStart : BitVec 64) : BitVec 64 × BitVec 64 :=
  if idStart = 0 then (idStart + 1, idStart + 1 + 1) else (idStart, idStart + 1)

def NwSvr.store (svr : NwSvr) (addr : Addr) (ses : Option NwSes) : NwSvr :=
  { svr with mem := fun other => if other = addr then ses else svr.mem other }

/-- `nw_svr_add_ses`. -/
def nwSvrAddSes (svr : NwSvr) (fresh : Addr) : NwSvr :=
  let (addr, cache) := nwCacheAlloc svr.cache fresh
  let (id, idStart) := newSesId svr.idStart
  { svr.store addr (some ⟨id, svr.addrs.length⟩) with
    idStart := idStart
    cache := cache
    addrs := svr.addrs ++ [addr] }

/-- `nw_svr_close_ses`; memory the cache does not keep is not a session's any more. -/
def nwSvrCloseSes (svr : NwSvr) (addr : Addr) : NwSvr :=
  match svr.mem addr with
  | none => svr
  | some ses =>
      if ses.id = 0 then svr
      else
        let (cache, kept) := nwCacheFree svr.cache addr
        { svr.store addr (if kept then some { ses with id := 0 } else none) with cache := cache }

/-- What `ses->id` is for a pointer that was kept. -/
def NwSvr.idAt (svr : NwSvr) (addr : Addr) : Option (BitVec 64) :=
  (svr.mem addr).map NwSes.id

/-- The session of a connection, if it is open. -/
def NwSvr.openAt (svr : NwSvr) (conn : ℕ) : Option Addr :=
  svr.addrs[conn]?.filter fun addr =>
    (svr.mem addr).any fun ses => ses.conn = conn ∧ ses.id ≠ 0

/-- Closing a session that is closed does nothing. -/
theorem nwSvrCloseSes_idem (svr : NwSvr) (addr : Addr) :
    nwSvrCloseSes (nwSvrCloseSes svr addr) addr = nwSvrCloseSes svr addr := by
  have none_ {svr : NwSvr} (closed : svr.mem addr = none ∨ ∃ conn, svr.mem addr = some ⟨0, conn⟩) :
      nwSvrCloseSes svr addr = svr := by
    unfold nwSvrCloseSes
    rcases closed with eq | ⟨conn, eq⟩
    · rw [eq]
    · rw [eq]
      exact if_pos rfl
  have here (ses : Option NwSes) : (svr.store addr ses).mem addr = ses := if_pos rfl
  cases found : svr.mem addr with
  | none => rw [none_ (Or.inl found), none_ (Or.inl found)]
  | some ses =>
      by_cases closed : ses.id = 0
      · have still : svr.mem addr = some ⟨0, ses.conn⟩ := by rw [found, ← closed]
        rw [none_ (Or.inr ⟨_, still⟩), none_ (Or.inr ⟨_, still⟩)]
      · apply none_
        unfold nwSvrCloseSes
        simp only [found, if_neg closed]
        cases (nwCacheFree svr.cache addr).2 with
        | true => exact Or.inr ⟨ses.conn, here _⟩
        | false => exact Or.inl (here _)

/-! ## What the ids say -/

/-- The id of a connection. -/
def idOf (conn : ℕ) : BitVec 64 := BitVec.ofNat 64 (conn + 1)

theorem idOf_toNat {conn : ℕ} (bound : conn + 1 < 2 ^ 64) : (idOf conn).toNat = conn + 1 := by
  unfold idOf
  rw [BitVec.toNat_ofNat, Nat.mod_eq_of_lt bound]

theorem idOf_ne_zero {conn : ℕ} (bound : conn + 1 < 2 ^ 64) : idOf conn ≠ 0 := by
  intro zero
  have value := congrArg BitVec.toNat zero
  rw [idOf_toNat bound] at value
  cases value

theorem idOf_injective {conn other : ℕ} (bound : conn + 1 < 2 ^ 64) (bound' : other + 1 < 2 ^ 64)
    (same : idOf conn = idOf other) : conn = other := by
  have value := congrArg BitVec.toNat same
  rw [idOf_toNat bound, idOf_toNat bound'] at value
  exact Nat.succ.inj value

/-- What holds of a server's memory: a session has the id of its connection, or is
closed and waits in the cache. -/
structure NwSvr.Ok (svr : NwSvr) : Prop where
  bound : svr.addrs.length < 2 ^ 64
  start : svr.idStart = if svr.addrs = [] then 0 else idOf svr.addrs.length
  cells : ∀ addr ses, svr.mem addr = some ses →
    ses.id = 0 ∨ ses.id = idOf ses.conn ∧ svr.addrs[ses.conn]? = some addr
  cached : ∀ addr ∈ svr.cache.free, svr.idAt addr = some 0
  nodup : svr.cache.free.Nodup

section Ok

variable {svr : NwSvr} {conn : ℕ} {addr : Addr}

theorem NwSvr.openAt_eq_some : svr.openAt conn = some addr ↔
    svr.addrs[conn]? = some addr ∧ ∃ ses, svr.mem addr = some ses ∧ ses.conn = conn ∧
      ses.id ≠ 0 := by
  unfold NwSvr.openAt
  rw [Option.filter_eq_some_iff, Option.any_eq_true]
  simp only [decide_eq_true_iff]

theorem NwSvr.Ok.empty : NwSvr.empty.Ok := by
  constructor
  · exact Nat.two_pow_pos 64
  · rfl
  · exact fun _ _ absent => absurd absent (by simp [NwSvr.empty])
  · exact fun _ absent => absurd absent List.not_mem_nil
  · exact List.nodup_nil

theorem NwSvr.Ok.conn_bound (ok : svr.Ok) (known : svr.addrs[conn]? = some addr) :
    conn + 1 < 2 ^ 64 := by
  have inside := (List.getElem?_eq_some_iff.mp known).1
  have bound := ok.bound
  omega

/-- A pointer and an id that were kept together find the session as long as its
connection is open, and no other. -/
theorem NwSvr.Ok.idAt_iff (ok : svr.Ok) (known : svr.addrs[conn]? = some addr) :
    svr.idAt addr = some (idOf conn) ↔ svr.openAt conn = some addr := by
  have bound := ok.conn_bound known
  rw [NwSvr.openAt_eq_some]
  constructor
  · intro same
    obtain ⟨ses, found, id⟩ := Option.map_eq_some_iff.mp same
    refine ⟨known, ses, found, ?_, ?_⟩
    · rcases ok.cells addr ses found with closed | ⟨own, at_⟩
      · rw [id] at closed
        exact absurd closed (idOf_ne_zero bound)
      · exact idOf_injective (ok.conn_bound at_) bound (own.symm.trans id)
    · rw [id]
      exact idOf_ne_zero bound
  · rintro ⟨_, ses, found, rfl, opened⟩
    rcases ok.cells addr ses found with closed | ⟨own, _⟩
    · exact absurd closed opened
    · unfold NwSvr.idAt
      rw [found, Option.map_some, own]

/-- Where there is an id, there is an open session. -/
theorem NwSvr.Ok.open_of_id (ok : svr.Ok) (nonzero : ¬(svr.idAt addr).getD 0 = 0) :
    ∃ conn, svr.openAt conn = some addr := by
  unfold NwSvr.idAt at nonzero
  cases found : svr.mem addr with
  | none =>
      rw [found] at nonzero
      exact absurd rfl nonzero
  | some ses =>
      rw [found] at nonzero
      rcases ok.cells addr ses found with closed | ⟨_, known⟩
      · exact absurd closed nonzero
      · exact ⟨ses.conn, NwSvr.openAt_eq_some.mpr ⟨known, ses, found, rfl, nonzero⟩⟩

/-- Two connections are never open at one address. -/
theorem NwSvr.openAt_injective {other : ℕ} (first : svr.openAt conn = some addr)
    (second : svr.openAt other = some addr) : conn = other := by
  obtain ⟨_, ses, found, rfl, _⟩ := NwSvr.openAt_eq_some.mp first
  obtain ⟨_, ses', found', rfl, _⟩ := NwSvr.openAt_eq_some.mp second
  rw [found] at found'
  cases found'
  rfl

end Ok

/-! ## Opening and closing -/

section Change

variable {svr : NwSvr}

theorem newSesId_spec (ok : svr.Ok) (room : svr.addrs.length + 1 < 2 ^ 64) :
    newSesId svr.idStart = (idOf svr.addrs.length, idOf (svr.addrs.length + 1)) := by
  have next (n : ℕ) : idOf n + 1 = idOf (n + 1) := by
    unfold idOf
    exact (BitVec.ofNat_add (n + 1) 1).symm
  unfold newSesId
  rw [ok.start]
  by_cases none_ : svr.addrs = []
  · rw [if_pos none_, if_pos rfl, none_]
    rfl
  · rw [if_neg none_, if_neg (idOf_ne_zero room), next]

/-- Where a new session is: nothing that is open was there. -/
theorem NwSvr.Ok.alloc (ok : svr.Ok) {fresh : Addr}
    (unused : svr.cache.free = [] → svr.mem fresh = none) :
    (∀ conn, svr.openAt conn ≠ some (nwCacheAlloc svr.cache fresh).1) ∧
      (nwCacheAlloc svr.cache fresh).2.free.Nodup ∧
      ∀ addr ∈ (nwCacheAlloc svr.cache fresh).2.free,
        addr ∈ svr.cache.free ∧ addr ≠ (nwCacheAlloc svr.cache fresh).1 := by
  have closed {addr : Addr} (none_ : svr.idAt addr = none ∨ svr.idAt addr = some 0) (conn : ℕ) :
      svr.openAt conn ≠ some addr := by
    intro opened
    obtain ⟨_, ses, found, _, id⟩ := NwSvr.openAt_eq_some.mp opened
    unfold NwSvr.idAt at none_
    rw [found] at none_
    rcases none_ with none_ | zero
    · cases none_
    · exact id (Option.some.inj zero)
  have nodup := ok.nodup
  unfold nwCacheAlloc
  cases free : svr.cache.free with
  | nil =>
      have none_ : svr.idAt fresh = none := by
        unfold NwSvr.idAt
        rw [unused free, Option.map_none]
      simp only [free]
      exact ⟨closed (Or.inl none_), List.nodup_nil, fun _ absent => absurd absent List.not_mem_nil⟩
  | cons addr free' =>
      rw [free] at nodup
      have zero := ok.cached addr (free ▸ List.mem_cons_self)
      obtain ⟨absent, nodup⟩ := List.nodup_cons.mp nodup
      refine ⟨closed (Or.inr zero), nodup, ?_⟩
      intro other mem
      exact ⟨List.mem_cons_of_mem addr mem, ne_of_mem_of_not_mem mem absent⟩

theorem nwSvrAddSes_eq (ok : svr.Ok) (room : svr.addrs.length + 1 < 2 ^ 64) (fresh : Addr) :
    nwSvrAddSes svr fresh =
      { svr.store (nwCacheAlloc svr.cache fresh).1
          (some ⟨idOf svr.addrs.length, svr.addrs.length⟩) with
        idStart := idOf (svr.addrs.length + 1)
        cache := (nwCacheAlloc svr.cache fresh).2
        addrs := svr.addrs ++ [(nwCacheAlloc svr.cache fresh).1] } := by
  unfold nwSvrAddSes
  simp only [newSesId_spec ok room]

/-- A new connection is open, and the others are as before. -/
theorem NwSvr.Ok.add (ok : svr.Ok) {fresh : Addr}
    (unused : svr.cache.free = [] → svr.mem fresh = none)
    (room : svr.addrs.length + 1 < 2 ^ 64) :
    (nwSvrAddSes svr fresh).Ok ∧
      (nwSvrAddSes svr fresh).addrs = svr.addrs ++ [(nwCacheAlloc svr.cache fresh).1] ∧
      (nwSvrAddSes svr fresh).openAt svr.addrs.length =
        some (nwCacheAlloc svr.cache fresh).1 ∧
      ∀ conn < svr.addrs.length, (nwSvrAddSes svr fresh).openAt conn = svr.openAt conn := by
  obtain ⟨notOpen, nodup, cached⟩ := ok.alloc unused
  rw [nwSvrAddSes_eq ok room fresh]
  generalize nwCacheAlloc svr.cache fresh = alloc at notOpen nodup cached
  rcases alloc with ⟨addr, cache⟩
  simp only at notOpen nodup cached ⊢
  have old {conn : ℕ} (below : conn < svr.addrs.length) :
      (svr.addrs ++ [addr])[conn]? = svr.addrs[conn]? := List.getElem?_append_left below
  have new : (svr.addrs ++ [addr])[svr.addrs.length]? = some addr := List.getElem?_concat_length
  have elsewhere {other : Addr} (differ : other ≠ addr) (ses : Option NwSes) :
      (svr.store addr ses).mem other = svr.mem other := if_neg differ
  have here (ses : Option NwSes) : (svr.store addr ses).mem addr = ses := if_pos rfl
  refine ⟨⟨?_, ?_, ?_, ?_, nodup⟩, trivial, ?_, ?_⟩
  · rw [List.length_append]
    exact room
  · rw [if_neg (List.append_ne_nil_of_right_ne_nil _ (List.cons_ne_nil addr [])),
      List.length_append]
    rfl
  · intro other ses found
    by_cases same : other = addr
    · subst same
      cases (here _).symm.trans found
      exact Or.inr ⟨rfl, new⟩
    · rcases ok.cells other ses ((elsewhere same _).symm.trans found) with closed | ⟨own, at_⟩
      · exact Or.inl closed
      · exact Or.inr ⟨own, (old (List.getElem?_eq_some_iff.mp at_).1).trans at_⟩
  · intro other mem
    obtain ⟨before, differ⟩ := cached other mem
    have zero := ok.cached other before
    unfold NwSvr.idAt at zero ⊢
    rwa [← elsewhere differ] at zero
  · rw [NwSvr.openAt_eq_some]
    exact ⟨new, _, here _, rfl, idOf_ne_zero room⟩
  · intro conn below
    apply Option.ext
    intro other
    rw [NwSvr.openAt_eq_some, NwSvr.openAt_eq_some, old below]
    by_cases same : other = addr
    · subst same
      constructor
      · rintro ⟨_, ses, found, conn', _⟩
        cases (here _).symm.trans found
        exact absurd conn'.symm (Nat.ne_of_lt below)
      · intro opened
        exact absurd (NwSvr.openAt_eq_some.mpr opened) (notOpen conn)
    · change _ ∧ (∃ ses, (svr.store addr _).mem other = some ses ∧ _) ↔ _
      rw [elsewhere same]

/-- A connection that is closed is not open, and the others are as before. -/
theorem NwSvr.Ok.close (ok : svr.Ok) {conn : ℕ} {addr : Addr}
    (opened : svr.openAt conn = some addr) :
    (nwSvrCloseSes svr addr).Ok ∧ (nwSvrCloseSes svr addr).addrs = svr.addrs ∧
      (nwSvrCloseSes svr addr).openAt conn = none ∧
      ∀ other ≠ conn, (nwSvrCloseSes svr addr).openAt other = svr.openAt other := by
  obtain ⟨known, ses, found, rfl, nonzero⟩ := NwSvr.openAt_eq_some.mp opened
  have free := nwCacheFree_free svr.cache addr
  have eq : nwSvrCloseSes svr addr =
      { svr.store addr (if (nwCacheFree svr.cache addr).2 then some { ses with id := 0 }
          else none) with
        cache := (nwCacheFree svr.cache addr).1 } := by
    unfold nwSvrCloseSes
    rw [found]
    simp only
    rw [if_neg nonzero]
  rw [eq]
  generalize nwCacheFree svr.cache addr = freed at free
  rcases freed with ⟨cache, kept⟩
  simp only at free ⊢
  generalize left : (if kept then some { ses with id := 0 } else none : Option NwSes) = cell
  have closed {ses' : NwSes} (some_ : cell = some ses') : ses'.id = 0 := by
    rw [← left, Option.ite_none_right_eq_some] at some_
    rw [← Option.some.inj some_.2]
  have elsewhere {other : Addr} (differ : other ≠ addr) :
      (svr.store addr cell).mem other = svr.mem other := if_neg differ
  have here : (svr.store addr cell).mem addr = cell := if_pos rfl
  -- what is open afterwards was open before, and not here
  have after (other : ℕ) (at_ : Addr) :
      NwSvr.openAt { svr.store addr cell with cache := cache } other = some at_ ↔
      at_ ≠ addr ∧ svr.openAt other = some at_ := by
    rw [NwSvr.openAt_eq_some, NwSvr.openAt_eq_some]
    by_cases same : at_ = addr
    · subst same
      constructor
      · rintro ⟨_, _, found', _, nonzero'⟩
        exact absurd (closed (here.symm.trans found')) nonzero'
      · exact fun absurd_ => absurd rfl absurd_.1
    · change _ ∧ (∃ ses, (svr.store addr _).mem at_ = some ses ∧ _) ↔ _
      rw [elsewhere same]
      exact ⟨fun both => ⟨same, both⟩, fun both => both.2⟩
  refine ⟨⟨ok.bound, ok.start, ?_, ?_, ?_⟩, rfl, ?_, ?_⟩
  · intro other ses' found'
    by_cases same : other = addr
    · subst same
      exact Or.inl (closed (here.symm.trans found'))
    · exact ok.cells other ses' ((elsewhere same).symm.trans found')
  · intro other mem
    have zero_of_old (old : other ∈ svr.cache.free) :
        (svr.store addr cell).idAt other = some 0 := by
      have zero := ok.cached other old
      have differ : other ≠ addr := by
        rintro rfl
        unfold NwSvr.idAt at zero
        rw [found] at zero
        exact nonzero (Option.some.inj zero)
      unfold NwSvr.idAt at zero ⊢
      rwa [elsewhere differ]
    rw [free] at mem
    cases kept with
    | false => exact zero_of_old mem
    | true =>
        rcases List.mem_cons.mp mem with rfl | old
        · exact congrArg (Option.map NwSes.id) (here.trans left.symm)
        · exact zero_of_old old
  · rw [free]
    cases kept with
    | false => exact ok.nodup
    | true =>
        refine List.nodup_cons.mpr ⟨?_, ok.nodup⟩
        intro mem
        have zero := ok.cached addr mem
        unfold NwSvr.idAt at zero
        rw [found] at zero
        exact nonzero (Option.some.inj zero)
  · apply Option.eq_none_iff_forall_ne_some.mpr
    intro at_ still
    obtain ⟨differ, before⟩ := (after _ _).mp still
    rw [opened] at before
    exact differ (Option.some.inj before).symm
  · intro other differ
    apply Option.ext
    intro at_
    rw [after]
    refine ⟨fun both => both.2, fun before => ⟨?_, before⟩⟩
    rintro rfl
    exact differ (NwSvr.openAt_injective before opened)

end Change

end ViabtcServer.Network
