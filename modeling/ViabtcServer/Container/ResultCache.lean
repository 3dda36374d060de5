import ViabtcServer.Container.Dict

/-!
# A cache of results

A server keeps the results of requests for a short time. A result is stored with the time
it was computed, found again by a key made of the request, and computed afresh when it has
become too old. Between requests the world that results are computed from moves on, and now
and then the cache is emptied. What a client is told is then never older than the time
limit, and never the result of another request.
-/

namespace ViabtcServer.Container

variable {κ ρ ε σ ι : Type} [DecidableEq κ]

/-- `struct cache_val`. -/
structure CacheVal (ρ : Type) where
  time : ℕ
  result : ρ

/-- `dict_cache`. -/
abbrev ResultCache (κ ρ : Type) [DecidableEq κ] := Dict κ (CacheVal ρ)

/-- `process_cache`: what is stored under the key, unless it is too old. -/
def processCache (timeout now : ℕ) (cache : ResultCache κ ρ) (key : κ) :
    Option ρ × ResultCache κ ρ :=
  match dictFind cache key with
  | none => (none, cache)
  | some val =>
      if val.time + timeout < now then (none, dictDelete cache key) else (some val.result, cache)

/-- `add_cache`. -/
def addCache (now : ℕ) (cache : ResultCache κ ρ) (key : κ) (result : ρ) : ResultCache κ ρ :=
  dictReplace cache key ⟨now, result⟩

/-- How requests are answered from a world: some are refused before the cache is looked at,
the others by what is stored, or by what is computed. -/
structure CachedServer (σ ι κ ε ρ : Type) where
  key : ι → κ
  timeout : ℕ
  check : σ → ℕ → ι → Option ε
  compute : σ → ℕ → ι → Except ε ρ

/-- Answer one request. -/
def CachedServer.handle (server : CachedServer σ ι κ ε ρ) (world : σ) (now : ℕ)
    (cache : ResultCache κ ρ) (request : ι) : Except ε ρ × ResultCache κ ρ :=
  match server.check world now request with
  | some error => (.error error, cache)
  | none =>
      match processCache server.timeout now cache (server.key request) with
      | (some result, cache) => (.ok result, cache)
      | (none, cache) =>
          match server.compute world now request with
          | .error error => (.error error, cache)
          | .ok result => (.ok result, addCache now cache (server.key request) result)

/-- A request that was answered, and the world it was answered in. -/
structure Served (σ ι ε ρ : Type) where
  time : ℕ
  world : σ
  request : ι
  reply : Except ε ρ

/-- The runs of a server from a world on: the world moves, the cache is emptied, requests are
answered. The clock never goes back. -/
inductive Serves (server : CachedServer σ ι κ ε ρ) (next : σ → σ → Prop) (start : σ) :
    List (Served σ ι ε ρ) → σ → ℕ → ResultCache κ ρ → Prop
  | start (clock : ℕ) : Serves server next start [] start clock ∅
  | move {log : List (Served σ ι ε ρ)} {world world' : σ} {clock : ℕ} {cache : ResultCache κ ρ}
      (before : Serves server next start log world clock cache) (moved : next world world') :
      Serves server next start log world' clock cache
  | clear {log : List (Served σ ι ε ρ)} {world : σ} {clock : ℕ} {cache : ResultCache κ ρ}
      (before : Serves server next start log world clock cache) :
      Serves server next start log world clock ∅
  | request {log : List (Served σ ι ε ρ)} {world : σ} {clock now : ℕ}
      {cache cache' : ResultCache κ ρ} {request : ι} {reply : Except ε ρ}
      (before : Serves server next start log world clock cache)
      (later : clock ≤ now) (answered : server.handle world now cache request = (reply, cache')) :
      Serves server next start (log ++ [⟨now, world, request, reply⟩]) world now cache'

variable {server : CachedServer σ ι κ ε ρ} {next : σ → σ → Prop} {start world : σ}
  {log : List (Served σ ι ε ρ)} {clock now : ℕ} {cache cache' : ResultCache κ ρ} {request : ι}
  {reply : Except ε ρ}

/-- The result was computed for a request with this key, at its time, and told. -/
def Computed (server : CachedServer σ ι κ ε ρ) (log : List (Served σ ι ε ρ)) (key : κ)
    (val : CacheVal ρ) : Prop :=
  ∃ origin ∈ log, server.check origin.world origin.time origin.request = none ∧
    server.key origin.request = key ∧ origin.time = val.time ∧ origin.reply = .ok val.result ∧
    server.compute origin.world origin.time origin.request = .ok val.result

omit [DecidableEq κ] in
theorem Computed.mono {log' : List (Served σ ι ε ρ)} {key : κ} {val : CacheVal ρ}
    (computed : Computed server log key val) : Computed server (log ++ log') key val := by
  rcases computed with ⟨origin, told, facts⟩
  exact ⟨origin, List.mem_append_left _ told, facts⟩

/-- The cases of an answered request. -/
theorem CachedServer.handle_cases
    (answered : server.handle world now cache request = (reply, cache')) :
    (∃ error, reply = .error error ∧
      (cache' = cache ∨ cache' = dictDelete cache (server.key request)) ∧
      (server.check world now request = some error ∨
        server.check world now request = none ∧
          server.compute world now request = .error error)) ∨
    (∃ val, reply = .ok val.result ∧ cache' = cache ∧ server.check world now request = none ∧
      dictFind cache (server.key request) = some val ∧ now ≤ val.time + server.timeout) ∨
    ∃ result, reply = .ok result ∧ server.check world now request = none ∧
      server.compute world now request = .ok result ∧
      ∃ kept, (kept = cache ∨ kept = dictDelete cache (server.key request)) ∧
        cache' = addCache now kept (server.key request) result := by
  unfold CachedServer.handle at answered
  cases checked : server.check world now request with
  | some error =>
      rw [checked] at answered
      cases answered
      exact Or.inl ⟨error, rfl, Or.inl rfl, Or.inl rfl⟩
  | none =>
      have missed (kept : ResultCache κ ρ)
          (same : kept = cache ∨ kept = dictDelete cache (server.key request))
          (computed : (match server.compute world now request with
            | .error error => (.error error, kept)
            | .ok result => (.ok result, addCache now kept (server.key request) result)) =
              (reply, cache')) :
          (∃ error, reply = .error error ∧
            (cache' = cache ∨ cache' = dictDelete cache (server.key request)) ∧
            server.compute world now request = .error error) ∨
          ∃ result, reply = .ok result ∧ server.compute world now request = .ok result ∧
            cache' = addCache now kept (server.key request) result := by
        cases run : server.compute world now request with
        | error error =>
            rw [run] at computed
            cases computed
            exact Or.inl ⟨error, rfl, same, rfl⟩
        | ok result =>
            rw [run] at computed
            cases computed
            exact Or.inr ⟨result, rfl, rfl, rfl⟩
      rw [checked] at answered
      unfold processCache at answered
      cases found : dictFind cache (server.key request) with
      | none =>
          rw [found] at answered
          rcases missed cache (Or.inl rfl) answered with
            ⟨error, told, kept, failed⟩ | ⟨result, told, run, kept⟩
          · exact Or.inl ⟨error, told, kept, Or.inr ⟨rfl, failed⟩⟩
          · exact Or.inr (Or.inr ⟨result, told, rfl, run, cache, Or.inl rfl, kept⟩)
      | some val =>
          by_cases old : val.time + server.timeout < now
          · simp only [found, if_pos old] at answered
            rcases missed _ (Or.inr rfl) answered with
              ⟨error, told, kept, failed⟩ | ⟨result, told, run, kept⟩
            · exact Or.inl ⟨error, told, kept, Or.inr ⟨rfl, failed⟩⟩
            · exact Or.inr (Or.inr ⟨result, told, rfl, run, _, Or.inr rfl, kept⟩)
          · simp only [found, if_neg old] at answered
            cases answered
            exact Or.inr (Or.inl ⟨val, rfl, rfl, rfl, rfl, Nat.not_lt.mp old⟩)

/-- What is stored was computed and told, no later than now. -/
theorem Serves.stored (serves : Serves server next start log world clock cache) :
    (∀ served ∈ log, served.time ≤ clock) ∧
      ∀ key val, dictFind cache key = some val → Computed server log key val := by
  induction serves with
  | start => exact ⟨nofun, fun key val found => by simp at found⟩
  | move _ _ ih => exact ih
  | clear _ ih => exact ⟨ih.1, fun key val found => by simp at found⟩
  | @request log world clock now cache cache' request reply _ later answered ih =>
      have kept {kept : ResultCache κ ρ}
          (same : kept = cache ∨ kept = dictDelete cache (server.key request)) {key : κ}
          {val : CacheVal ρ} (found : dictFind kept key = some val) :
          Computed server log key val := by
        rcases same with rfl | rfl
        · exact ih.2 key val found
        · by_cases own : key = server.key request
          · subst own
            simp at found
          · rw [dictFind_delete_ne own] at found
            exact ih.2 key val found
      constructor
      · intro served mem
        rcases List.mem_append.mp mem with mem | mem
        · exact (ih.1 served mem).trans later
        · rw [List.mem_singleton.mp mem]
      · intro key val found
        rcases CachedServer.handle_cases answered with
          ⟨error, _, same, _⟩ | ⟨_, _, rfl, _⟩ | ⟨result, told, checked, run, before, same, rfl⟩
        · exact (kept same found).mono
        · exact (ih.2 key val found).mono
        · by_cases own : key = server.key request
          · subst own
            rw [addCache, dictFind_replace, Option.some.injEq] at found
            subst found
            exact ⟨_, List.mem_append_right _ List.mem_cons_self, checked, rfl, rfl, told, run⟩
          · rw [addCache, dictFind_replace_ne own] at found
            exact (kept same found).mono

/-- Where a reply comes from: an error from the request itself, a result from a request with
the same key that was answered no longer ago than the time limit. -/
def Served.Recent (server : CachedServer σ ι κ ε ρ) (before : List (Served σ ι ε ρ))
    (served : Served σ ι ε ρ) : Prop :=
  match served.reply with
  | .error error =>
      server.check served.world served.time served.request = some error ∨
        server.check served.world served.time served.request = none ∧
          server.compute served.world served.time served.request = .error error
  | .ok result =>
      server.check served.world served.time served.request = none ∧
        ∃ origin ∈ before ++ [served],
          server.check origin.world origin.time origin.request = none ∧
          server.key origin.request = server.key served.request ∧
          origin.time ≤ served.time ∧ served.time ≤ origin.time + server.timeout ∧
          server.compute origin.world origin.time origin.request = .ok result

/-- Every reply is recent. -/
theorem Serves.recent (serves : Serves server next start log world clock cache)
    {before after : List (Served σ ι ε ρ)} {served : Served σ ι ε ρ}
    (split : log = before ++ served :: after) : served.Recent server before := by
  induction serves generalizing after with
  | start => simp at split
  | move _ _ ih => exact ih split
  | clear _ ih => exact ih split
  | @request log world clock now cache cache' request reply serves later answered ih =>
      rcases List.eq_nil_or_concat after with rfl | ⟨front, last, rfl⟩
      · obtain ⟨rfl, same⟩ := List.append_inj' split rfl
        obtain rfl := (List.cons.inj same).1
        rcases CachedServer.handle_cases answered with
          ⟨error, rfl, _, failed⟩ | ⟨val, rfl, _, checked, found, fresh⟩ |
            ⟨result, rfl, checked, run, _⟩
        · exact failed
        · rcases serves.stored with ⟨times, stored⟩
          rcases stored _ _ found with ⟨origin, told, accepted, key, time, _, computed⟩
          refine ⟨checked, origin, List.mem_append_left _ told, accepted, key, ?_, ?_, computed⟩
          · exact (times origin told).trans later
          · rw [time]
            exact fresh
        · exact ⟨checked, _, List.mem_append_right _ List.mem_cons_self, checked, rfl, le_rfl,
            Nat.le_add_right _ _, run⟩
      · rw [List.concat_eq_append, ← List.cons_append, ← List.append_assoc] at split
        exact ih (List.append_inj' split rfl).1

end ViabtcServer.Container
