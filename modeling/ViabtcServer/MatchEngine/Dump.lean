import ViabtcServer.MatchEngine.Slice

/-!
# What a dump leaves behind

`dump_to_db` tests the `DROP` and `CREATE` statements with `ret != 0`, but the
`INSERT` statements with `ret < 0`, which `mysql_real_query` never returns. A
dump all of whose statements succeed is complete; one whose only failures are
failed inserts is recorded all the same.
-/

namespace ViabtcServer.MatchEngine

open Decimal Container Sql

variable {statement : SliceQuery} {d d' : SliceDb} {log : List (SliceQuery × Bool)} {ret : ℤ}
  {time : ℕ} {s : Slice}

/-! ## One statement -/

theorem mysqlRealQuery_inv (run : Sql.Run SliceDb.exec (mysqlRealQuery statement) d log ret d') :
    (∃ a, SliceDb.exec statement d = some (a, d') ∧ log = [(statement, true)] ∧ ret = 0) ∨
      (d' = d ∧ log = [(statement, false)] ∧ ret = 1) := by
  cases run with
  | answered executed rest =>
      rcases rest.done_inv with ⟨rfl, rfl, rfl⟩
      exact Or.inl ⟨_, executed, rfl, rfl⟩
  | failed rest =>
      rcases rest.done_inv with ⟨rfl, rfl, rfl⟩
      exact Or.inr ⟨rfl, rfl, rfl⟩

/-- The statement touches no table but those of the slice at `time`. -/
structure SliceDb.Wrote (d d' : SliceDb) (time : ℕ) : Prop where
  history : d'.history = d.history
  nextId : d'.nextId = d.nextId
  recorded : d'.recorded = d.recorded
  orders : ∀ other, other ≠ time → d'.orders other = d.orders other
  balances : ∀ other, other ≠ time → d'.balances other = d.balances other

theorem SliceDb.Wrote.refl (d : SliceDb) (time : ℕ) : d.Wrote d time :=
  ⟨rfl, rfl, rfl, fun _ _ => rfl, fun _ _ => rfl⟩

theorem SliceDb.Wrote.trans {d'' : SliceDb} (one : d.Wrote d' time) (two : d'.Wrote d'' time) :
    d.Wrote d'' time where
  history := two.history.trans one.history
  nextId := two.nextId.trans one.nextId
  recorded := two.recorded.trans one.recorded
  orders other differ := (two.orders other differ).trans (one.orders other differ)
  balances other differ := (two.balances other differ).trans (one.balances other differ)

theorem SliceDb.wrote_setOrders (d : SliceDb) (time : ℕ) (rows : Option (List OrderRow)) :
    d.Wrote (d.setOrders time rows) time :=
  ⟨rfl, rfl, rfl, fun _ differ => Function.update_of_ne differ _ _, fun _ _ => rfl⟩

theorem SliceDb.wrote_setBalances (d : SliceDb) (time : ℕ) (rows : Option (List BalanceRow)) :
    d.Wrote (d.setBalances time rows) time :=
  ⟨rfl, rfl, rfl, fun _ _ => rfl, fun _ differ => Function.update_of_ne differ _ _⟩

/-- A statement about the tables of one slice. -/
def SliceQuery.About : SliceQuery → ℕ → Prop
  | connect, _ => True
  | dropOrders t _, time => t = time
  | createOrders t, time => t = time
  | insertOrders t _, time => t = time
  | dropBalances t _, time => t = time
  | createBalances t, time => t = time
  | insertBalances t _, time => t = time
  | countSince _, _ => True
  | selectBefore _, _ => True
  | insertHistory .., _ => False
  | deleteHistory _, _ => False

theorem SliceDb.wrote_exec {a : SliceAnswer}
    (executed : SliceDb.exec statement d = some (a, d')) (about : statement.About time) :
    d.Wrote d' time := by
  cases statement with
  | connect | countSince | selectBefore =>
      cases executed
      exact .refl d time
  | dropOrders t ifExists =>
      cases about
      simp only [SliceDb.exec] at executed
      split at executed
      · cases executed
        exact d.wrote_setOrders time _
      · cases executed
  | createOrders t =>
      cases about
      cases executed
      exact d.wrote_setOrders time _
  | insertOrders t orders =>
      cases about
      rcases Option.map_eq_some_iff.mp executed with ⟨rows, _, done⟩
      cases done
      exact d.wrote_setOrders time _
  | dropBalances t ifExists =>
      cases about
      simp only [SliceDb.exec] at executed
      split at executed
      · cases executed
        exact d.wrote_setBalances time _
      · cases executed
  | createBalances t =>
      cases about
      cases executed
      exact d.wrote_setBalances time _
  | insertBalances t entries =>
      cases about
      rcases Option.map_eq_some_iff.mp executed with ⟨rows, _, done⟩
      cases done
      exact d.wrote_setBalances time _
  | insertHistory | deleteHistory => cases about

/-! ## Rows in batches -/

/-- Every statement of a log succeeded. -/
def AllAnswered (log : List (SliceQuery × Bool)) : Prop :=
  ∀ entry ∈ log, entry.2 = true

/-- The log has a failed `INSERT`. -/
def InsertFailed (log : List (SliceQuery × Bool)) : Prop :=
  ∃ entry ∈ log, entry.1.isInsert = true ∧ entry.2 = false

/-- The log has a failure of another statement. -/
def OtherFailed (log : List (SliceQuery × Bool)) : Prop :=
  ∃ entry ∈ log, entry.1.isInsert = false ∧ entry.2 = false

theorem AllAnswered.append {log₁ log₂ : List (SliceQuery × Bool)}
    (all : AllAnswered (log₁ ++ log₂)) : AllAnswered log₁ ∧ AllAnswered log₂ :=
  ⟨fun entry member => all entry (List.mem_append_left _ member),
    fun entry member => all entry (List.mem_append_right _ member)⟩

theorem OtherFailed.append {log₁ log₂ : List (SliceQuery × Bool)} :
    OtherFailed (log₁ ++ log₂) ↔ OtherFailed log₁ ∨ OtherFailed log₂ := by
  unfold OtherFailed
  simp only [List.mem_append, or_and_right, exists_or]

/-- A log of inserts has no other failure. -/
def InsertsOnly (log : List (SliceQuery × Bool)) : Prop :=
  ∀ entry ∈ log, entry.1.isInsert = true

theorem InsertsOnly.append {log₁ log₂ : List (SliceQuery × Bool)} (one : InsertsOnly log₁)
    (two : InsertsOnly log₂) : InsertsOnly (log₁ ++ log₂) := by
  intro entry member
  rcases List.mem_append.mp member with first | second
  · exact one entry first
  · exact two entry second

theorem InsertsOnly.not_otherFailed (only : InsertsOnly log) : ¬ OtherFailed log := by
  rintro ⟨entry, member, other, _⟩
  rw [only entry member] at other
  cases other

/-- What the loop over the rows does: it always returns zero, and when every
statement succeeds all rows have been written. -/
theorem dumpRows_run {ρ : Type} (insert : List ρ → SliceQuery) {log : List (SliceQuery × Bool)}
    {pending rest : List ρ} (holds : SliceDb → List ρ → Prop)
    (inserts : ∀ batch, (insert batch).isInsert = true)
    (about : ∀ batch, (insert batch).About time)
    (writes : ∀ {d d' a written batch}, holds d written →
      SliceDb.exec (insert batch) d = some (a, d') → holds d' (written ++ batch))
    (run : Sql.Run SliceDb.exec (dumpRows insert pending rest) d log ret d') :
    ret = 0 ∧ InsertsOnly log ∧ d.Wrote d' time ∧
      ∀ written, AllAnswered log → holds d written → holds d' (written ++ pending ++ rest) := by
  -- one statement, whatever follows it
  have one {batch : List ρ} {d d' : SliceDb} {log : List (SliceQuery × Bool)} {ret : ℤ}
      (first : Sql.Run SliceDb.exec (mysqlRealQuery (insert batch)) d log ret d') :
      ¬ ret < 0 ∧ InsertsOnly log ∧ d.Wrote d' time ∧
        ∀ written, AllAnswered log → holds d written → holds d' (written ++ batch) := by
    rcases mysqlRealQuery_inv first with ⟨a, executed, rfl, rfl⟩ | ⟨rfl, rfl, rfl⟩
    · refine ⟨by omega, ?_, SliceDb.wrote_exec executed (about batch), fun written _ before => ?_⟩
      · intro entry member
        rw [List.mem_singleton.mp member]
        exact inserts batch
      · exact writes before executed
    · refine ⟨by omega, ?_, .refl _ _, fun written all _ => ?_⟩
      · intro entry member
        rw [List.mem_singleton.mp member]
        exact inserts batch
      · exact absurd (all _ List.mem_cons_self) (by simp)
  induction rest generalizing pending d log with
  | nil =>
      unfold dumpRows at run
      by_cases some_ : pending.length > 0
      · rw [if_pos some_] at run
        rcases run.bind_inv with ⟨code, middle, log₁, log₂, first, second, rfl⟩
        rcases one first with ⟨positive, only, wrote, after⟩
        rw [if_neg positive] at second
        rcases second.done_inv with ⟨rfl, rfl, rfl⟩
        rw [List.append_nil]
        refine ⟨rfl, only, wrote, fun written all before => ?_⟩
        simpa using after written all before
      · rw [if_neg some_] at run
        rcases run.done_inv with ⟨rfl, rfl, rfl⟩
        have none_ : pending = [] := List.length_eq_zero_iff.mp (by omega)
        subst none_
        exact ⟨rfl, by simp [InsertsOnly], .refl _ _, fun _ _ before => by simpa using before⟩
  | cons row rest ih =>
      unfold dumpRows at run
      by_cases full : (pending ++ [row]).length = insertLimit
      · rw [if_pos full] at run
        rcases run.bind_inv with ⟨code, middle, log₁, log₂, first, second, rfl⟩
        rcases one first with ⟨positive, only, wrote, after⟩
        rw [if_neg positive] at second
        rcases ih second with ⟨zero, only', wrote', after'⟩
        refine ⟨zero, only.append only', wrote.trans wrote', fun written all before => ?_⟩
        have whole := after' _ all.append.2 (after written all.append.1 before)
        simpa using whole
      · rw [if_neg full] at run
        rcases ih run with ⟨zero, only, wrote, after⟩
        refine ⟨zero, only, wrote, fun written all before => ?_⟩
        simpa using after written all before

/-! ## The two tables -/

/-- The orders of a slice in the order they are dumped. -/
def Slice.orders (s : Slice) : List Order :=
  s.markets.flatMap fun lists =>
    match lists with
    | some (asks, bids) => asks ++ bids
    | none => []

/-- The order table of a slice holds the rows of these orders. -/
def SliceDb.HoldsOrders (d : SliceDb) (time : ℕ) (orders : List Order) : Prop :=
  ∃ rows, d.orders time = some rows ∧ orders.mapM orderRow = some rows ∧
    (rows.map OrderRow.id).Nodup

/-- The balance table of a slice holds the rows of these entries. -/
def SliceDb.HoldsBalances (d : SliceDb) (time : ℕ) (entries : List BalanceEntry) : Prop :=
  ∃ rows, d.balances time = some rows ∧ balanceRows 1 entries = some rows

theorem SliceDb.HoldsOrders.insert {a : SliceAnswer} {written batch : List Order}
    (holds : d.HoldsOrders time written)
    (executed : SliceDb.exec (.insertOrders time batch) d = some (a, d')) :
    d'.HoldsOrders time (written ++ batch) := by
  rcases holds with ⟨rows, found, stored, _⟩
  rcases Option.map_eq_some_iff.mp executed with ⟨all, inserted, done⟩
  cases done
  rw [found, Option.bind_some] at inserted
  unfold insertOrderRows at inserted
  split at inserted
  · rename_i new made
    split at inserted
    · rename_i distinct
      obtain rfl := Option.some.inj inserted
      refine ⟨rows ++ new, Function.update_self .., ?_, distinct⟩
      rw [List.mapM_append, stored, made]
      rfl
    · cases inserted
  · cases inserted

/-- Rows numbered in two parts are rows numbered at once. -/
theorem balanceRows_append {id : ℕ} {entries more : List BalanceEntry}
    {rows others : List BalanceRow} (made : balanceRows id entries = some rows)
    (made' : balanceRows (id + rows.length) more = some others) :
    balanceRows id (entries ++ more) = some (rows ++ others) := by
  induction entries generalizing id rows with
  | nil =>
      cases made
      exact made'
  | cons entry rest ih =>
      simp only [balanceRows, Option.bind_eq_bind, Option.bind_eq_some_iff] at made
      rcases made with ⟨row, first, remaining, later, same⟩
      obtain rfl := Option.some.inj same
      have shifted : id + 1 + remaining.length = id + (row :: remaining).length := by
        rw [List.length_cons]
        omega
      have whole := ih later (shifted ▸ made')
      simp only [List.cons_append, balanceRows, first, whole, Option.bind_eq_bind,
        Option.bind_some]
      rfl

theorem SliceDb.HoldsBalances.insert {a : SliceAnswer} {written batch : List BalanceEntry}
    (holds : d.HoldsBalances time written)
    (executed : SliceDb.exec (.insertBalances time batch) d = some (a, d')) :
    d'.HoldsBalances time (written ++ batch) := by
  rcases holds with ⟨rows, found, stored⟩
  rcases Option.map_eq_some_iff.mp executed with ⟨all, inserted, done⟩
  cases done
  rw [found, Option.bind_some] at inserted
  rcases Option.map_eq_some_iff.mp inserted with ⟨new, made, rfl⟩
  refine ⟨rows ++ new, Function.update_self .., balanceRows_append stored ?_⟩
  rwa [Nat.add_comm]

theorem dumpOrdersList_run {list : List Order}
    (run : Sql.Run SliceDb.exec (dumpOrdersList time list) d log ret d') :
    ret = 0 ∧ InsertsOnly log ∧ d.Wrote d' time ∧ ∀ written, AllAnswered log →
      d.HoldsOrders time written → d'.HoldsOrders time (written ++ list) := by
  have spec := dumpRows_run (.insertOrders time)
    (fun d written => d.HoldsOrders time written) (fun _ => rfl) (fun _ => rfl)
    (fun before executed => before.insert executed) run
  simpa using spec

/-- Balances are written beside the orders of the slice. -/
theorem dumpBalanceDict_run {dict : List BalanceEntry}
    (run : Sql.Run SliceDb.exec (dumpBalanceDict time dict) d log ret d') :
    ret = 0 ∧ InsertsOnly log ∧ d.Wrote d' time ∧ ∀ orders written, AllAnswered log →
      d.HoldsBalances time written ∧ d.HoldsOrders time orders →
        d'.HoldsBalances time (written ++ dict) ∧ d'.HoldsOrders time orders := by
  have spec (orders : List Order) := dumpRows_run (.insertBalances time)
    (fun d written => d.HoldsBalances time written ∧ d.HoldsOrders time orders) (fun _ => rfl)
    (fun _ => rfl) (fun before executed => ⟨before.1.insert executed, by
      rcases Option.map_eq_some_iff.mp executed with ⟨rows, _, done⟩
      cases done
      exact before.2⟩) run
  refine ⟨(spec []).1, (spec []).2.1, (spec []).2.2.1, fun orders written all before => ?_⟩
  simpa using (spec orders).2.2.2 written all before

/-- The loop over the markets fails only at a market that is not there. -/
theorem dumpMarkets_run {markets : List (Option (List Order × List Order))}
    (run : Sql.Run SliceDb.exec (dumpMarkets time markets) d log ret d') :
    (ret < 0 ↔ none ∈ markets) ∧ InsertsOnly log ∧ d.Wrote d' time ∧ ∀ written,
      AllAnswered log → none ∉ markets → d.HoldsOrders time written →
        d'.HoldsOrders time (written ++ markets.flatMap fun lists =>
          match lists with
          | some (asks, bids) => asks ++ bids
          | none => []) := by
  induction markets generalizing d log with
  | nil =>
      rcases run.done_inv with ⟨rfl, rfl, rfl⟩
      refine ⟨by simp, by simp [InsertsOnly], .refl _ _, fun _ _ _ before => ?_⟩
      rwa [List.flatMap_nil, List.append_nil]
  | cons lists rest ih =>
      cases lists with
      | none =>
          rcases run.done_inv with ⟨rfl, rfl, rfl⟩
          refine ⟨by simp, by simp [InsertsOnly], .refl _ _, fun _ _ known => ?_⟩
          exact absurd List.mem_cons_self known
      | some lists =>
          rcases lists with ⟨asks, bids⟩
          unfold dumpMarkets at run
          rcases run.bind_inv with ⟨code, middle, log₁, log₂, first, second, rfl⟩
          rcases dumpOrdersList_run first with ⟨rfl, only, wrote, after⟩
          rw [if_neg (by omega)] at second
          rcases second.bind_inv with ⟨code, middle', log₃, log₄, third, fourth, rfl⟩
          rcases dumpOrdersList_run third with ⟨rfl, only', wrote', after'⟩
          rw [if_neg (by omega)] at fourth
          rcases ih fourth with ⟨missing, only'', wrote'', after''⟩
          refine ⟨?_, only.append (only'.append only''), wrote.trans (wrote'.trans wrote''), ?_⟩
          · rw [missing]
            simp
          · intro written all known before
            have known' : none ∉ rest := fun member => known (List.mem_cons_of_mem _ member)
            have whole := after'' _ all.append.2.append.2 known'
              (after' _ all.append.2.append.1 (after written all.append.1 before))
            simpa using whole

/-- A log without failures is one where neither kind failed. -/
theorem allAnswered_iff : AllAnswered log ↔ ¬ InsertFailed log ∧ ¬ OtherFailed log := by
  constructor
  · intro all
    constructor
    · rintro ⟨entry, member, _, failed⟩
      rw [all entry member] at failed
      cases failed
    · rintro ⟨entry, member, _, failed⟩
      rw [all entry member] at failed
      cases failed
  · rintro ⟨inserts, others⟩ entry member
    by_contra failed
    have failed' : entry.2 = false := Bool.eq_false_iff.mpr failed
    cases kind : entry.1.isInsert with
    | true => exact inserts ⟨entry, member, kind, failed'⟩
    | false => exact others ⟨entry, member, kind, failed'⟩

/-- A statement whose failure is looked for with `ret != 0`, and what follows. -/
theorem checked_run {α : Type} {failure : α} {next : SliceClient α} {result : α}
    (kind : statement.isInsert = false)
    (run : Sql.Run SliceDb.exec (do
      let ret ← mysqlRealQuery statement
      if ret ≠ 0 then pure failure else next) d log result d') :
    (d' = d ∧ result = failure ∧ OtherFailed log) ∨
      ∃ a middle log', SliceDb.exec statement d = some (a, middle) ∧
        Sql.Run SliceDb.exec next middle log' result d' ∧ log = (statement, true) :: log' := by
  rcases run.bind_inv with ⟨code, middle, log₁, log₂, first, second, rfl⟩
  rcases mysqlRealQuery_inv first with ⟨a, executed, rfl, rfl⟩ | ⟨rfl, rfl, rfl⟩
  · rw [if_neg (not_not.mpr rfl)] at second
    exact Or.inr ⟨a, middle, log₂, executed, second, rfl⟩
  · rw [if_pos (by omega)] at second
    rcases second.done_inv with ⟨rfl, rfl, rfl⟩
    exact Or.inl ⟨rfl, rfl, _, List.mem_cons_self, kind, rfl⟩

theorem OtherFailed.cons_answered :
    OtherFailed ((statement, true) :: log) ↔ OtherFailed log := by
  simp [OtherFailed]

theorem AllAnswered.tail {entry : SliceQuery × Bool} (all : AllAnswered (entry :: log)) :
    AllAnswered log :=
  fun other member => all other (List.mem_cons_of_mem entry member)

theorem dumpOrders_run {markets : List (Option (List Order × List Order))}
    (run : Sql.Run SliceDb.exec (dumpOrders time markets) d log ret d') :
    (ret < 0 ↔ OtherFailed log ∨ none ∈ markets) ∧ d.Wrote d' time ∧
      (AllAnswered log → none ∉ markets → d'.HoldsOrders time (markets.flatMap fun lists =>
        match lists with
        | some (asks, bids) => asks ++ bids
        | none => [])) := by
  rcases checked_run rfl run with ⟨rfl, rfl, failed⟩ | ⟨a, cleared, log₁, dropped, rest, rfl⟩
  · refine ⟨by simp [failed], .refl _ _, fun all => ?_⟩
    exact absurd failed (allAnswered_iff.mp all).2
  rcases checked_run rfl rest with ⟨rfl, rfl, failed⟩ | ⟨b, made, log₂, created, rest', rfl⟩
  · rw [OtherFailed.cons_answered]
    refine ⟨by simp [failed], SliceDb.wrote_exec dropped rfl, fun all => ?_⟩
    exact absurd failed (allAnswered_iff.mp all.tail).2
  rcases dumpMarkets_run rest' with ⟨missing, only, wrote, holds⟩
  rw [OtherFailed.cons_answered, OtherFailed.cons_answered]
  refine ⟨by simp [missing, only.not_otherFailed], ?_, fun all known => ?_⟩
  · exact (SliceDb.wrote_exec dropped rfl).trans
      ((SliceDb.wrote_exec created rfl).trans wrote)
  · cases dropped
    cases created
    apply holds [] all.tail.tail known
    refine ⟨[], ?_, rfl, List.nodup_nil⟩
    simp [SliceDb.setOrders]

theorem dumpBalance_run {dict : List BalanceEntry}
    (run : Sql.Run SliceDb.exec (dumpBalance time dict) d log ret d') :
    (ret < 0 ↔ OtherFailed log) ∧ d.Wrote d' time ∧
      ∀ orders, AllAnswered log → d.HoldsOrders time orders →
        d'.HoldsBalances time dict ∧ d'.HoldsOrders time orders := by
  rcases checked_run rfl run with ⟨rfl, rfl, failed⟩ | ⟨a, cleared, log₁, dropped, rest, rfl⟩
  · refine ⟨by simp [failed], .refl _ _, fun _ all => ?_⟩
    exact absurd failed (allAnswered_iff.mp all).2
  rcases checked_run rfl rest with ⟨rfl, rfl, failed⟩ | ⟨b, made, log₂, created, rest', rfl⟩
  · rw [OtherFailed.cons_answered]
    refine ⟨by simp [failed], SliceDb.wrote_exec dropped rfl, fun _ all => ?_⟩
    exact absurd failed (allAnswered_iff.mp all.tail).2
  rcases rest'.bind_inv with ⟨code, middle, log₃, log₄, first, second, rfl⟩
  rcases dumpBalanceDict_run first with ⟨rfl, only, wrote, holds⟩
  rw [if_neg (by omega)] at second
  rcases second.done_inv with ⟨rfl, rfl, rfl⟩
  rw [List.append_nil, OtherFailed.cons_answered, OtherFailed.cons_answered]
  refine ⟨by simp [only.not_otherFailed], ?_, fun orders all before => ?_⟩
  · exact (SliceDb.wrote_exec dropped rfl).trans
      ((SliceDb.wrote_exec created rfl).trans wrote)
  · cases dropped
    cases created
    have empty : SliceDb.HoldsBalances (((d.setBalances time none).setBalances time
        (some (((d.setBalances time none).balances time).getD [])))) time [] :=
      ⟨[], by simp [SliceDb.setBalances], rfl⟩
    have written := holds orders [] (by simpa using all.tail.tail) ⟨empty, before⟩
    simpa using written

/-! ## The whole dump -/

/-- The tables of the slice at `time` hold all of `s`. -/
def SliceDb.Complete (d : SliceDb) (time : ℕ) (s : Slice) : Prop :=
  d.HoldsOrders time s.orders ∧ d.HoldsBalances time s.balances

/-- The row a dump adds to the history. -/
def Slice.row (s : Slice) (id time : ℕ) : SliceRow :=
  ⟨id, time, s.endOperId, s.endOrderId, s.endDealsId⟩

/-- A dump returns a negative code precisely when a statement other than an
`INSERT` fails or a market is missing, and then records nothing. It is complete
when nothing fails. -/
theorem dumpToDb_run (run : Sql.Run SliceDb.exec (dumpToDb time s) d log ret d') :
    (ret < 0 ↔ OtherFailed log ∨ none ∈ s.markets) ∧
      (ret < 0 → d'.history = d.history) ∧
      (AllAnswered log → none ∉ s.markets →
        d'.Complete time s ∧ d'.history = d.history ++ [s.row d.nextId time]) := by
  rcases checked_run rfl run with ⟨rfl, rfl, failed⟩ | ⟨a, start, log₁, connected, rest, rfl⟩
  · refine ⟨by simp [failed], fun _ => rfl, fun all => ?_⟩
    exact absurd failed (allAnswered_iff.mp all).2
  cases connected
  rcases rest.bind_inv with ⟨code, middle, log₂, log₃, first, second, rfl⟩
  rcases dumpOrders_run first with ⟨negative, wrote, holds⟩
  rw [OtherFailed.cons_answered, OtherFailed.append]
  by_cases orders : code < 0
  · rw [if_pos orders] at second
    rcases second.done_inv with ⟨rfl, rfl, rfl⟩
    have reason := negative.mp orders
    refine ⟨by simp only [Int.reduceNeg, Int.reduceLT, true_iff]; tauto, fun _ => wrote.history,
      fun all known => ?_⟩
    rcases reason with failed | missing
    · exact absurd failed (allAnswered_iff.mp all.tail.append.1).2
    · exact absurd missing known
  rw [if_neg orders] at second
  have fine := negative.not.mp orders
  rcases second.bind_inv with ⟨code', middle', log₄, log₅, third, fourth, rfl⟩
  rcases dumpBalance_run third with ⟨negative', wrote', holds'⟩
  rw [OtherFailed.append]
  by_cases balances : code' < 0
  · rw [if_pos balances] at fourth
    rcases fourth.done_inv with ⟨rfl, rfl, rfl⟩
    have reason := negative'.mp balances
    refine ⟨by simp [reason], fun _ => (wrote.trans wrote').history, fun all _ => ?_⟩
    exact absurd reason (allAnswered_iff.mp all.tail.append.2.append.1).2
  rw [if_neg balances] at fourth
  have fine' := negative'.not.mp balances
  rcases fourth.bind_inv with ⟨code'', middle'', log₆, log₇, fifth, sixth, rfl⟩
  have zero : ¬ code'' < 0 := by
    rcases mysqlRealQuery_inv fifth with ⟨_, _, _, rfl⟩ | ⟨_, _, rfl⟩ <;> omega
  rw [if_neg zero] at sixth
  rcases sixth.done_inv with ⟨rfl, rfl, rfl⟩
  have kind : ¬ OtherFailed (log₆ ++ []) := by
    rintro ⟨entry, member, other, failed⟩
    rw [List.append_nil] at member
    rcases mysqlRealQuery_inv fifth with ⟨_, _, rfl, _⟩ | ⟨_, rfl, _⟩
    · rw [List.mem_singleton.mp member] at other
      cases other
    · rw [List.mem_singleton.mp member] at other
      cases other
  refine ⟨by simp only [lt_irrefl, false_iff]; tauto, fun negative => absurd negative (by simp),
    fun all known => ?_⟩
  have answered := all.tail.append
  have complete := holds' _ answered.2.append.1 (holds answered.1 known)
  rcases mysqlRealQuery_inv fifth with ⟨a, executed, _, _⟩ | ⟨_, rfl, _⟩
  · cases executed
    refine ⟨⟨complete.2, complete.1⟩, ?_⟩
    rw [(wrote.trans wrote').history, (wrote.trans wrote').nextId]
    rfl
  · have failed := answered.2.append.2 _ (List.mem_append_left _ List.mem_cons_self)
    cases failed

/-- What a recorded slice promises: a row for it means complete tables, and a
failed `INSERT` means a negative code and no row. -/
def RecordsOnlyComplete (time : ℕ) (s : Slice) (log : List (SliceQuery × Bool)) (ret : ℤ)
    (d' : SliceDb) : Prop :=
  ((∃ row ∈ d'.history, row.time = time) → d'.Complete time s) ∧
    (InsertFailed log → ret < 0 ∧ ∀ row ∈ d'.history, row.time ≠ time)

/-- A slice is recorded only when complete precisely if no `INSERT` of the dump
fails, or the dump fails anyway at another statement or a missing market. -/
theorem dumpToDb_records_iff (fresh : ∀ row ∈ d.history, row.time ≠ time)
    (run : Sql.Run SliceDb.exec (dumpToDb time s) d log ret d') :
    RecordsOnlyComplete time s log ret d' ↔
      ¬ InsertFailed log ∨ OtherFailed log ∨ none ∈ s.markets := by
  rcases dumpToDb_run run with ⟨negative, unrecorded, complete⟩
  constructor
  · rintro ⟨_, reported⟩
    by_cases inserts : InsertFailed log
    · exact Or.inr (negative.mp (reported inserts).1)
    · exact Or.inl inserts
  · intro reason
    by_cases failing : OtherFailed log ∨ none ∈ s.markets
    · have code := negative.mpr failing
      have none_ : ∀ row ∈ d'.history, row.time ≠ time := by
        rw [unrecorded code]
        exact fresh
      constructor
      · rintro ⟨row, member, same⟩
        exact absurd same (none_ row member)
      · intro _
        exact ⟨code, none_⟩
    · have inserts : ¬ InsertFailed log := reason.resolve_right failing
      rw [not_or] at failing
      have whole := complete (allAnswered_iff.mpr ⟨inserts, failing.1⟩) failing.2
      exact ⟨fun _ => whole.1, fun failed => absurd failed inserts⟩

section Small

/-- One user with five units of one asset, and no orders. -/
def smallSlice : Slice where
  markets := [some ([], [])]
  balances := [(⟨1, .available, "BTC"⟩, .ofScaled 500000000 (-8))]
  endOperId := 1
  endOrderId := 0
  endDealsId := 0

/-- The statements of a dump of the small slice, when `inserted` tells whether
the balances are written. -/
def smallLog (inserted : Bool) : List (SliceQuery × Bool) :=
  [(.connect, true), (.dropOrders 100 true, true), (.createOrders 100, true),
    (.dropBalances 100 true, true), (.createBalances 100, true),
    (.insertBalances 100 smallSlice.balances, inserted),
    (.insertHistory 100 1 0 0, true)]

/-- The tables after the dump of the small slice. -/
def smallDumped (inserted : Bool) : SliceDb where
  orders := Function.update (Function.update (fun _ => none) 100 none) 100 (some [])
  balances := if inserted then
      Function.update (Function.update (Function.update (fun _ => none) 100 none) 100 (some []))
        100 (some [⟨1, 1, "BTC", .available, 50000000000000000⟩])
    else Function.update (Function.update (fun _ => none) 100 none) 100 (some [])
  history := [⟨1, 100, 1, 0, 0⟩]
  nextId := 2
  recorded := [⟨1, 100, 1, 0, 0⟩]

/-- The tables before the balances of the small slice are written. -/
def smallStarted : SliceDb :=
  ((((SliceDb.empty.setOrders 100 none).setOrders 100 (some [])).setBalances 100 none).setBalances
    100 (some []))

theorem smallStarted_insert :
    SliceDb.exec (.insertBalances 100 smallSlice.balances) smallStarted =
      some (.ok, smallStarted.setBalances 100 (some
        [⟨1, 1, "BTC", .available, 50000000000000000⟩])) := by
  have stored : balanceRows 1 smallSlice.balances =
      some [⟨1, 1, "BTC", .available, 50000000000000000⟩] := by decide +kernel
  simp [SliceDb.exec, smallStarted, SliceDb.setBalances, stored]

theorem smallDumped_run (inserted : Bool) :
    Sql.Run SliceDb.exec (dumpToDb 100 smallSlice) .empty (smallLog inserted) 0
      (smallDumped inserted) := by
  cases inserted with
  | true =>
      apply Sql.Run.answered rfl
      apply Sql.Run.answered rfl
      apply Sql.Run.answered rfl
      apply Sql.Run.answered rfl
      apply Sql.Run.answered rfl
      apply Sql.Run.answered smallStarted_insert
      exact .answered rfl (.done _ _)
  | false =>
      apply Sql.Run.answered rfl
      apply Sql.Run.answered rfl
      apply Sql.Run.answered rfl
      apply Sql.Run.answered rfl
      apply Sql.Run.answered rfl
      apply Sql.Run.failed
      exact .answered rfl (.done _ _)

/-- The balances of the small slice are not written, and it is recorded. -/
theorem dumpToDb_records_lost :
    Sql.Run SliceDb.exec (dumpToDb 100 smallSlice) .empty (smallLog false) 0 (smallDumped false) ∧
      ¬ RecordsOnlyComplete 100 smallSlice (smallLog false) 0 (smallDumped false) := by
  refine ⟨smallDumped_run false, fun only => ?_⟩
  have failed : InsertFailed (smallLog false) :=
    ⟨(.insertBalances 100 smallSlice.balances, false), by simp [smallLog], rfl, rfl⟩
  exact absurd (only.2 failed).1 (by decide)

/-- When they are written, what is recorded is complete. -/
theorem dumpToDb_records_small :
    RecordsOnlyComplete 100 smallSlice (smallLog true) 0 (smallDumped true) := by
  apply (dumpToDb_records_iff (by simp [SliceDb.empty]) (smallDumped_run true)).mpr
  left
  rintro ⟨entry, member, _, failed⟩
  simp only [smallLog, List.mem_cons, List.not_mem_nil, or_false] at member
  rcases member with rfl | rfl | rfl | rfl | rfl | rfl | rfl <;> cases failed

end Small

end ViabtcServer.MatchEngine
