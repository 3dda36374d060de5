import ViabtcServer.MatchEngine.Dump
import ViabtcServer.MatchEngine.Reach

/-!
# Clearing old slices

Every child of `make_slice` dumps its slice and then deletes the slices that have
expired. Children overlap: the newest slice is the one recorded last, and it
expires by its timestamp. It survives as long as no child finds it expired and no
child misses a failed `INSERT`.
-/

namespace ViabtcServer.MatchEngine

open Decimal Container Sql

variable {slices : ℕ → Slice} {d d' : SliceDb} {statement : SliceQuery} {a : SliceAnswer}
  {time : ℕ}

/-! ## What children share -/

/-- No slice has been recorded for `time`. -/
def SliceDb.Unrecorded (d : SliceDb) (time : ℕ) : Prop :=
  ∀ row ∈ d.recorded, row.time ≠ time

/-- The slice recorded last is in the history, and its tables are whole. -/
structure SliceDb.Recoverable (slices : ℕ → Slice) (d : SliceDb) : Prop where
  history : d.history.Sublist d.recorded
  ordered : d.recorded.Pairwise fun row row' => row.id < row'.id
  numbered : ∀ row ∈ d.recorded, row.id < d.nextId
  distinct : (d.recorded.map SliceRow.time).Nodup
  newest : ∀ row, d.recorded.getLast? = some row →
    row ∈ d.history ∧ d.Complete row.time (slices row.time)

/-- What the other children may do while the child of `time` works. -/
structure SliceDb.Others (time : ℕ) (d d' : SliceDb) : Prop where
  grows : d.recorded <+: d'.recorded
  untouched : d.Unrecorded time →
    d'.Unrecorded time ∧ d'.orders time = d.orders time ∧ d'.balances time = d.balances time

/-- What the child of `time` does. -/
structure SliceDb.Own (time : ℕ) (d d' : SliceDb) : Prop where
  grows : d.recorded <+: d'.recorded
  records : ∀ row ∈ d'.recorded, row ∈ d.recorded ∨ row.time = time
  tables : ∀ other, other ≠ time → d.Unrecorded other →
    d'.orders other = d.orders other ∧ d'.balances other = d.balances other

theorem SliceDb.others_refl (time : ℕ) (d : SliceDb) : SliceDb.Others time d d :=
  ⟨List.prefix_refl _, fun free => ⟨free, rfl, rfl⟩⟩

theorem SliceDb.Others.trans {d'' : SliceDb} (one : SliceDb.Others time d d')
    (two : SliceDb.Others time d' d'') : SliceDb.Others time d d'' := by
  refine ⟨one.grows.trans two.grows, ?_⟩
  intro free
  rcases one.untouched free with ⟨free', orders, balances⟩
  rcases two.untouched free' with ⟨free'', orders', balances'⟩
  exact ⟨free'', orders'.trans orders, balances'.trans balances⟩

theorem SliceDb.Own.others {other : ℕ} (own : SliceDb.Own time d d') (differ : time ≠ other) :
    SliceDb.Others other d d' := by
  refine ⟨own.grows, ?_⟩
  intro free
  refine ⟨?_, own.tables other (Ne.symm differ) free⟩
  intro row member
  rcases own.records row member with before | new
  · exact free row before
  · exact new ▸ differ

/-- Children of different slices get along. -/
theorem SliceDb.compatible : Compatible SliceDb.Others SliceDb.Own where
  refl := SliceDb.others_refl
  trans := by
    intro k d d' d'' one two
    exact one.trans two
  covers := by
    intro k k' d d' differ own
    exact own.others differ

/-! ## Steps that keep the newest slice -/

/-- The tables of a slice are what they were. -/
structure SliceDb.SameTables (d d' : SliceDb) (time : ℕ) : Prop where
  orders : d'.orders time = d.orders time
  balances : d'.balances time = d.balances time

theorem SliceDb.Complete.same {s : Slice} (complete : d.Complete time s)
    (same : d.SameTables d' time) : d'.Complete time s := by
  constructor
  · rw [SliceDb.HoldsOrders, same.orders]
    exact complete.1
  · rw [SliceDb.HoldsBalances, same.balances]
    exact complete.2

/-- Work on the tables of a slice that is not the newest. -/
theorem SliceDb.Recoverable.elsewhere (holds : d.Recoverable slices) (wrote : d.Wrote d' time)
    (differ : ∀ row, d.recorded.getLast? = some row → row.time ≠ time) :
    d'.Recoverable slices := by
  constructor
  · rw [wrote.history, wrote.recorded]
    exact holds.history
  · rw [wrote.recorded]
    exact holds.ordered
  · rw [wrote.recorded, wrote.nextId]
    exact holds.numbered
  · rw [wrote.recorded]
    exact holds.distinct
  · intro row last
    rw [wrote.recorded] at last
    rcases holds.newest row last with ⟨kept, complete⟩
    have other := differ row last
    exact ⟨wrote.history ▸ kept, complete.same ⟨wrote.orders _ other, wrote.balances _ other⟩⟩

/-- Work on the tables of a slice that is not recorded. -/
theorem SliceDb.Recoverable.wrote (holds : d.Recoverable slices) (free : d.Unrecorded time)
    (wrote : d.Wrote d' time) : d'.Recoverable slices ∧ SliceDb.Own time d d' := by
  constructor
  · exact holds.elsewhere wrote fun row last => free row (List.mem_of_getLast? last)
  · constructor
    · rw [wrote.recorded]
    · intro row member
      exact Or.inl (wrote.recorded ▸ member)
    · exact fun other differ _ => ⟨wrote.orders other differ, wrote.balances other differ⟩

theorem SliceDb.Unrecorded.wrote (free : d.Unrecorded time) (wrote : d.Wrote d' time) :
    d'.Unrecorded time := by
  intro row member
  exact free row (wrote.recorded ▸ member)

/-- A complete slice is recorded and becomes the newest. -/
theorem SliceDb.Recoverable.insert (holds : d.Recoverable slices) (free : d.Unrecorded time)
    (complete : d.Complete time (slices time)) (row : SliceRow) (at_ : row.time = time)
    (next : row.id = d.nextId) (db : d' = { d with
      history := d.history ++ [row]
      nextId := d.nextId + 1
      recorded := d.recorded ++ [row] }) :
    d'.Recoverable slices ∧ SliceDb.Own time d d' := by
  subst db
  constructor
  · constructor
    · exact holds.history.append (.refl _)
    · apply List.pairwise_append.mpr
      refine ⟨holds.ordered, List.pairwise_singleton _ _, ?_⟩
      intro earlier member last same
      rw [List.mem_singleton.mp same, next]
      exact holds.numbered earlier member
    · intro other member
      rcases List.mem_append.mp member with before | same
      · exact Nat.lt_succ_of_lt (holds.numbered other before)
      · rw [List.mem_singleton.mp same, next]
        exact Nat.lt_succ_self _
    · rw [List.map_append]
      apply List.nodup_append.mpr
      refine ⟨holds.distinct, List.nodup_singleton _, ?_⟩
      intro t earlier t' last
      rcases List.mem_map.mp earlier with ⟨other, member, rfl⟩
      rw [List.mem_singleton.mp last, at_]
      exact free other member
    · intro newest last
      obtain rfl : row = newest := by simpa using last
      exact ⟨List.mem_append_right _ (List.mem_singleton_self _), at_ ▸ complete⟩
  · constructor
    · exact List.prefix_append _ _
    · intro other member
      rcases List.mem_append.mp member with before | same
      · exact Or.inl before
      · exact Or.inr (List.mem_singleton.mp same ▸ at_)
    · exact fun _ _ _ => ⟨rfl, rfl⟩

/-- A slice that was recorded and is not the newest. -/
def SliceDb.Outdated (d : SliceDb) (id time : ℕ) : Prop :=
  ∃ row ∈ d.recorded, ∃ newer ∈ d.recorded, row.id = id ∧ row.time = time ∧ row.id < newer.id

theorem SliceDb.Outdated.later {id : ℕ} (outdated : d.Outdated id time)
    (grows : d.recorded <+: d'.recorded) : d'.Outdated id time := by
  rcases outdated with ⟨row, member, newer, member', rest⟩
  exact ⟨row, grows.subset member, newer, grows.subset member', rest⟩

/-- The newest slice has the greatest id. -/
theorem SliceDb.Recoverable.le_newest (holds : d.Recoverable slices) {row newest : SliceRow}
    (last : d.recorded.getLast? = some newest) (member : row ∈ d.recorded) :
    row = newest ∨ row.id < newest.id := by
  rcases List.getLast?_eq_some_iff.mp last with ⟨earlier, split⟩
  have ordered := holds.ordered
  rw [split] at ordered member
  rcases List.mem_append.mp member with before | same
  · right
    exact (List.pairwise_append.mp ordered).2.2 row before newest (List.mem_singleton_self _)
  · exact Or.inl (List.mem_singleton.mp same)

/-- An outdated slice is not the newest: neither its id nor its time is. -/
theorem SliceDb.Recoverable.outdated_ne (holds : d.Recoverable slices) {id : ℕ}
    {newest : SliceRow} (outdated : d.Outdated id time)
    (last : d.recorded.getLast? = some newest) : newest.id ≠ id ∧ newest.time ≠ time := by
  rcases outdated with ⟨row, member, newer, member', rfl, rfl, less⟩
  have before : row.id < newest.id := by
    rcases holds.le_newest last member' with rfl | more
    · exact less
    · exact less.trans more
  constructor
  · exact Nat.ne_of_gt before
  · intro same
    have equal := List.inj_on_of_nodup_map holds.distinct (List.mem_of_getLast? last) member same
    rw [equal] at before
    exact Nat.lt_irrefl _ before

/-- A table of an outdated slice is dropped. -/
theorem SliceDb.Recoverable.dropped {own id : ℕ} (holds : d.Recoverable slices)
    (outdated : d.Outdated id time) (wrote : d.Wrote d' time) :
    d'.Recoverable slices ∧ SliceDb.Own own d d' := by
  constructor
  · exact holds.elsewhere wrote fun row last => (holds.outdated_ne outdated last).2
  · constructor
    · rw [wrote.recorded]
    · intro row member
      exact Or.inl (wrote.recorded ▸ member)
    · intro other _ free
      rcases outdated with ⟨row, member, _, _, _, same, _⟩
      have differ : other ≠ time := by
        rintro rfl
        exact free row member same
      exact ⟨wrote.orders other differ, wrote.balances other differ⟩

/-- The row of an outdated slice is deleted. -/
theorem SliceDb.Recoverable.deleted {own id : ℕ} (holds : d.Recoverable slices)
    (outdated : d.Outdated id time) (db : d' = { d with
      history := d.history.filter fun row => row.id ≠ id }) :
    d'.Recoverable slices ∧ SliceDb.Own own d d' := by
  subst db
  constructor
  · refine ⟨List.filter_sublist.trans holds.history, holds.ordered, holds.numbered,
      holds.distinct, ?_⟩
    intro row last
    rcases holds.newest row last with ⟨kept, complete⟩
    refine ⟨List.mem_filter.mpr ⟨kept, ?_⟩, complete⟩
    exact decide_eq_true (holds.outdated_ne outdated last).1
  · exact ⟨List.prefix_refl _, fun _ member => Or.inl member, fun _ _ _ => ⟨rfl, rfl⟩⟩

theorem SliceDb.recoverable_empty (slices : ℕ → Slice) : SliceDb.empty.Recoverable slices where
  history := .refl _
  ordered := .nil
  numbered := by
    intro row member
    cases member
  distinct := List.nodup_nil
  newest := by
    intro row last
    cases last

/-! ## One child -/

/-- No child finds the newest slice expired. -/
def NewestKept : SliceQuery → SliceDb → Prop
  | .selectBefore before, d => ∀ row, d.lastSlice = some row → before ≤ row.time
  | _, _ => True

/-- No `INSERT` into the tables of a slice fails. -/
def InsertsKept (statement : SliceQuery) : Prop :=
  statement.isTableInsert = false

/-- The child of `time` keeps the newest slice, whatever the others do. -/
abbrev ChildSafe (slices : ℕ → Slice) (time : ℕ) {α : Type} (post : α → SliceDb → Prop) :
    SliceClient α → SliceDb → Prop :=
  Safe SliceDb.exec NewestKept InsertsKept (SliceDb.Recoverable slices) (SliceDb.Others time)
    (SliceDb.Own time) post

/-- What holds after a function that returns no negative code. -/
def Unfailed (after : SliceDb → Prop) (ret : ℤ) (d : SliceDb) : Prop :=
  0 ≤ ret → after d

/-- One statement from a state the others cannot spoil. -/
theorem mysqlRealQuery_safe {before : SliceDb → Prop} {post : ℤ → SliceDb → Prop}
    (stable : ∀ d d', SliceDb.Others time d d' → before d → before d')
    (turn : ∀ d, d.Recoverable slices → before d → (InsertsKept statement → post 1 d) ∧
      ∀ a d', SliceDb.exec statement d = some (a, d') →
        d'.Recoverable slices ∧ SliceDb.Own time d d' ∧ post 0 d')
    (now : before d) : ChildSafe slices time post (mysqlRealQuery statement) d := by
  intro d₁ holds others
  rcases turn d₁ holds (stable d d₁ others now) with ⟨failed, answered⟩
  exact ⟨failed, fun a d₂ _ executed => answered a d₂ executed⟩

/-- A statement whose failure is looked for with `ret != 0`, and what follows. -/
theorem checked_safe {before done : SliceDb → Prop} (after : SliceDb → Prop)
    {next : SliceClient ℤ}
    (stable : ∀ d d', SliceDb.Others time d d' → before d → before d')
    (turn : ∀ d a d', d.Recoverable slices → before d →
      SliceDb.exec statement d = some (a, d') →
        d'.Recoverable slices ∧ SliceDb.Own time d d' ∧ after d')
    (rest : ∀ d, after d → ChildSafe slices time (Unfailed done) next d) (now : before d) :
    ChildSafe slices time (Unfailed done) (do
      let ret ← mysqlRealQuery statement
      if ret ≠ 0 then pure (-1) else next) d := by
  have one : ChildSafe slices time (fun ret d => ret = 0 → after d)
      (mysqlRealQuery statement) d := by
    apply mysqlRealQuery_safe stable _ now
    intro d₁ holds now₁
    constructor
    · intro _ zero
      exact absurd zero one_ne_zero
    · intro a d₂ executed
      rcases turn d₁ a d₂ holds now₁ executed with ⟨kept, own, then_⟩
      exact ⟨kept, own, fun _ => then_⟩
  apply one.bind
  intro ret d' then_
  by_cases zero : ret = 0
  · rw [if_neg (not_not.mpr zero)]
    exact rest d' (then_ zero)
  · rw [if_pos zero]
    intro positive
    omega

/-! ## The dump -/

/-- The state of the tables of `time` while its child is at work. -/
def Working (time : ℕ) (tables : SliceDb → Prop) (d : SliceDb) : Prop :=
  d.Unrecorded time ∧ tables d

/-- A property of the tables of `time` only. -/
def OfTables (time : ℕ) (tables : SliceDb → Prop) : Prop :=
  ∀ ⦃d d'⦄, d.SameTables d' time → tables d → tables d'

theorem Working.stable {tables : SliceDb → Prop} (of : OfTables time tables) (d d' : SliceDb)
    (others : SliceDb.Others time d d') (now : Working time tables d) :
    Working time tables d' := by
  rcases others.untouched now.1 with ⟨free, orders, balances⟩
  exact ⟨free, of ⟨orders, balances⟩ now.2⟩

theorem ofTables_true (time : ℕ) : OfTables time fun _ => True :=
  fun _ _ _ _ => trivial

theorem ofTables_orders (time : ℕ) (orders : List Order) :
    OfTables time fun d => d.HoldsOrders time orders := by
  intro d d' same holds
  rw [SliceDb.HoldsOrders, same.orders]
  exact holds

theorem ofTables_balances (time : ℕ) (entries : List BalanceEntry) :
    OfTables time fun d => d.HoldsBalances time entries := by
  intro d d' same holds
  rw [SliceDb.HoldsBalances, same.balances]
  exact holds

theorem OfTables.and {one two : SliceDb → Prop} (of : OfTables time one)
    (of' : OfTables time two) : OfTables time fun d => one d ∧ two d :=
  fun _ _ same both => ⟨of same both.1, of' same both.2⟩

/-- A statement about the tables of `time` that is looked at with `ret != 0`. -/
theorem table_safe {one done : SliceDb → Prop} (two : SliceDb → Prop) {next : SliceClient ℤ}
    (about : statement.About time) (of : OfTables time one)
    (writes : ∀ d a d', one d → SliceDb.exec statement d = some (a, d') → two d')
    (rest : ∀ d, Working time two d → ChildSafe slices time (Unfailed done) next d)
    (now : Working time one d) :
    ChildSafe slices time (Unfailed done) (do
      let ret ← mysqlRealQuery statement
      if ret ≠ 0 then pure (-1) else next) d := by
  apply checked_safe (Working time two) (Working.stable of) _ rest now
  intro d₁ a d₂ holds now₁ executed
  have wrote := SliceDb.wrote_exec executed about
  rcases holds.wrote now₁.1 wrote with ⟨kept, own⟩
  exact ⟨kept, own, now₁.1.wrote wrote, writes d₁ a d₂ now₁.2 executed⟩

/-- The loop over the rows writes all of them: its inserts do not fail. -/
theorem dumpRows_safe {ρ : Type} (insert : List ρ → SliceQuery) {written : List ρ}
    (holds : SliceDb → List ρ → Prop)
    (inserts : ∀ batch, (insert batch).isTableInsert = true)
    (about : ∀ batch, (insert batch).About time)
    (of : ∀ written, OfTables time fun d => holds d written)
    (writes : ∀ {d d' a written batch}, holds d written →
      SliceDb.exec (insert batch) d = some (a, d') → holds d' (written ++ batch))
    (now : Working time (holds · written) d) (pending rest : List ρ) :
    ChildSafe slices time (fun ret d => ret = 0 ∧
      Working time (holds · (written ++ pending ++ rest)) d) (dumpRows insert pending rest) d := by
  -- one statement, whatever follows it
  have one {batch written : List ρ} {d : SliceDb} (now : Working time (holds · written) d) :
      ChildSafe slices time (fun ret d => ret = 0 ∧ Working time (holds · (written ++ batch)) d)
        (mysqlRealQuery (insert batch)) d := by
    apply mysqlRealQuery_safe (Working.stable (of written)) _ now
    intro d₁ kept now₁
    constructor
    · intro allowed
      rw [InsertsKept, inserts batch] at allowed
      cases allowed
    · intro a d₂ executed
      have wrote := SliceDb.wrote_exec executed (about batch)
      rcases kept.wrote now₁.1 wrote with ⟨kept', own⟩
      exact ⟨kept', own, rfl, now₁.1.wrote wrote, writes now₁.2 executed⟩
  induction rest generalizing pending written d with
  | nil =>
      unfold dumpRows
      by_cases some_ : pending.length > 0
      · rw [if_pos some_]
        apply (one now).bind
        rintro ret d' ⟨rfl, then_⟩
        rw [if_neg (lt_irrefl 0), List.append_nil]
        exact ⟨rfl, then_⟩
      · rw [if_neg some_]
        have none_ : pending = [] := List.length_eq_zero_iff.mp (by omega)
        subst none_
        simp only [List.append_nil]
        exact ⟨rfl, now⟩
  | cons row rest ih =>
      unfold dumpRows
      by_cases full : (pending ++ [row]).length = insertLimit
      · rw [if_pos full]
        apply (one now).bind
        rintro ret d' ⟨rfl, then_⟩
        rw [if_neg (lt_irrefl 0)]
        have whole := ih then_ []
        simpa using whole
      · rw [if_neg full]
        have whole := ih now (pending ++ [row])
        simpa using whole

theorem dumpOrdersList_safe {written list : List Order}
    (now : Working time (SliceDb.HoldsOrders · time written) d) :
    ChildSafe slices time (fun ret d => ret = 0 ∧
      Working time (SliceDb.HoldsOrders · time (written ++ list)) d)
      (dumpOrdersList time list) d := by
  have spec : ChildSafe slices time _ _ d :=
    dumpRows_safe (.insertOrders time) (fun d written => d.HoldsOrders time written)
      (fun _ => rfl) (fun _ => rfl) (ofTables_orders time)
      (fun before executed => before.insert executed) now [] list
  unfold dumpOrdersList
  simpa using spec

/-- The orders of a list of markets, as `Slice.orders` puts them together. -/
def marketsOrders (markets : List (Option (List Order × List Order))) : List Order :=
  markets.flatMap fun lists =>
    match lists with
    | some (asks, bids) => asks ++ bids
    | none => []

theorem dumpMarkets_safe {markets : List (Option (List Order × List Order))}
    {written : List Order} (now : Working time (SliceDb.HoldsOrders · time written) d) :
    ChildSafe slices time
      (Unfailed (Working time (SliceDb.HoldsOrders · time (written ++ marketsOrders markets))))
      (dumpMarkets time markets) d := by
  induction markets generalizing written d with
  | nil =>
      intro _
      simpa [marketsOrders] using now
  | cons lists rest ih =>
      cases lists with
      | none =>
          intro positive
          cases positive
      | some lists =>
          rcases lists with ⟨asks, bids⟩
          unfold dumpMarkets
          apply (dumpOrdersList_safe now).bind
          rintro ret d₁ ⟨rfl, asked⟩
          rw [if_neg (lt_irrefl 0)]
          apply (dumpOrdersList_safe asked).bind
          rintro ret d₂ ⟨rfl, both⟩
          rw [if_neg (lt_irrefl 0)]
          have whole := ih both
          simpa [marketsOrders] using whole

theorem dumpOrders_safe {markets : List (Option (List Order × List Order))}
    (free : d.Unrecorded time) :
    ChildSafe slices time
      (Unfailed (Working time (SliceDb.HoldsOrders · time (marketsOrders markets))))
      (dumpOrders time markets) d := by
  refine table_safe (fun d => d.orders time = none) rfl (ofTables_true time) ?_ ?_
    ⟨free, trivial⟩
  · intro d₁ a d₂ _ dropped
    cases dropped
    exact Function.update_self ..
  intro d₁ cleared
  refine table_safe (SliceDb.HoldsOrders · time []) rfl ?_ ?_ ?_ cleared
  · intro d₂ d₃ same none_
    exact same.orders.trans none_
  · intro d₂ a d₃ none_ created
    cases created
    refine ⟨[], ?_, rfl, List.nodup_nil⟩
    simp [SliceDb.setOrders, none_]
  · exact fun d₂ made => dumpMarkets_safe made

/-- Balances are written beside the orders of the slice. -/
theorem dumpBalance_safe {orders : List Order} {dict : List BalanceEntry}
    (now : Working time (SliceDb.HoldsOrders · time orders) d) :
    ChildSafe slices time (Unfailed (Working time fun d =>
      d.HoldsBalances time dict ∧ d.HoldsOrders time orders)) (dumpBalance time dict) d := by
  refine table_safe (fun d => d.balances time = none ∧ d.HoldsOrders time orders) rfl
    (ofTables_orders time orders) ?_ ?_ now
  · intro d₁ a d₂ before dropped
    cases dropped
    exact ⟨Function.update_self .., before⟩
  intro d₁ cleared
  refine table_safe (fun d => d.HoldsBalances time [] ∧ d.HoldsOrders time orders) rfl ?_ ?_ ?_
    cleared
  · intro d₂ d₃ same before
    exact ⟨same.balances.trans before.1, ofTables_orders time orders same before.2⟩
  · intro d₂ a d₃ before created
    cases created
    refine ⟨⟨[], ?_, rfl⟩, before.2⟩
    simp [SliceDb.setBalances, before.1]
  intro d₂ made
  unfold dumpBalanceDict
  have loop : ChildSafe slices time _ _ d₂ :=
    dumpRows_safe (.insertBalances time)
      (fun d written => d.HoldsBalances time written ∧ d.HoldsOrders time orders)
      (fun _ => rfl) (fun _ => rfl)
      (fun written => (ofTables_balances time written).and (ofTables_orders time orders))
      (fun before executed => ⟨before.1.insert executed, by
        rcases Option.map_eq_some_iff.mp executed with ⟨rows, _, done⟩
        cases done
        exact before.2⟩) made [] dict
  apply loop.bind
  rintro ret d₃ ⟨rfl, written⟩
  rw [if_neg (lt_irrefl 0)]
  intro _
  simpa using written

/-- The dump of the slice at `time` keeps the newest slice, and records its own
only when complete. -/
theorem dumpToDb_safe (free : d.Unrecorded time) :
    ChildSafe slices time (fun _ _ => True) (dumpToDb time (slices time)) d := by
  have whole : ChildSafe slices time (Unfailed fun _ => True)
      (dumpToDb time (slices time)) d := by
    refine checked_safe (Working time fun _ => True) (Working.stable (ofTables_true time)) ?_ ?_
      ⟨free, trivial⟩
    · intro d₁ a d₂ holds now connected
      cases connected
      rcases holds.wrote now.1 (.refl d₁ time) with ⟨kept, own⟩
      exact ⟨kept, own, now⟩
    intro d₁ now₁
    apply (dumpOrders_safe now₁.1).bind
    intro ret d₂ orders
    by_cases negative : ret < 0
    · rw [if_pos negative]
      exact fun _ => trivial
    rw [if_neg negative]
    apply (dumpBalance_safe (orders (Int.not_lt.mp negative))).bind
    intro ret d₃ both
    by_cases negative' : ret < 0
    · rw [if_pos negative']
      exact fun _ => trivial
    rw [if_neg negative']
    have recorded : ChildSafe slices time (fun _ _ => True) (mysqlRealQuery
        (.insertHistory time (slices time).endOperId (slices time).endOrderId
          (slices time).endDealsId)) d₃ := by
      apply mysqlRealQuery_safe (Working.stable ((ofTables_balances time _).and
        (ofTables_orders time _))) _ (both (Int.not_lt.mp negative'))
      intro d₄ holds now₄
      refine ⟨fun _ => trivial, ?_⟩
      intro a d₅ executed
      cases executed
      rcases holds.insert now₄.1 ⟨now₄.2.2, now₄.2.1⟩ ((slices time).row d₄.nextId time) rfl rfl
        rfl with ⟨kept, own⟩
      exact ⟨kept, own, trivial⟩
    apply recorded.bind
    intro ret d₄ _
    by_cases negative'' : ret < 0
    · rw [if_pos negative'']
      exact fun _ => trivial
    · rw [if_neg negative'']
      exact fun _ => trivial
  exact whole.mono fun _ _ _ => trivial

/-! ## The clearing -/

/-- `get_last_slice` finds the slice recorded last. -/
theorem SliceDb.Recoverable.lastSlice (holds : d.Recoverable slices) :
    d.lastSlice = d.recorded.getLast? := by
  cases last : d.recorded.getLast? with
  | none =>
      have nothing := List.getLast?_eq_none_iff.mp last
      have empty : d.history = [] := List.sublist_nil.mp (nothing ▸ holds.history)
      rw [SliceDb.lastSlice, empty]
      rfl
  | some row =>
      apply List.mem_argmax_iff.mpr
      refine ⟨(holds.newest row last).1, ?_, ?_⟩
      · intro other member
        rcases holds.le_newest last (holds.history.subset member) with rfl | less
        · exact le_rfl
        · exact less.le
      · intro other member most
        rcases holds.le_newest last (holds.history.subset member) with rfl | less
        · exact le_rfl
        · exact absurd most (Nat.not_le.mpr less)

/-- The slices a child finds expired are outdated. -/
theorem SliceDb.Recoverable.expired (holds : d.Recoverable slices) {before : ℤ}
    (kept : NewestKept (.selectBefore before) d) {row : SliceRow} (member : row ∈ d.history)
    (old : (row.time : ℤ) < before) : d.Outdated row.id row.time := by
  have inside := holds.history.subset member
  cases last : d.recorded.getLast? with
  | none =>
      rw [List.getLast?_eq_none_iff.mp last] at inside
      cases inside
  | some newest =>
      have young := kept newest (holds.lastSlice.trans last)
      rcases holds.le_newest last inside with rfl | less
      · exact absurd old (Int.not_lt.mpr young)
      · exact ⟨row, inside, newest, List.mem_of_getLast? last, rfl, rfl, less⟩

theorem SliceDb.Others.outdated {own id : ℕ} (d d' : SliceDb) (others : SliceDb.Others own d d')
    (outdated : d.Outdated id time) : d'.Outdated id time :=
  outdated.later others.grows

/-- Dropping a table or deleting a row of an outdated slice. -/
theorem delete_safe {own id : ℕ} {done : SliceDb → Prop} {next : SliceClient ℤ}
    (turn : ∀ d a d', d.Recoverable slices → d.Outdated id time →
      SliceDb.exec statement d = some (a, d') → d'.Recoverable slices ∧ SliceDb.Own own d d')
    (rest : ∀ d, d.Outdated id time → ChildSafe slices own (Unfailed done) next d)
    (outdated : d.Outdated id time) :
    ChildSafe slices own (Unfailed done) (do
      let ret ← mysqlRealQuery statement
      if ret ≠ 0 then pure (-1) else next) d := by
  apply checked_safe (SliceDb.Outdated · id time) SliceDb.Others.outdated _ rest outdated
  intro d₁ a d₂ holds outdated₁ executed
  rcases turn d₁ a d₂ holds outdated₁ executed with ⟨kept, own⟩
  exact ⟨kept, own, outdated₁.later own.grows⟩

theorem deleteSlice_safe {own id : ℕ} (outdated : d.Outdated id time) :
    ChildSafe slices own (Unfailed fun _ => True) (deleteSlice id time) d := by
  apply delete_safe _ _ outdated
  · intro d₁ a d₂ holds outdated₁ dropped
    exact holds.dropped outdated₁ (SliceDb.wrote_exec dropped rfl)
  intro d₁ outdated₁
  apply delete_safe _ _ outdated₁
  · intro d₂ a d₃ holds outdated₂ dropped
    exact holds.dropped outdated₂ (SliceDb.wrote_exec dropped rfl)
  intro d₂ outdated₂
  apply delete_safe _ _ outdated₂
  · intro d₃ a d₄ holds outdated₃ deleted
    cases deleted
    exact holds.deleted outdated₃ rfl
  · exact fun _ _ _ => trivial

theorem deleteSlices_safe {own : ℕ} {found : List (ℕ × ℕ)}
    (outdated : ∀ entry ∈ found, d.Outdated entry.1 entry.2) :
    ChildSafe slices own (fun _ _ => True) (deleteSlices found) d := by
  induction found generalizing d with
  | nil => exact trivial
  | cons entry rest ih =>
      rcases entry with ⟨id, time⟩
      have one : ChildSafe slices own (Unfailed fun _ => True) (deleteSlice id time) d :=
        deleteSlice_safe (outdated _ List.mem_cons_self)
      have framed := one.frame (fun d => ∀ entry ∈ rest, d.Outdated entry.1 entry.2)
        (fun d d' others before entry member => (before entry member).later others.grows)
        (fun d d' mine before entry member => (before entry member).later mine.grows)
        (fun entry member => outdated entry (List.mem_cons_of_mem _ member))
      unfold deleteSlices
      apply framed.bind
      rintro ret d' ⟨_, remaining⟩
      by_cases negative : ret < 0
      · rw [if_pos negative]
        exact trivial
      · rw [if_neg negative]
        exact ih remaining

theorem SliceDb.own_refl (time : ℕ) (d : SliceDb) : SliceDb.Own time d d :=
  ⟨List.prefix_refl _, fun _ => Or.inl, fun _ _ _ => ⟨rfl, rfl⟩⟩

/-- The rows found expired are deleted one by one. -/
theorem selectBefore_safe {own : ℕ} (before : ℤ) :
    ChildSafe slices own (fun _ _ => True) (.query (.selectBefore before) fun answer =>
      match answer with
      | some (.rows found) => deleteSlices found
      | _ => .done (-1)) d := by
  intro d₁ holds others
  constructor
  · exact fun _ => trivial
  · intro a d₂ kept executed
    cases executed
    refine ⟨holds, SliceDb.own_refl own d₁, ?_⟩
    apply deleteSlices_safe
    intro entry member
    rcases List.mem_map.mp member with ⟨row, inside, rfl⟩
    rcases List.mem_filter.mp inside with ⟨inside, old⟩
    exact holds.expired kept inside (of_decide_eq_true old)

/-- A child clears only slices that are not the newest. -/
theorem clearSlice_safe (keeptime : ℕ) :
    ChildSafe slices time (fun _ _ => True) (clearSlice keeptime time) d := by
  have whole : ChildSafe slices time (Unfailed fun _ => True) (clearSlice keeptime time) d := by
    apply checked_safe (fun _ => True) (fun _ _ _ _ => trivial) _ _ trivial
    · intro d₁ a d₂ holds _ connected
      cases connected
      exact ⟨holds, SliceDb.own_refl time d₁, trivial⟩
    intro d₁ _
    have counted : ChildSafe slices time (fun _ _ => True)
        (sliceCount ((time : ℤ) - keeptime)) d₁ := by
      intro d₂ holds others
      refine ⟨fun _ => trivial, ?_⟩
      intro a d₃ _ executed
      cases executed
      exact ⟨holds, SliceDb.own_refl time d₂, trivial⟩
    apply counted.bind
    intro ret d₂ _
    by_cases negative : ret < 0
    · rw [if_pos negative]
      exact fun _ => trivial
    rw [if_neg negative]
    by_cases zero : ret = 0
    · rw [if_pos zero]
      exact fun _ => trivial
    rw [if_neg zero]
    exact (selectBefore_safe _).mono fun _ _ _ _ => trivial
  exact whole.mono fun _ _ _ => trivial

theorem makeSlice_safe (keeptime : ℕ) (free : d.Unrecorded time) :
    ChildSafe slices time (fun _ _ => True) (makeSlice keeptime time (slices time)) d := by
  unfold makeSlice
  apply (dumpToDb_safe free).bind
  intro _ d₁ _
  apply (clearSlice_safe keeptime).bind
  exact fun _ _ _ => trivial

/-! ## All children -/

/-- The child of a slice whose time has not been recorded. -/
def StartsSlice (keeptime : ℕ) (slices : ℕ → Slice) (d : SliceDb) (time : ℕ)
    (child : SliceClient Unit) : Prop :=
  child = makeSlice keeptime time (slices time) ∧ d.Unrecorded time

/-- A run of the children of `make_slice`, from the time before the first. -/
def SliceRun (keeptime : ℕ) (slices : ℕ → Slice) (answers : SliceQuery → SliceDb → Prop)
    (fails : SliceQuery → Prop) : System SliceQuery SliceAnswer SliceDb ℕ → Prop :=
  Relation.ReflTransGen (SystemStep SliceDb.exec (StartsSlice keeptime slices) answers fails)
    ⟨.empty, fun _ => none⟩

/-- A restart can rely on the slice tables: the last slice is whole, and there is
one as soon as one has been recorded. -/
def RecoveryPoint (slices : ℕ → Slice) (d : SliceDb) : Prop :=
  (∀ row, d.lastSlice = some row → d.Complete row.time (slices row.time)) ∧
    (d.recorded ≠ [] → d.history ≠ [])

theorem SliceDb.Recoverable.recoveryPoint (holds : d.Recoverable slices) :
    RecoveryPoint slices d := by
  constructor
  · intro row last
    exact (holds.newest row (holds.lastSlice ▸ last)).2
  · intro recorded empty
    cases last : d.recorded.getLast? with
    | none => exact recorded (List.getLast?_eq_none_iff.mp last)
    | some row =>
        have kept := (holds.newest row last).1
        rw [empty] at kept
        cases kept

/-- Overlapping children, slow ones, failing statements and deaths leave the
recovery point alone while no child finds the newest slice expired and no
`INSERT` of rows fails. -/
theorem recoveryPoint_kept {keeptime : ℕ} {sys : System SliceQuery SliceAnswer SliceDb ℕ}
    (run : SliceRun keeptime slices NewestKept InsertsKept sys) : RecoveryPoint slices sys.db := by
  have safe := safe_run SliceDb.compatible (fun _ started => started.1 ▸ makeSlice_safe _ started.2)
    (SliceDb.recoverable_empty slices) (by simp) run
  exact safe.1.recoveryPoint

section Small

/-- An engine with one market, no orders and no balances. -/
def idleSlice : Slice where
  markets := [some ([], [])]
  balances := []
  endOperId := 0
  endOrderId := 0
  endDealsId := 0

/-- The tables after a dump of the idle slice. -/
def SliceDb.idle (d : SliceDb) (time : ℕ) : SliceDb :=
  let tables := (((d.setOrders time none).setOrders time (some [])).setBalances time
    none).setBalances time (some [])
  { tables with
    history := d.history ++ [⟨d.nextId, time, 0, 0, 0⟩]
    nextId := d.nextId + 1
    recorded := d.recorded ++ [⟨d.nextId, time, 0, 0, 0⟩] }

def idleLog (time : ℕ) : List (SliceQuery × Bool) :=
  [(.connect, true), (.dropOrders time true, true), (.createOrders time, true),
    (.dropBalances time true, true), (.createBalances time, true),
    (.insertHistory time 0 0 0, true)]

theorem idle_run (d : SliceDb) (time : ℕ) :
    Sql.Run SliceDb.exec (dumpToDb time idleSlice) d (idleLog time) 0 (d.idle time) := by
  let ordered := (d.setOrders time none).setOrders time (some [])
  have orders : SliceDb.exec (.createOrders time) (d.setOrders time none) =
      some (.ok, ordered) := by
    simp [SliceDb.exec, SliceDb.setOrders, ordered]
  have balances : SliceDb.exec (.createBalances time) (ordered.setBalances time none) =
      some (.ok, (ordered.setBalances time none).setBalances time (some [])) := by
    simp [SliceDb.exec, SliceDb.setBalances]
  apply Sql.Run.answered rfl
  apply Sql.Run.answered rfl
  apply Sql.Run.answered orders
  apply Sql.Run.answered rfl
  apply Sql.Run.answered balances
  exact .answered rfl (.done _ _)

/-- The slice at 100 has been recorded after the slice at 300. -/
def slowDb : SliceDb := (SliceDb.empty.idle 300).idle 100

/-- The child of 300 finds the newest slice expired, and its deletion breaks off
after the first table. -/
theorem slow_run :
    Sql.Run SliceDb.exec (clearSlice 100 300) slowDb
      [(.connect, true), (.countSince 200, true), (.selectBefore 200, true),
        (.dropOrders 100 false, true), (.dropBalances 100 false, false)] (-1)
      (slowDb.setOrders 100 none) := by
  apply Sql.Run.answered rfl
  apply Sql.Run.answered rfl
  apply Sql.Run.answered rfl
  apply Sql.Run.answered rfl
  exact .failed (.done _ _)

/-- The child of 100 is slow: the child of 300 finishes its dump first, and then
clears the slice that was recorded last. -/
theorem recoveryPoint_lost :
    ∃ sys, SliceRun 100 (fun _ => idleSlice) (fun _ _ => True) (fun _ => True) sys ∧
      ¬ RecoveryPoint (fun _ => idleSlice) sys.db := by
  let child (time : ℕ) : SliceClient Unit := makeSlice 100 time idleSlice
  let cleared (time : ℕ) : SliceClient Unit := clearSlice 100 time >>= fun _ => pure ()
  let sys₁ : System SliceQuery SliceAnswer SliceDb ℕ :=
    System.put ⟨.empty, fun _ => none⟩ 100 (some (child 100)) .empty
  let sys₂ := sys₁.put 300 (some (child 300)) .empty
  let sys₃ := sys₂.put 300 (some (cleared 300)) (SliceDb.empty.idle 300)
  let sys₄ := sys₃.put 100 (some (cleared 100)) slowDb
  let sys₅ := sys₄.put 300 (some (pure ())) (slowDb.setOrders 100 none)
  refine ⟨sys₅, ?_, ?_⟩
  · have start₁ : SliceRun 100 (fun _ => idleSlice) (fun _ _ => True) (fun _ => True) sys₁ :=
      .single (.start ⟨rfl, by simp [SliceDb.Unrecorded, SliceDb.empty]⟩ rfl)
    have start₂ : SliceRun 100 (fun _ => idleSlice) (fun _ _ => True) (fun _ => True) sys₂ :=
      start₁.tail
        (.start ⟨rfl, by simp [SliceDb.Unrecorded, SliceDb.empty, sys₁, System.put]⟩ rfl)
    have dump₃ := start₂.trans ((idle_run .empty 300).turns 300 (fun _ => cleared 300)
      (fun _ _ _ => trivial) (fun _ _ => trivial) sys₂ rfl rfl)
    have dump₄ := dump₃.trans ((idle_run _ 100).turns 100 (fun _ => cleared 100)
      (fun _ _ _ => trivial) (fun _ _ => trivial) sys₃ rfl rfl)
    exact dump₄.trans (slow_run.turns 300 (fun _ => pure ()) (fun _ _ _ => trivial)
      (fun _ _ => trivial) sys₄ rfl rfl)
  · intro point
    rcases point.1 ⟨2, 100, 0, 0, 0⟩ rfl with ⟨⟨rows, found, _⟩, _⟩
    cases found

/-- No child finds the newest slice expired, as a test. -/
def newestKept : SliceQuery → SliceDb → Bool
  | .selectBefore before, d => d.lastSlice.all fun row => decide (before ≤ row.time)
  | _, _ => true

theorem newestKept_sound (statement : SliceQuery) (d : SliceDb)
    (kept : newestKept statement d = true) : NewestKept statement d := by
  cases statement with
  | selectBefore before =>
      intro row last
      change d.lastSlice.all _ = true at kept
      rw [last] at kept
      exact of_decide_eq_true kept
  | _ => trivial

attribute [local instance] smallSettings Libmpdec.reference

/-- Three moments of the small engine: an ask, the rest of a bid, and a deep book. -/
def busySlices (time : ℕ) : Slice :=
  if time = 100 then smallBefore.slice
  else if time = 250 then smallEngine.slice
  else deepEngine.slice

/-- The children of 100, 250 and 300. -/
def busyStart : System SliceQuery SliceAnswer SliceDb ℕ :=
  let child (time : ℕ) : Option (SliceClient Unit) := some (makeSlice 100 time (busySlices time))
  ((System.put ⟨.empty, fun _ => none⟩ 100 (child 100) .empty).put 250 (child 250) .empty).put 300
    (child 300) .empty

/-- The child of 100 is done before the others begin. They write their rows in turns, and the
child of 250 is the last to record its slice. Both find the slice of 100 expired: the child
of 300 drops its tables, and the child of 250 fails to drop one that is gone. -/
def busyTurns : List (ℕ × Bool) :=
  List.replicate 11 (100, true) ++
    (List.replicate 7 [(250, true), (300, true)]).flatten ++ List.replicate 2 (300, true) ++
    [(250, true)] ++ List.replicate 4 (300, true) ++ List.replicate 3 (250, true) ++
    [(250, false)] ++ List.replicate 2 (300, true)

def busySystem : System SliceQuery SliceAnswer SliceDb ℕ :=
  (busyStart.serve SliceDb.exec newestKept (fun s => !s.isTableInsert) busyTurns).get
    (by decide +kernel)

/-- Three children with rows, two of them at once; the expired slice is deleted, and the
newest is whole. -/
theorem recoveryPoint_small : RecoveryPoint busySlices busySystem.db ∧
    busySystem.db.history.map SliceRow.time = [300, 250] ∧
    busySystem.db.recorded.map SliceRow.time = [100, 300, 250] ∧
    (busySystem.db.orders 100).isNone ∧ (busySystem.db.balances 100).isNone ∧
    (busySystem.db.orders 250).map List.length = some 1 := by
  have started : SliceRun 100 busySlices NewestKept InsertsKept busyStart :=
    .tail (.tail (.single (.start ⟨rfl, by simp [SliceDb.Unrecorded, SliceDb.empty]⟩ rfl))
      (.start ⟨rfl, by simp [SliceDb.Unrecorded, SliceDb.empty, System.put]⟩ rfl))
      (.start ⟨rfl, by simp [SliceDb.Unrecorded, SliceDb.empty, System.put]⟩ rfl)
  have served : SliceRun 100 busySlices NewestKept InsertsKept busySystem :=
    started.trans (System.serve_run newestKept_sound
      (fun s free => Bool.not_eq_true' _ |>.mp free) (Option.some_get _).symm)
  refine ⟨recoveryPoint_kept served, ?_⟩
  decide +kernel

end Small

end ViabtcServer.MatchEngine
