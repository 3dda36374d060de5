import Mathlib.Data.List.Nodup
import Mathlib.Data.List.Sort

/-!
# Reading a table in pages

A table is a list of rows in the order of its primary key. It is read with the
query `SELECT … WHERE id > last ORDER BY id LIMIT limit`, repeated from the key
of the last row until a page comes back short. The rows are folded in one after
the other as if the table had been read at once.
-/

namespace ViabtcServer.Container

universe u v w

variable {ρ : Type u} {σ : Type v} {m : Type v → Type w} [Monad m] {key : ρ → ℕ} {limit : ℕ}
  {step : σ → ρ → m σ} {rows : List ρ} {last : ℕ}

/-- The rows past `last`. -/
def rowsAfter (key : ρ → ℕ) (rows : List ρ) (last : ℕ) : List ρ :=
  rows.filter fun row => last < key row

/-- One page of a query. -/
def page (key : ρ → ℕ) (limit : ℕ) (rows : List ρ) (last : ℕ) : List ρ :=
  (rowsAfter key rows last).take limit

/-- The key the next query starts from. -/
def lastKey (key : ρ → ℕ) (rows : List ρ) (last : ℕ) : ℕ :=
  (rows.getLast?.map key).getD last

/-- The loop over the pages. A full page moves on by at least one row, so there
are no more rounds than rows, and one. -/
def readPages (key : ρ → ℕ) (limit : ℕ) (step : σ → ρ → m σ) (rows : List ρ) :
    ℕ → ℕ → σ → m σ
  | 0, _, state => pure state
  | rounds + 1, last, state => do
      let read := page key limit rows last
      let state ← read.foldlM step state
      if read.length < limit then pure state
      else readPages key limit step rows rounds (lastKey key read last) state

/-- Read the rows of a table past `last`. -/
def readTable (key : ρ → ℕ) (limit : ℕ) (step : σ → ρ → m σ) (rows : List ρ) (last : ℕ)
    (state : σ) : m σ :=
  readPages key limit step rows (rows.length + 1) last state

omit [Monad m] in
/-- In a sorted table the rows past one row are those behind it. -/
theorem filter_beyond {front back : List ρ} {row : ρ}
    (sorted : (front ++ row :: back).Pairwise fun a b => key a < key b) :
    ((front ++ row :: back).filter fun other => key row < key other) = back := by
  rcases List.pairwise_append.mp sorted with ⟨_, behind, before⟩
  rcases List.pairwise_cons.mp behind with ⟨later, _⟩
  have none_ : (front.filter fun other => key row < key other) = [] := by
    rw [List.filter_eq_nil_iff]
    intro other member
    have earlier := before other member row List.mem_cons_self
    simpa using Nat.le_of_lt earlier
  have all : (back.filter fun other => key row < key other) = back := by
    rw [List.filter_eq_self]
    intro other member
    simpa using later other member
  rw [List.filter_append, none_, List.nil_append, List.filter_cons_of_neg (by simp), all]

/-- Past the last row of a page lie the rows the page left out. -/
theorem rowsAfter_lastKey (sorted : rows.Pairwise fun a b => key a < key b) (pos : 0 < limit)
    (some_ : rowsAfter key rows last ≠ []) :
    rowsAfter key rows (lastKey key (page key limit rows last) last) =
      (rowsAfter key rows last).drop limit := by
  have split := List.take_append_drop limit (rowsAfter key rows last)
  have pairwise : (rowsAfter key rows last).Pairwise fun a b => key a < key b :=
    sorted.sublist List.filter_sublist
  rcases List.eq_nil_or_concat (page key limit rows last) with empty | ⟨front, row, read⟩
  · rcases List.take_eq_nil_iff.mp empty with zero | empty
    · omega
    · exact absurd empty some_
  have lastEq : lastKey key (page key limit rows last) last = key row := by
    rw [read]
    simp [lastKey]
  have whole : rowsAfter key rows last =
      front ++ row :: (rowsAfter key rows last).drop limit := by
    have read' : (rowsAfter key rows last).take limit = front ++ [row] := by
      rw [← List.concat_eq_append]
      exact read
    rw [read', List.append_assoc, List.singleton_append] at split
    exact split.symm
  have later : last < key row := by
    have member : row ∈ rowsAfter key rows last := by
      rw [whole]
      simp
    simpa using (List.mem_filter.mp member).2
  have nested : rowsAfter key rows (key row) =
      (rowsAfter key rows last).filter fun other => key row < key other := by
    unfold rowsAfter
    rw [List.filter_filter]
    apply List.filter_congr
    intro other _
    rw [Bool.eq_iff_iff]
    simp only [decide_eq_true_eq, Bool.and_eq_true]
    omega
  rw [whole] at pairwise
  rw [lastEq, nested]
  nth_rewrite 1 [whole]
  exact filter_beyond pairwise

/-- Reading in pages folds the rows past `last` in order, each once. -/
theorem readPages_eq [LawfulMonad m] (sorted : rows.Pairwise fun a b => key a < key b)
    (pos : 0 < limit) (rounds : ℕ) (last : ℕ) (state : σ)
    (enough : (rowsAfter key rows last).length < rounds) :
    readPages key limit step rows rounds last state =
      (rowsAfter key rows last).foldlM step state := by
  induction rounds generalizing last state with
  | zero => omega
  | succ rounds ih =>
      unfold readPages
      by_cases short : (page key limit rows last).length < limit
      · have whole : page key limit rows last = rowsAfter key rows last := by
          unfold page at short ⊢
          rw [List.length_take] at short
          exact List.take_of_length_le (by omega)
        simp only [if_pos short, bind_pure]
        rw [whole]
      · have full : limit ≤ (rowsAfter key rows last).length := by
          unfold page at short
          rw [List.length_take] at short
          omega
        have some_ : rowsAfter key rows last ≠ [] := by
          intro empty
          rw [empty, List.length_nil] at full
          omega
        have rest := rowsAfter_lastKey sorted pos some_
        have fold : (rowsAfter key rows last).foldlM step state =
            (page key limit rows last).foldlM step state >>= fun state' =>
              ((rowsAfter key rows last).drop limit).foldlM step state' := by
          rw [page, ← List.foldlM_append, List.take_append_drop]
        simp only [if_neg short]
        rw [fold]
        apply bind_congr
        intro state'
        rw [ih, rest]
        rw [rest, List.length_drop]
        omega

theorem readTable_eq [LawfulMonad m] (sorted : rows.Pairwise fun a b => key a < key b)
    (pos : 0 < limit) (last : ℕ) (state : σ) :
    readTable key limit step rows last state = (rowsAfter key rows last).foldlM step state := by
  apply readPages_eq sorted pos
  have shorter := List.length_filter_le (fun row => decide (last < key row)) rows
  exact Nat.lt_succ_of_le shorter

/-! ## Tables in no order -/

omit [Monad m]

/-- The rows of a table in the order of their key. -/
def orderBy (key : ρ → ℕ) (rows : List ρ) : List ρ :=
  rows.insertionSort fun row other => key row ≤ key other

theorem orderBy_perm (key : ρ → ℕ) (rows : List ρ) : (orderBy key rows).Perm rows :=
  List.perm_insertionSort _ rows

/-- A primary key is in no two rows. -/
theorem orderBy_pairwise (distinct : (rows.map key).Nodup) :
    (orderBy key rows).Pairwise fun row other => key row < key other := by
  have le : (orderBy key rows).Pairwise fun row other => key row ≤ key other := by
    have : Std.Total fun row other : ρ => key row ≤ key other :=
      ⟨fun row other => Nat.le_total (key row) (key other)⟩
    have : IsTrans ρ fun row other => key row ≤ key other :=
      ⟨fun _ _ _ => Nat.le_trans⟩
    exact List.pairwise_insertionSort _ rows
  have ne : (orderBy key rows).Pairwise fun row other => key row ≠ key other := by
    have nodup := ((orderBy_perm key rows).map key).nodup_iff.mpr distinct
    exact List.pairwise_map.mp nodup
  exact (le.and ne).imp fun ⟨le, ne⟩ => lt_of_le_of_ne le ne

/-- A step that cannot fail is folded over a whole table in the order of its key. -/
theorem readTable_orderBy {fold : σ → ρ → σ} (distinct : (rows.map key).Nodup) (pos : 0 < limit)
    (positive : ∀ row ∈ rows, 0 < key row) (state : σ) :
    (readTable key limit (fun state row => (pure (fold state row) : Id σ)) (orderBy key rows) 0
      state).run = (orderBy key rows).foldl fold state := by
  have all : rowsAfter key (orderBy key rows) 0 = orderBy key rows := by
    apply List.filter_eq_self.mpr
    intro row member
    exact decide_eq_true (positive row ((orderBy_perm key rows).mem_iff.mp member))
  rw [readTable_eq (orderBy_pairwise distinct) pos, all, List.idRun_foldlM]
  rfl

/-! ## Pages by offset -/

/-- What `LIMIT offset, limit` selects of rows in order. -/
def offsetPage (offset limit : ℕ) (rows : List ρ) : List ρ :=
  (rows.drop offset).take limit

/-- The pages a list is cut into. -/
def pagesOf (limit : ℕ) (rows : List ρ) : List (List ρ) :=
  (List.range ((rows.length + limit - 1) / limit)).map fun i =>
    offsetPage (i * limit) limit rows

theorem length_offsetPage_le (offset : ℕ) : (offsetPage offset limit rows).length ≤ limit := by
  unfold offsetPage
  rw [List.length_take]
  exact Nat.min_le_left _ _

/-- The first pages are the first rows. -/
theorem flatMap_offsetPage (limit : ℕ) (rows : List ρ) (count : ℕ) :
    ((List.range count).flatMap fun i => offsetPage (i * limit) limit rows) =
      rows.take (count * limit) := by
  induction count with
  | zero => simp
  | succ count ih =>
      rw [List.range_succ, List.flatMap_append, ih, Nat.succ_mul, List.take_add]
      simp [offsetPage]

/-- Every row is on one page, in order. -/
theorem flatten_pagesOf (pos : 0 < limit) : (pagesOf limit rows).flatten = rows := by
  have enough : rows.length ≤ (rows.length + limit - 1) / limit * limit := by
    have split := Nat.div_add_mod (rows.length + limit - 1) limit
    have small := Nat.mod_lt (rows.length + limit - 1) pos
    rw [Nat.mul_comm]
    omega
  rw [pagesOf, ← List.flatMap_def, flatMap_offsetPage, List.take_of_length_le enough]

theorem mem_pagesOf {page : List ρ} {i : ℕ} (found : (pagesOf limit rows)[i]? = some page) :
    page = offsetPage (i * limit) limit rows ∧ i < (rows.length + limit - 1) / limit := by
  unfold pagesOf at found
  rw [List.getElem?_map, Option.map_eq_some_iff] at found
  rcases found with ⟨j, ranged, rfl⟩
  rcases List.getElem?_eq_some_iff.mp ranged with ⟨bound, same⟩
  rw [List.getElem_range] at same
  rw [List.length_range] at bound
  exact ⟨same ▸ rfl, bound⟩

end ViabtcServer.Container
