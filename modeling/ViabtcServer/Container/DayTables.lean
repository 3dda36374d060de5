import ViabtcServer.Container.Paging
import Mathlib.Data.List.Pairwise

/-!
# A numbered log in tables by day

The rows of a log are numbered from one and lie in tables by day, in the order of
the numbers. A reader visits some of the days, in order, and applies the rows past
the last one it has applied; a row that is not the next one makes it fail. What it
applies are the rows of the visited days, and it fails when there is a gap between
them.
-/

namespace ViabtcServer.Container

universe u v

variable {ρ : Type u} {σ : Type v} {key : ρ → ℕ} {apply : σ → ρ → Option σ}

/-! ## Numbered rows -/

/-- Apply a row if it is the next. -/
def applyNext (key : ρ → ℕ) (apply : σ → ρ → Option σ) (state : ℕ × σ) (row : ρ) :
    Option (ℕ × σ) :=
  if key row ≠ state.1 + 1 then none else (apply state.2 row).map fun s => (key row, s)

/-- Rows are applied one after the other if they are numbered without gaps. -/
theorem foldlM_applyNext {rows : List ρ} {last last' : ℕ} {s s' : σ} :
    rows.foldlM (applyNext key apply) (last, s) = some (last', s') ↔
      rows.map key = List.range' (last + 1) rows.length ∧ last' = last + rows.length ∧
        rows.foldlM apply s = some s' := by
  induction rows generalizing last s with
  | nil =>
      have start : some (last, s) = some (last', s') ↔ last' = last ∧ some s = some s' := by
        simp [eq_comm]
      simpa using start
  | cons row rest ih =>
      rw [List.foldlM_cons, List.foldlM_cons, List.map_cons, List.length_cons, List.range'_succ,
        List.cons.injEq]
      by_cases next : key row = last + 1
      · have step : applyNext key apply (last, s) row =
            (apply s row).map fun s => (key row, s) := if_neg (not_not.mpr next)
        rw [step]
        cases applied : apply s row with
        | none => simp
        | some middle =>
            show rest.foldlM (applyNext key apply) (key row, middle) = _ ↔ _
            rw [next, ih]
            have shift : last + 1 + rest.length = last + (rest.length + 1) := by omega
            simp [shift]
      · have step : applyNext key apply (last, s) row = none := if_pos next
        rw [step]
        simp [next]

/-- An increasing list of numbers past `n` counts up from `n` when it leaves
nothing out. -/
theorem eq_range'_iff {l : List ℕ} {n : ℕ} (sorted : l.Pairwise (· < ·))
    (past : ∀ x ∈ l, n < x) :
    l = List.range' (n + 1) l.length ↔ ∀ x ∈ l, ∀ y, n < y → y < x → y ∈ l := by
  constructor
  · intro counts x member y after before
    rw [counts, List.mem_range'_1] at member ⊢
    omega
  · intro closed
    induction l generalizing n with
    | nil => rfl
    | cons x rest ih =>
        rcases List.pairwise_cons.mp sorted with ⟨first, sorted'⟩
        have least : x = n + 1 := by
          by_contra other
          have above := past x List.mem_cons_self
          have inside := closed x List.mem_cons_self (n + 1) (by omega) (by omega)
          rcases List.mem_cons.mp inside with same | later
          · exact other same.symm
          · have behind := first _ later
            omega
        subst least
        rw [List.length_cons, List.range'_succ]
        congr 1
        apply ih sorted' first
        intro y member z after before
        rcases List.mem_cons.mp (closed y (List.mem_cons_of_mem _ member) z (by omega) before) with
          same | later
        · omega
        · exact later

/-! ## Days -/

/-- Rows with their days, in the order of their numbers. -/
def DaySorted (key : ρ → ℕ) (dated : List (ℕ × ρ)) : Prop :=
  dated.Pairwise fun a b => a.1 ≤ b.1 ∧ key a.2 < key b.2

variable {dated : List (ℕ × ρ)} {days : List ℕ} {a b : ℕ × ρ} {last last' : ℕ} {s s' : σ}

/-- The table of a day. -/
def ofDay (dated : List (ℕ × ρ)) (day : ℕ) : List ρ :=
  (dated.filter fun a => a.1 = day).map Prod.snd

/-- Apply the rows of a day past the last one applied. -/
def visit (key : ρ → ℕ) (apply : σ → ρ → Option σ) (dated : List (ℕ × ρ)) (state : ℕ × σ)
    (day : ℕ) : Option (ℕ × σ) :=
  (rowsAfter key (ofDay dated day) state.1).foldlM (applyNext key apply) state

/-- The rows past `last` on the days to visit. -/
def selected (key : ρ → ℕ) (dated : List (ℕ × ρ)) (days : List ℕ) (last : ℕ) : List (ℕ × ρ) :=
  dated.filter fun a => last < key a.2 ∧ a.1 ∈ days

theorem mem_selected : a ∈ selected key dated days last ↔
    a ∈ dated ∧ last < key a.2 ∧ a.1 ∈ days := by
  simp [selected]

theorem DaySorted.compare (sorted : DaySorted key dated) (here : a ∈ dated) (there : b ∈ dated)
    (differ : a ≠ b) : (a.1 ≤ b.1 ∧ key a.2 < key b.2) ∨ (b.1 ≤ a.1 ∧ key b.2 < key a.2) := by
  let either (a b : ℕ × ρ) : Prop :=
    (a.1 ≤ b.1 ∧ key a.2 < key b.2) ∨ (b.1 ≤ a.1 ∧ key b.2 < key a.2)
  have : Std.Symm either := ⟨fun _ _ => Or.symm⟩
  have all : dated.Pairwise either := sorted.imp Or.inl
  exact all.forall here there differ

theorem DaySorted.key_lt (sorted : DaySorted key dated) (here : a ∈ dated) (there : b ∈ dated)
    (earlier : a.1 < b.1) : key a.2 < key b.2 := by
  have differ : a ≠ b := by
    rintro rfl
    exact Nat.lt_irrefl _ earlier
  rcases sorted.compare here there differ with ⟨_, less⟩ | ⟨later, _⟩
  · exact less
  · omega

theorem DaySorted.key_injective (sorted : DaySorted key dated) (here : a ∈ dated)
    (there : b ∈ dated) (same : key a.2 = key b.2) : a = b := by
  by_contra differ
  rcases sorted.compare here there differ with ⟨_, less⟩ | ⟨_, less⟩ <;> omega

/-- The first of the days comes first. -/
theorem filter_day {l : List (ℕ × ρ)} {day : ℕ} (sorted : l.Pairwise fun a b => a.1 ≤ b.1)
    (least : ∀ a ∈ l, day ≤ a.1) :
    l = (l.filter fun a => a.1 = day) ++ l.filter fun a => a.1 ≠ day := by
  induction l with
  | nil => rfl
  | cons a rest ih =>
      rcases List.pairwise_cons.mp sorted with ⟨first, sorted'⟩
      have rest_least : ∀ b ∈ rest, day ≤ b.1 := fun b member =>
        least b (List.mem_cons_of_mem _ member)
      by_cases same : a.1 = day
      · rw [List.filter_cons_of_pos (by simpa using same),
          List.filter_cons_of_neg (by simpa using same), List.cons_append, ← ih sorted' rest_least]
      · have none_ : (rest.filter fun b => b.1 = day) = [] := by
          apply List.filter_eq_nil_iff.mpr
          intro b member
          have above := least a List.mem_cons_self
          have behind := first b member
          simp only [decide_eq_true_eq]
          omega
        have all : (rest.filter fun b => b.1 ≠ day) = rest := by
          have split := ih sorted' rest_least
          rw [none_, List.nil_append] at split
          exact split.symm
        rw [List.filter_cons_of_neg (by simpa using same),
          List.filter_cons_of_pos (by simpa using same), none_, all]
        rfl

/-- What is left to apply when the rows of a day have been. -/
theorem selected_later (sorted : DaySorted key dated) {day : ℕ} {rest : List ℕ}
    (first : ∀ other ∈ rest, day ≤ other)
    (numbers : (rowsAfter key (ofDay dated day) last).map key =
      List.range' (last + 1) (rowsAfter key (ofDay dated day) last).length) :
    (selected key dated (day :: rest) last).filter (fun a => a.1 ≠ day) =
      selected key dated rest (last + (rowsAfter key (ofDay dated day) last).length) := by
  have mem_rows {row : ρ} : row ∈ rowsAfter key (ofDay dated day) last ↔
      (day, row) ∈ dated ∧ last < key row := by
    simp [rowsAfter, ofDay]
  have number (n : ℕ) : n ∈ (rowsAfter key (ofDay dated day) last).map key ↔
      last < n ∧ n ≤ last + (rowsAfter key (ofDay dated day) last).length := by
    rw [numbers, List.mem_range'_1]
    omega
  rw [selected, selected, List.filter_filter]
  apply List.filter_congr
  intro a member
  rw [Bool.eq_iff_iff, Bool.and_eq_true, decide_eq_true_eq, decide_eq_true_eq, decide_eq_true_eq,
    List.mem_cons]
  constructor
  · rintro ⟨differ, above, same | listed⟩
    · exact absurd same differ
    refine ⟨?_, listed⟩
    -- the last row applied lies on an earlier day
    by_cases empty : (rowsAfter key (ofDay dated day) last).length = 0
    · omega
    have applied := (number _).mpr ⟨by omega, le_rfl⟩
    rcases List.mem_map.mp applied with ⟨row, inside, same⟩
    have earlier : day < a.1 := Nat.lt_of_le_of_ne (first _ listed) (Ne.symm differ)
    have less : key row < key a.2 := sorted.key_lt (mem_rows.mp inside).1 member earlier
    omega
  · rintro ⟨above, listed⟩
    refine ⟨?_, by omega, Or.inr listed⟩
    intro same
    have inside : a.2 ∈ rowsAfter key (ofDay dated day) last :=
      mem_rows.mpr ⟨by rw [← same]; exact member, by omega⟩
    have bound := ((number _).mp (List.mem_map_of_mem inside)).2
    omega

/-- Visiting days one after the other applies their rows one after the other. -/
theorem visits_eq (sorted : DaySorted key dated) (inOrder : days.Pairwise (· ≤ ·)) :
    days.foldlM (visit key apply dated) (last, s) =
      ((selected key dated days last).map Prod.snd).foldlM (applyNext key apply) (last, s) := by
  induction days generalizing last s with
  | nil =>
      have nothing : selected key dated [] last = [] := by simp [selected]
      rw [nothing]
      rfl
  | cons day rest ih =>
      rcases List.pairwise_cons.mp inOrder with ⟨first, inOrder'⟩
      have least : ∀ a ∈ selected key dated (day :: rest) last, day ≤ a.1 := by
        intro a member
        rcases List.mem_cons.mp (mem_selected.mp member).2.2 with same | later
        · exact Nat.le_of_eq same.symm
        · exact first _ later
      have chosen : (selected key dated (day :: rest) last).Pairwise fun a b => a.1 ≤ b.1 :=
        (List.Pairwise.sublist List.filter_sublist sorted).imp fun both => both.1
      have today : ((selected key dated (day :: rest) last).filter fun a => a.1 = day).map
          Prod.snd = rowsAfter key (ofDay dated day) last := by
        rw [rowsAfter, ofDay, List.filter_map, List.filter_filter, selected, List.filter_filter]
        congr 1
        apply List.filter_congr
        intro a _
        by_cases same : a.1 = day <;> simp [same]
      rw [filter_day chosen least, List.map_append, List.foldlM_append, today, List.foldlM_cons]
      show visit key apply dated (last, s) day >>= _ = visit key apply dated (last, s) day >>= _
      cases applied : visit key apply dated (last, s) day with
      | none => rfl
      | some state =>
          rcases state with ⟨last', s'⟩
          rcases foldlM_applyNext.mp applied with ⟨numbers, rfl, _⟩
          rw [selected_later sorted first numbers]
          exact ih inOrder'

/-- No day with a row past `last` is left out before a day that is visited. -/
def NoGap (key : ρ → ℕ) (dated : List (ℕ × ρ)) (days : List ℕ) (last : ℕ) : Prop :=
  ∀ a ∈ dated, ∀ b ∈ dated, last < key a.2 → key a.2 < key b.2 → b.1 ∈ days → a.1 ∈ days

/-- The visited rows are numbered without gaps precisely if no day between is left
out. -/
theorem selected_numbers_iff (sorted : DaySorted key dated)
    (numbers : dated.map (fun a => key a.2) = List.range' 1 dated.length) :
    ((selected key dated days last).map Prod.snd).map key =
        List.range' (last + 1) ((selected key dated days last).map Prod.snd).length ↔
      NoGap key dated days last := by
  have present {n : ℕ} (pos : 0 < n) {b : ℕ × ρ} (member : b ∈ dated) (below : n < key b.2) :
      ∃ a ∈ dated, key a.2 = n := by
    have top : key b.2 ∈ dated.map fun a => key a.2 := List.mem_map_of_mem member
    rw [numbers, List.mem_range'_1] at top
    have inside : n ∈ dated.map fun a => key a.2 := by
      rw [numbers, List.mem_range'_1]
      omega
    simpa using inside
  have increasing : (((selected key dated days last).map Prod.snd).map key).Pairwise (· < ·) := by
    rw [List.map_map, List.pairwise_map]
    exact (List.Pairwise.sublist List.filter_sublist sorted).imp fun both => both.2
  have mem_keys {n : ℕ} : n ∈ ((selected key dated days last).map Prod.snd).map key ↔
      ∃ a ∈ selected key dated days last, key a.2 = n := by
    rw [List.map_map, List.mem_map]
    rfl
  have past : ∀ n ∈ ((selected key dated days last).map Prod.snd).map key, last < n := by
    intro n member
    rcases mem_keys.mp member with ⟨a, chosen, rfl⟩
    exact (mem_selected.mp chosen).2.1
  have counts := eq_range'_iff increasing past
  rw [List.length_map] at counts
  rw [counts]
  constructor
  · intro closed a here b there above less listed
    have inside := closed _ (mem_keys.mpr ⟨b, mem_selected.mpr ⟨there, by omega, listed⟩, rfl⟩)
      (key a.2) above less
    rcases mem_keys.mp inside with ⟨a', chosen, same⟩
    have chosen := mem_selected.mp chosen
    exact sorted.key_injective chosen.1 here same ▸ chosen.2.2
  · intro noGap n member k above less
    rcases mem_keys.mp member with ⟨b, chosen, rfl⟩
    rcases mem_selected.mp chosen with ⟨there, _, listed⟩
    rcases present (by omega) there less with ⟨a, here, rfl⟩
    exact mem_keys.mpr ⟨a, mem_selected.mpr
      ⟨here, above, noGap a here b there above less listed⟩, rfl⟩

/-- Visiting days succeeds precisely if there is no gap and every visited row can
be applied. -/
theorem visits_iff (sorted : DaySorted key dated)
    (numbers : dated.map (fun a => key a.2) = List.range' 1 dated.length)
    (inOrder : days.Pairwise (· ≤ ·)) :
    days.foldlM (visit key apply dated) (last, s) = some (last', s') ↔
      NoGap key dated days last ∧
        last' = last + ((selected key dated days last).map Prod.snd).length ∧
        ((selected key dated days last).map Prod.snd).foldlM apply s = some s' := by
  rw [visits_eq sorted inOrder, foldlM_applyNext, selected_numbers_iff sorted numbers]

end ViabtcServer.Container
