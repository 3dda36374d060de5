import Mathlib.Algebra.Order.Group.Int
import Mathlib.Data.List.Basic

/-!
# Reading a log

The messages of a log carry growing offsets. A reader remembers the offset of the
last message that had an effect and can be resumed behind it at any time: the
messages it has passed since then have none.
-/

namespace ViabtcServer.Container

variable {α : Type} {offset : α → ℤ} {log passed pending : List α} {last : ℤ} {message : α}

/-- Offsets grow. -/
def Ordered (offset : α → ℤ) (log : List α) : Prop :=
  log.Pairwise fun one other => offset one < offset other

/-- The messages up to an offset. -/
def upTo (offset : α → ℤ) (log : List α) (last : ℤ) : List α :=
  log.filter fun message => offset message ≤ last

/-- The messages behind an offset. -/
def behind (offset : α → ℤ) (log : List α) (last : ℤ) : List α :=
  log.filter fun message => last < offset message

theorem upTo_append_behind (ordered : Ordered offset log) (last : ℤ) :
    upTo offset log last ++ behind offset log last = log := by
  induction log with
  | nil => rfl
  | cons message log ih =>
      rcases List.pairwise_cons.mp ordered with ⟨later, ordered⟩
      unfold upTo behind at ih ⊢
      rcases le_or_gt (offset message) last with old | new
      · rw [List.filter_cons_of_pos (by simpa using old),
          List.filter_cons_of_neg (by simpa using old), List.cons_append, ih ordered]
      · -- all that follows is behind the offset as well
        have none_ : log.filter (fun message => decide (offset message ≤ last)) = [] := by
          apply List.filter_eq_nil_iff.mpr
          intro other mem
          simpa using new.trans (later other mem)
        have all : log.filter (fun message => decide (last < offset message)) = log := by
          apply List.filter_eq_self.mpr
          intro other mem
          simpa using new.trans (later other mem)
        rw [List.filter_cons_of_neg (by simpa using new),
          List.filter_cons_of_pos (by simpa using new), none_, all]
        rfl

/-- Of what is behind one offset, what is behind a later one. -/
theorem behind_behind {first : ℤ} (le : first ≤ last) :
    behind offset (behind offset log first) last = behind offset log last := by
  unfold behind
  rw [List.filter_filter]
  apply List.filter_congr
  intro message _
  have both : last < offset message → first < offset message := le.trans_lt
  by_cases new : last < offset message
  · simp [new, both new]
  · simp [new]

theorem upTo_behind {first : ℤ} : upTo offset (behind offset log first) first = [] := by
  apply List.filter_eq_nil_iff.mpr
  intro message mem
  have new := (List.mem_filter.mp mem).2
  simpa using new

theorem Ordered.rest (ordered : Ordered offset log) (last : ℤ) :
    Ordered offset (behind offset log last) :=
  ordered.filter _

/-- A message has an effect: it is the last one now, and the reader waits for
what follows it. -/
theorem Ordered.advance (ordered : Ordered offset log)
    (waiting : behind offset log last = passed ++ message :: pending) :
    upTo offset log (offset message) = upTo offset log last ++ passed ++ [message] ∧
      behind offset log (offset message) = pending := by
  have whole : log = upTo offset log last ++ passed ++ [message] ++ pending := by
    conv_lhs => rw [← upTo_append_behind ordered last, waiting]
    simp
  clear waiting
  generalize upTo offset log last = old at whole ⊢
  subst whole
  rcases List.pairwise_append.mp ordered with ⟨front, _, across⟩
  rcases List.pairwise_append.mp front with ⟨_, _, before⟩
  have kept : ∀ other ∈ old ++ passed ++ [message], offset other ≤ offset message := by
    intro other mem
    rcases List.mem_append.mp mem with earlier | same
    · exact (before other earlier message (List.mem_singleton_self message)).le
    · rw [List.mem_singleton.mp same]
  have beyond : ∀ other ∈ pending, offset message < offset other := by
    intro other mem
    exact across message (List.mem_append_right _ (List.mem_singleton_self message)) other mem
  constructor
  · unfold upTo
    rw [List.filter_append, List.filter_eq_self.mpr (by simpa using kept),
      List.filter_eq_nil_iff.mpr (by simpa using beyond), List.append_nil]
  · unfold behind
    rw [List.filter_append, List.filter_eq_nil_iff.mpr (by simpa using kept),
      List.filter_eq_self.mpr (by simpa using beyond), List.nil_append]

/-- A message that follows does not change what there is up to an earlier offset. -/
theorem upTo_append_of_lt {rest : List α} (beyond : ∀ message ∈ rest, last < offset message) :
    upTo offset (log ++ rest) last = upTo offset log last := by
  unfold upTo
  have none_ : rest.filter (fun message => decide (offset message ≤ last)) = [] := by
    apply List.filter_eq_nil_iff.mpr
    intro other mem
    simpa using beyond other mem
  rw [List.filter_append, none_, List.append_nil]

/-- Up to one of its messages a log has what comes before it and the message. -/
theorem Ordered.upTo_self (ordered : Ordered offset (log ++ message :: pending)) :
    upTo offset (log ++ message :: pending) (offset message) = log ++ [message] := by
  rcases List.pairwise_append.mp ordered with ⟨_, rest, across⟩
  rw [List.append_cons, upTo_append_of_lt (List.pairwise_cons.mp rest).1]
  apply List.filter_eq_self.mpr
  intro other mem
  rcases List.mem_append.mp mem with earlier | same
  · simpa using (across other earlier message List.mem_cons_self).le
  · rw [List.mem_singleton.mp same]
    simp

/-- What is behind an offset, read from the end. -/
theorem Ordered.takeWhile_reverse (ordered : Ordered offset log) (last : ℤ) :
    log.reverse.takeWhile (fun message => decide (last < offset message)) =
      (behind offset log last).reverse := by
  conv_lhs => rw [← upTo_append_behind ordered last, List.reverse_append]
  rw [List.takeWhile_append_of_pos]
  · cases earlier : (upTo offset log last).reverse with
    | nil => rw [List.takeWhile_nil, List.append_nil]
    | cons message rest =>
        have mem : message ∈ upTo offset log last := by
          rw [← List.mem_reverse, earlier]
          exact List.mem_cons_self
        have old : ¬last < offset message := by
          simpa using (List.mem_filter.mp mem).2
        rw [List.takeWhile_cons, if_neg (by simpa using old), List.append_nil]
  · intro message mem
    exact (List.mem_filter.mp (List.mem_reverse.mp mem)).2

end ViabtcServer.Container
