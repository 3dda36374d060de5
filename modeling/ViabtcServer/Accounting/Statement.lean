import Mathlib.Algebra.BigOperators.Group.List.Basic

/-!
# Statements of account

A statement lists what is posted to an account, each time with the balance the
account has afterwards. It is sound when every balance is the one before it
plus what was posted; then the postings sum up to the movement of the account.
-/

namespace ViabtcServer.Accounting

/-- What is posted, and what the account holds after it. -/
structure Row (M : Type) where
  change : M
  balance : M

variable {M : Type} [AddMonoid M] {opening closing middle : M} {rows more : List (Row M)}

/-- Rows that lead from an opening to a closing balance. -/
def Statement : M → List (Row M) → M → Prop
  | opening, [], closing => opening = closing
  | opening, row :: rows, closing =>
      row.balance = opening + row.change ∧ Statement row.balance rows closing

@[simp]
theorem statement_nil : Statement opening [] closing ↔ opening = closing :=
  Iff.rfl

@[simp]
theorem statement_cons {row : Row M} : Statement opening (row :: rows) closing ↔
    row.balance = opening + row.change ∧ Statement row.balance rows closing :=
  Iff.rfl

theorem Statement.append (one : Statement opening rows middle)
    (two : Statement middle more closing) : Statement opening (rows ++ more) closing := by
  induction rows generalizing opening with
  | nil =>
      obtain rfl := one
      exact two
  | cons row rows ih => exact ⟨one.1, ih one.2⟩

/-- The postings make up the difference between opening and closing balance. -/
theorem Statement.sum (statement : Statement opening rows closing) :
    opening + (rows.map Row.change).sum = closing := by
  induction rows generalizing opening with
  | nil =>
      rw [List.map_nil, List.sum_nil, add_zero]
      exact statement
  | cons row rows ih =>
      rw [List.map_cons, List.sum_cons, ← add_assoc, ← statement.1]
      exact ih statement.2

/-- The balance of the last row, or the opening balance where there is none. -/
def lastBalance (opening : M) (rows : List (Row M)) : M :=
  (rows.getLast?.map Row.balance).getD opening

omit [AddMonoid M] in
theorem lastBalance_cons (row : Row M) : lastBalance opening (row :: rows) =
    lastBalance row.balance rows := by
  cases rows with
  | nil => rfl
  | cons next rows =>
      unfold lastBalance
      rw [List.getLast?_cons_cons, List.getLast?_cons]
      rfl

/-- A statement is sound when every row follows from the row before it and the
postings sum up to the closing balance. -/
theorem statement_iff : Statement opening rows closing ↔
    (∀ before row after, rows = before ++ row :: after →
      row.balance = lastBalance opening before + row.change) ∧
    opening + (rows.map Row.change).sum = closing := by
  constructor
  · intro statement
    constructor
    · induction rows generalizing opening with
      | nil =>
          intro before row after split
          simp at split
      | cons first rows ih =>
          intro before row after split
          cases before with
          | nil =>
              obtain ⟨rfl, rfl⟩ := List.cons.inj split
              exact statement.1
          | cons head before =>
              obtain ⟨rfl, rest⟩ := List.cons.inj split
              rw [lastBalance_cons]
              exact ih statement.2 before row after rest
    · exact statement.sum
  · rintro ⟨follows, sum⟩
    induction rows generalizing opening with
    | nil => simpa using sum
    | cons first rows ih =>
        have head : first.balance = opening + first.change := follows [] first rows rfl
        constructor
        · exact head
        · apply ih
          · intro before row after split
            have row_ := follows (first :: before) row after (congrArg (first :: ·) split)
            rwa [lastBalance_cons] at row_
          · rw [head, ← sum, List.map_cons, List.sum_cons, add_assoc]

end ViabtcServer.Accounting
