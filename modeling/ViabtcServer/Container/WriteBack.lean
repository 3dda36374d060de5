import Mathlib.Logic.Basic

/-!
# Write-back

Values are changed in memory and written to a store later. A key is settled while
it is marked as dirty or its value in memory is the one stored. As long as every
step keeps the settled keys settled, no change is forgotten.
-/

namespace ViabtcServer.Container

/-- What is known of each key: its value in memory, whether it is dirty, and what
is stored for it. -/
structure WriteBack (κ ν σ : Type) where
  memory : κ → Option ν
  dirty : κ → Prop
  stored : κ → Option σ

variable {κ ν σ : Type} {encode : ν → σ} {c c' c'' : WriteBack κ ν σ} {key : κ}

/-- What is stored is the value in memory, if there is one. -/
def WriteBack.Clean (encode : ν → σ) (c : WriteBack κ ν σ) (key : κ) : Prop :=
  ∀ val, c.memory key = some val → c.stored key = some (encode val)

/-- The key will be written, or need not be. -/
def WriteBack.Settled (encode : ν → σ) (c : WriteBack κ ν σ) (key : κ) : Prop :=
  c.dirty key ∨ c.Clean encode key

/-- Settled keys stay settled. -/
def WriteBack.Keeps (encode : ν → σ) (c c' : WriteBack κ ν σ) : Prop :=
  ∀ key, c.Settled encode key → c'.Settled encode key

theorem WriteBack.Keeps.refl (c : WriteBack κ ν σ) : c.Keeps encode c :=
  fun _ settled => settled

theorem WriteBack.Keeps.trans (one : c.Keeps encode c') (two : c'.Keeps encode c'') :
    c.Keeps encode c'' :=
  fun key settled => two key (one key settled)

/-- A settled key that is not dirty is clean. -/
theorem WriteBack.Settled.clean (settled : c.Settled encode key) (idle : ¬ c.dirty key) :
    c.Clean encode key :=
  settled.resolve_left idle

/-- One key is written, and its mark may go. -/
theorem WriteBack.Keeps.of_store (memory : c'.memory = c.memory) (clean : c'.Clean encode key)
    (dirty : ∀ other, other ≠ key → c.dirty other → c'.dirty other)
    (stored : ∀ other, other ≠ key → c'.stored other = c.stored other) : c.Keeps encode c' := by
  intro other settled
  by_cases same : other = key
  · subst same
    exact Or.inr clean
  · rcases settled with marked | written
    · exact Or.inl (dirty other same marked)
    · refine Or.inr fun val held => ?_
      rw [stored other same]
      rw [memory] at held
      exact written val held

/-- Values leave memory. -/
theorem WriteBack.Keeps.of_evict
    (memory : ∀ key, c'.memory key = none ∨ c'.memory key = c.memory key)
    (dirty : ∀ key, c.dirty key → c'.dirty key) (stored : c'.stored = c.stored) :
    c.Keeps encode c' := by
  intro key settled
  rcases settled with marked | written
  · exact Or.inl (dirty key marked)
  · refine Or.inr fun val held => ?_
    rcases memory key with gone | same
    · rw [gone] at held
      cases held
    · rw [stored]
      rw [same] at held
      exact written val held

/-- Values change, and their keys are marked. -/
theorem WriteBack.Keeps.of_change (changed : κ → Prop) (marked : ∀ key, changed key → c'.dirty key)
    (memory : ∀ key, ¬ changed key → c'.memory key = c.memory key)
    (dirty : ∀ key, c.dirty key → c'.dirty key) (stored : c'.stored = c.stored) :
    c.Keeps encode c' := by
  intro key settled
  by_cases new : changed key
  · exact Or.inl (marked key new)
  · rcases settled with old | written
    · exact Or.inl (dirty key old)
    · refine Or.inr fun val held => ?_
      rw [stored]
      rw [memory key new] at held
      exact written val held

end ViabtcServer.Container
