import Mathlib.Data.List.AList
import Mathlib.Algebra.BigOperators.Group.List.Basic
import Mathlib.Algebra.Group.Basic

/-!
# Dictionaries

What the calls of `ut_dict` answer: a finite map, as an association list with
distinct keys. The order of the entries stands for the order in which
`dict_next` happens to return them; no lemma depends on it.
-/

namespace ViabtcServer.Container

universe u v w

/-- The contents of a `dict_t`. -/
abbrev Dict (κ : Type u) (ν : Type v) : Type (max u v) :=
  AList fun _ : κ => ν

variable {κ : Type u} {ν : Type v} [DecidableEq κ]

def dictFind (dict : Dict κ ν) (key : κ) : Option ν :=
  dict.lookup key

/-- `dict_add`; `none` is the `NULL` of a key already present. -/
def dictAdd (dict : Dict κ ν) (key : κ) (val : ν) : Option (Dict κ ν) :=
  match dictFind dict key with
  | some _ => none
  | none => some (dict.insert key val)

def dictReplace (dict : Dict κ ν) (key : κ) (val : ν) : Dict κ ν :=
  dict.insert key val

def dictDelete (dict : Dict κ ν) (key : κ) : Dict κ ν :=
  dict.erase key

variable {dict : Dict κ ν} {key other : κ} {val : ν}

@[simp]
theorem dictFind_empty : dictFind (∅ : Dict κ ν) key = none :=
  AList.lookup_empty key

@[simp]
theorem dictFind_replace : dictFind (dictReplace dict key val) key = some val :=
  AList.lookup_insert dict

theorem dictFind_replace_ne (differ : other ≠ key) :
    dictFind (dictReplace dict key val) other = dictFind dict other :=
  AList.lookup_insert_ne differ

@[simp]
theorem dictFind_delete : dictFind (dictDelete dict key) key = none :=
  AList.lookup_erase key dict

theorem dictFind_delete_ne (differ : other ≠ key) :
    dictFind (dictDelete dict key) other = dictFind dict other :=
  AList.lookup_erase_ne differ

theorem dictAdd_of_fresh (fresh : dictFind dict key = none) :
    dictAdd dict key val = some (dictReplace dict key val) := by
  simp [dictAdd, dictReplace, fresh]

theorem dictAdd_of_present (present : dictFind dict key = some val) (val' : ν) :
    dictAdd dict key val' = none := by
  simp [dictAdd, present]

theorem mem_entries_iff {entry : Sigma fun _ : κ => ν} :
    entry ∈ dict.entries ↔ dictFind dict entry.1 = some entry.2 :=
  AList.mem_lookup_iff.symm

/-! ## Filling a dictionary -/

section Fill

variable {μ : Type w}

/-- The entry `f` makes of another, unless its key is there. -/
def dictFill (f : κ → ν → Option μ) (filled : Dict κ μ) (entry : Sigma fun _ : κ => ν) :
    Dict κ μ :=
  match f entry.1 entry.2 with
  | none => filled
  | some val => (dictAdd filled entry.1 val).getD filled

theorem dictFind_fill {f : κ → ν → Option μ} {filled : Dict κ μ} {entry : Sigma fun _ : κ => ν}
    (fresh : dictFind filled entry.1 = none) (key : κ) :
    dictFind (dictFill f filled entry) key =
      if key = entry.1 then f entry.1 entry.2 else dictFind filled key := by
  unfold dictFill
  cases f entry.1 entry.2 with
  | none =>
      simp only
      by_cases same : key = entry.1
      · rw [if_pos same, same, fresh]
      · rw [if_neg same]
  | some val =>
      simp only
      rw [dictAdd_of_fresh fresh, Option.getD_some]
      by_cases same : key = entry.1
      · rw [if_pos same, same, dictFind_replace]
      · rw [if_neg same, dictFind_replace_ne same]

/-- Filling from all entries: each answer is what `f` makes of the one before. -/
theorem dictFind_foldl_fill (f : κ → ν → Option μ) (dict : Dict κ ν) (key : κ) :
    dictFind (dict.entries.foldl (dictFill f) ∅) key = (dictFind dict key).bind (f key) := by
  have loop (entries : List (Sigma fun _ : κ => ν)) : ∀ filled : Dict κ μ, entries.NodupKeys →
      (∀ entry ∈ entries, dictFind filled entry.1 = none) →
      dictFind (entries.foldl (dictFill f) filled) key =
        (dictFind filled key).or ((entries.dlookup key).bind (f key)) := by
    induction entries with
    | nil =>
        intro filled _ _
        simp
    | cons entry entries ih =>
        intro filled nodup fresh
        rcases List.nodupKeys_cons.mp nodup with ⟨absent, nodup⟩
        have own := fresh entry List.mem_cons_self
        have next : ∀ other ∈ entries, dictFind (dictFill f filled entry) other.1 = none := by
          intro other mem
          rw [dictFind_fill own, if_neg]
          · exact fresh other (List.mem_cons_of_mem _ mem)
          · intro same
            exact absent (same ▸ List.mem_keys_of_mem mem)
        rw [List.foldl_cons, ih _ nodup next, dictFind_fill own]
        by_cases same : key = entry.1
        · rcases entry with ⟨first, val⟩
          subst same
          have gone : entries.dlookup key = none := List.dlookup_eq_none.mpr absent
          rw [if_pos rfl, own, gone, List.dlookup_cons_eq, Option.bind_none, Option.or_none,
            Option.none_or]
          rfl
        · rw [if_neg same, List.dlookup_cons_ne _ _ same]
  rw [loop dict.entries ∅ dict.nodupKeys fun _ _ => dictFind_empty, dictFind_empty, Option.none_or]
  rfl

end Fill
/-! ## Sums over the entries -/

section Sum

variable {M : Type w} [AddCommMonoid M]

/-- The sum of `f` over the entries. -/
def dictSum (f : κ → ν → M) (dict : Dict κ ν) : M :=
  (dict.entries.map fun entry => f entry.1 entry.2).sum

omit [DecidableEq κ] in
@[simp]
theorem dictSum_empty (f : κ → ν → M) : dictSum f (∅ : Dict κ ν) = 0 := rfl

/-- Taking one entry out of a sum. -/
theorem dictSum_delete (f : κ → ν → M) (present : dictFind dict key = some val) :
    dictSum f dict = f key val + dictSum f (dictDelete dict key) := by
  have mem : (⟨key, val⟩ : Sigma fun _ : κ => ν) ∈ dict.entries := mem_entries_iff.mpr present
  obtain ⟨val', before, after, _, entries, erased⟩ :=
    List.exists_of_kerase (List.mem_keys_of_mem mem)
  have mem' : (⟨key, val'⟩ : Sigma fun _ : κ => ν) ∈ dict.entries := by rw [entries]; simp
  have found : dictFind dict key = some val' := mem_entries_iff.mp mem'
  obtain rfl : val = val' := Option.some.inj (present.symm.trans found)
  have remaining : (dictDelete dict key).entries = before ++ after := erased
  simp only [dictSum, remaining, entries, List.map_append, List.map_cons, List.sum_append,
    List.sum_cons]
  exact add_left_comm _ _ _

theorem dictDelete_of_absent (absent : dictFind dict key = none) :
    dictDelete dict key = dict := by
  apply AList.ext
  exact List.kerase_of_notMem_keys (AList.lookup_eq_none.mp absent)

theorem dictSum_replace (f : κ → ν → M) :
    dictSum f (dictReplace dict key val) = f key val + dictSum f (dictDelete dict key) := by
  simp only [dictSum, dictReplace, AList.entries_insert, List.map_cons, List.sum_cons]
  rfl

/-- Dictionaries with equal answers have equal sums. -/
theorem dictSum_congr (f : κ → ν → M) {dict' : Dict κ ν}
    (same : ∀ key, dictFind dict key = dictFind dict' key) : dictSum f dict = dictSum f dict' := by
  have perm : dict.entries.Perm dict'.entries := by
    refine (List.perm_ext_iff_of_nodup dict.nodupKeys.nodup dict'.nodupKeys.nodup).mpr ?_
    intro entry
    rw [mem_entries_iff, mem_entries_iff, same]
  exact (perm.map _).sum_eq

/-- A sum over the keys. -/
theorem dictSum_keys (f : κ → ν → M) :
    dictSum f dict = (dict.keys.map fun key => ((dictFind dict key).map (f key)).getD 0).sum := by
  unfold dictSum AList.keys List.keys
  rw [List.map_map]
  refine congrArg List.sum (List.map_congr_left fun entry member => ?_)
  rw [Function.comp_apply, mem_entries_iff.mp member]
  rfl

/-- Terms may be equal though the values are not. -/
theorem dictSum_congr_terms {μ : Type v} (f : κ → ν → M) (g : κ → μ → M) {dict' : Dict κ μ}
    (same : ∀ key, (dictFind dict key).map (f key) = (dictFind dict' key).map (g key)) :
    dictSum f dict = dictSum g dict' := by
  have keys : dict.keys.Perm dict'.keys := by
    refine (List.perm_ext_iff_of_nodup dict.keys_nodup dict'.keys_nodup).mpr fun key => ?_
    have some_ := congrArg Option.isSome (same key)
    rw [Option.isSome_map, Option.isSome_map, Bool.eq_iff_iff] at some_
    rw [← AList.mem_keys, ← AList.mem_keys, ← AList.lookup_isSome, ← AList.lookup_isSome]
    exact some_
  rw [dictSum_keys, dictSum_keys, (keys.map _).sum_eq]
  refine congrArg List.sum (List.map_congr_left fun key _ => ?_)
  rw [same]

end Sum

end ViabtcServer.Container
