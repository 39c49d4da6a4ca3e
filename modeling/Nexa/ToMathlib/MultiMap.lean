import Mathlib.Data.Finmap

/-! # Maps to lists

A key that is not in the map has the empty list. `append` adds to the end of a list, and `prune`
removes elements from it and the key itself when its list becomes empty.
-/

namespace AList

open List AList

variable {κ ν : Type*} [DecidableEq κ] (map : AList fun _ : κ => ν) (key : κ)

theorem lookup_insert_eq_ite (other : κ) (value : ν) :
    (map.insert key value).lookup other = if other = key then some value else map.lookup other := by
  split_ifs with same
  · subst same
    exact lookup_insert map
  · exact lookup_insert_ne same

theorem lookup_erase_eq_ite (other : κ) :
    (map.erase key).lookup other = if other = key then none else map.lookup other := by
  split_ifs with same
  · subst same
    exact lookup_erase other map
  · exact lookup_erase_ne same

/-- Erases a list of keys. -/
def eraseAll (keys : List κ) : AList fun _ : κ => ν := keys.foldl (fun map key => map.erase key) map

theorem lookup_eraseAll (keys : List κ) (other : κ) :
    (map.eraseAll keys).lookup other = if other ∈ keys then none else map.lookup other := by
  induction keys generalizing map with
  | nil => rfl
  | cons key keys ih =>
    change ((map.erase key).eraseAll keys).lookup other = _
    rw [ih, lookup_erase_eq_ite]
    by_cases same : other = key <;> simp [same]

/-- Inserts a value unless the key is there. -/
def emplace (value : ν) : AList fun _ : κ => ν := if key ∈ map then map else map.insert key value

theorem lookup_emplace (other : κ) (value : ν) : (map.emplace key value).lookup other =
      if other = key ∧ map.lookup other = none then some value else map.lookup other := by
  rw [emplace]
  split_ifs with known absent absent
  · obtain ⟨rfl, absent⟩ := absent
    exact absurd known (lookup_eq_none.mp absent)
  · rfl
  · rw [absent.1, lookup_insert]
  · refine lookup_insert_ne fun same => absent ⟨same, ?_⟩
    rw [same, lookup_eq_none.mpr known]

theorem length_keys_insert_le (value : ν) : (map.insert key value).keys.length ≤ map.keys.length + 1 := by
  rw [keys_insert]
  exact Nat.succ_le_succ length_erase_le

variable {map key}

theorem erase_insert_of_notMem (fresh : key ∉ map) (value : ν) : (map.insert key value).erase key = map := by
  apply ext
  change kerase key (map.insert key value).entries = map.entries
  rw [entries_insert_of_notMem fresh]
  exact kerase_cons_eq rfl

theorem erase_of_notMem (absent : key ∉ map) : map.erase key = map := by
  apply ext
  exact kerase_of_notMem_keys absent

theorem length_keys_erase (member : key ∈ map) : (map.erase key).keys.length = map.keys.length - 1 := by
  rw [keys_erase, length_erase_of_mem member]

section

variable {σ γ : Type*} {step : σ → (Σ _ : κ, ν) → σ} (read : σ → γ)

omit [DecidableEq κ] in
theorem read_foldl_of_notMem (other : ∀ s entry, entry.1 ≠ key → read (step s entry) = read s)
    {entries : List (Σ _ : κ, ν)} (absent : key ∉ entries.keys) (s : σ) : read (entries.foldl step s) = read s := by
  induction entries generalizing s with
  | nil => rfl
  | cons entry rest ih =>
    rw [keys_cons, mem_cons, not_or] at absent
    rw [foldl_cons, ih absent.2, other s entry (Ne.symm absent.1)]

theorem read_foldl_entries (other : ∀ s entry, entry.1 ≠ key → read (step s entry) = read s) {update : ν → γ → γ}
    (own : ∀ s value, read (step s ⟨key, value⟩) = update value (read s)) (map : AList fun _ : κ => ν) (s : σ) :
    read (map.entries.foldl step s) = (map.lookup key).elim (read s) fun value => update value (read s) := by
  obtain ⟨entries, nodup⟩ := map
  change read (entries.foldl step s) = (entries.dlookup key).elim _ _
  induction entries generalizing s with
  | nil => rfl
  | cons entry rest ih =>
    obtain ⟨first, value⟩ := entry
    rw [nodupKeys_cons] at nodup
    rw [foldl_cons]
    by_cases same : first = key
    · subst same
      rw [dlookup_cons_eq, read_foldl_of_notMem read other nodup.1, own]
      rfl
    · rw [ih _ nodup.2, dlookup_cons_ne _ _ (Ne.symm same), other s _ same]

end

end AList

/-- A map from keys to lists of values. -/
abbrev MultiMap (κ α : Type*) := AList fun _ : κ => List α

namespace MultiMap

variable {κ α : Type*} [DecidableEq κ] (keep : α → Bool) (map : MultiMap κ α) (key : κ)

def values : List α := (AList.lookup key map).getD []

def append (more : List α) : MultiMap κ α := AList.insert key (values map key ++ more) map

def prune : MultiMap κ α := match AList.lookup key map with
  | none => map
  | some old => if old.filter keep = [] then AList.erase key map else AList.insert key (old.filter keep) map

@[simp] theorem values_empty : values (∅ : MultiMap κ α) key = [] := rfl

variable (other : κ)

theorem values_insert (list : List α) :
    values (AList.insert key list map) other = if other = key then list else values map other := by
  rw [values, AList.lookup_insert_eq_ite]
  split_ifs <;> rfl

theorem values_erase : values (AList.erase key map) other = if other = key then [] else values map other := by
  rw [values, AList.lookup_erase_eq_ite]
  split_ifs <;> rfl

theorem values_append (more : List α) :
    values (append map key more) other = values map other ++ if other = key then more else [] := by
  rw [append, values_insert]
  split_ifs with same
  · rw [same]
  · rw [List.append_nil]

theorem values_prune :
    values (prune keep map key) other = if other = key then (values map other).filter keep else values map other := by
  rw [prune]
  cases found : AList.lookup key map with
  | none =>
    split_ifs with same
    · rw [same, values, found]
      rfl
    · rfl
  | some old =>
    have known : values map key = old := by rw [values, found, Option.getD_some]
    by_cases nothing : old.filter keep = []
    · simp only [if_pos nothing, values_erase]
      split_ifs with same
      · rw [same, known, nothing]
      · rfl
    · simp only [if_neg nothing, values_insert]
      split_ifs with same
      · rw [same, known]
      · rfl

variable {a : α}

theorem mem_values_iff {key : κ} : a ∈ values map key ↔ ∃ entry ∈ map.entries, entry.1 = key ∧ a ∈ entry.2 := by
  rw [values]
  constructor
  · intro member
    cases found : AList.lookup key map with
    | none => simp [found] at member
    | some list =>
      rw [found] at member
      exact ⟨⟨key, list⟩, AList.mem_lookup_iff.mp found, rfl, member⟩
  · rintro ⟨⟨_, list⟩, listed, rfl, member⟩
    rwa [AList.mem_lookup_iff.mpr listed]

theorem mem_values_foldl_append {β : Type*} (key : β → κ) (list : β → List α) (items : List β) (map : MultiMap κ α)
    {other : κ} :
    a ∈ values (items.foldl (fun map item => append map (key item) (list item)) map) other ↔
      a ∈ values map other ∨ ∃ item ∈ items, key item = other ∧ a ∈ list item := by
  induction items generalizing map with
  | nil => simp
  | cons item items ih =>
    rw [List.foldl_cons, ih, values_append, List.mem_append, or_assoc]
    by_cases same : other = key item
    · simp [same]
    · simp [same, Ne.symm]

theorem values_foldl_prune (keys : List κ) (map : MultiMap κ α) (other : κ) :
    values (keys.foldl (prune keep) map) other =
      if other ∈ keys then (values map other).filter keep else values map other := by
  induction keys generalizing map with
  | nil => simp
  | cons key keys ih =>
    rw [List.foldl_cons, ih, values_prune]
    by_cases same : other = key
    · simp [same]
    · simp [same]

/-- No key has an empty list. -/
def Full : Prop := ∀ key, AList.lookup key map ≠ some []

variable {map}

theorem full_empty : Full (∅ : MultiMap κ α) := fun key found => by simp at found

theorem Full.append (full : Full map) (key : κ) {more : List α} (nonempty : more ≠ []) :
    Full (append map key more) := by
  intro other
  rw [MultiMap.append, AList.lookup_insert_eq_ite]
  split_ifs
  · simp [nonempty]
  · exact full other

theorem Full.prune (full : Full map) (keep : α → Bool) (key : κ) : Full (prune keep map key) := by
  intro other
  rw [MultiMap.prune]
  cases found : AList.lookup key map with
  | none => exact full other
  | some old =>
    by_cases nothing : old.filter keep = []
    · simp only [if_pos nothing, AList.lookup_erase_eq_ite]
      split_ifs
      · simp
      · exact full other
    · simp only [if_neg nothing, AList.lookup_insert_eq_ite]
      split_ifs
      · simpa using nothing
      · exact full other

theorem Full.foldl_prune (full : Full map) (keep : α → Bool) (keys : List κ) :
    Full (keys.foldl (MultiMap.prune keep) map) := by
  induction keys generalizing map with
  | nil => exact full
  | cons key keys ih => exact ih (full.prune keep key)

end MultiMap
