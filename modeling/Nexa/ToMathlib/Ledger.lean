import Mathlib

/-! # Ledgers

A ledger maps keys to the items that are outstanding under them. Entries are added and keys removed
one after the other; over lists of distinct keys the order is without effect, adding and removing
undo each other, and the weight of everything outstanding changes by the weights of the entries.
-/

namespace Ledger

open List Function

variable {κ ν M : Type*} [DecidableEq κ]

/-- Adds the entries of a list, in order. -/
def addAll (m : κ → Option ν) (entries : List (κ × ν)) : κ → Option ν :=
  entries.foldl (fun m entry => update m entry.1 (some entry.2)) m

/-- Removes the keys of a list. -/
def removeAll (m : κ → Option ν) (keys : List κ) : κ → Option ν :=
  keys.foldl (fun m key => update m key none) m

@[simp] theorem addAll_nil (m : κ → Option ν) : addAll m [] = m := rfl

@[simp] theorem removeAll_nil (m : κ → Option ν) : removeAll m [] = m := rfl

section

variable (m : κ → Option ν)

include m

theorem addAll_cons (key : κ) (item : ν) (entries : List (κ × ν)) :
    addAll m ((key, item) :: entries) = addAll (update m key (some item)) entries := rfl

theorem removeAll_cons (key : κ) (keys : List κ) :
    removeAll m (key :: keys) = removeAll (update m key none) keys := rfl

theorem addAll_append (first second : List (κ × ν)) :
    addAll m (first ++ second) = addAll (addAll m first) second := foldl_append

theorem removeAll_append (first second : List κ) :
    removeAll m (first ++ second) = removeAll (removeAll m first) second := foldl_append

theorem removeAll_apply (keys : List κ) (key : κ) : removeAll m keys key = if key ∈ keys then none else m key := by
  induction keys generalizing m with
  | nil => rfl
  | cons first rest ih =>
    rw [removeAll_cons, ih]
    by_cases same : key = first
    · simp [same]
    · simp [same]

end

variable {m : κ → Option ν} {entries : List (κ × ν)} {key : κ}

theorem addAll_apply_of_notMem (absent : key ∉ entries.map Prod.fst) : addAll m entries key = m key := by
  induction entries generalizing m with
  | nil => rfl
  | cons first rest ih =>
    rw [map_cons, mem_cons, not_or] at absent
    rw [addAll_cons, ih absent.2, update_of_ne absent.1]

theorem addAll_apply_of_mem (distinct : (entries.map Prod.fst).Nodup) {entry : κ × ν} (listed : entry ∈ entries) :
    addAll m entries entry.1 = some entry.2 := by
  induction entries generalizing m with
  | nil => cases listed
  | cons first rest ih =>
    rw [map_cons, nodup_cons] at distinct
    rw [addAll_cons]
    cases listed with
    | head => rw [addAll_apply_of_notMem distinct.1, update_self]
    | tail _ listed => exact ih distinct.2 listed

theorem mem_or_eq_of_addAll {item : ν} (outstanding : addAll m entries key = some item) :
    m key = some item ∨ (key, item) ∈ entries := by
  induction entries generalizing m with
  | nil => exact .inl outstanding
  | cons first rest ih =>
    rw [addAll_cons] at outstanding
    rcases ih outstanding with before | later
    · rw [update_apply] at before
      split_ifs at before with same
      · cases before
        exact .inr (same ▸ mem_cons_self)
      · exact .inl before
    · exact .inr (mem_cons_of_mem _ later)

theorem mem_of_addAll_isSome (outstanding : (addAll m entries key).isSome) :
    (m key).isSome ∨ key ∈ entries.map Prod.fst := by
  obtain ⟨item, found⟩ := Option.isSome_iff_exists.mp outstanding
  rcases mem_or_eq_of_addAll found with before | added
  · exact .inl (Option.isSome_of_eq_some before)
  · exact .inr (mem_map_of_mem added)

/-! ## New entries and outstanding ones -/

/-- The entries have distinct keys, under which nothing is outstanding. -/
structure Fresh (m : κ → Option ν) (entries : List (κ × ν)) : Prop where
  distinct : (entries.map Prod.fst).Nodup
  free : ∀ key ∈ entries.map Prod.fst, m key = none

/-- The entries have distinct keys, under which they are outstanding. -/
structure Outstanding (m : κ → Option ν) (entries : List (κ × ν)) : Prop where
  distinct : (entries.map Prod.fst).Nodup
  found : ∀ entry ∈ entries, m entry.1 = some entry.2

variable {item : ν} {later : List (κ × ν)}

theorem Fresh.cons (fresh : Fresh m ((key, item) :: entries)) :
    m key = none ∧ Fresh (update m key (some item)) entries := by
  obtain ⟨distinct, free⟩ := fresh
  rw [map_cons, nodup_cons] at distinct
  rw [map_cons, forall_mem_cons] at free
  refine ⟨free.1, distinct.2, fun other listed => ?_⟩
  rw [update_of_ne (ne_of_mem_of_not_mem listed distinct.1)]
  exact free.2 other listed

theorem Fresh.append (fresh : Fresh m (entries ++ later)) : Fresh m entries ∧ Fresh (addAll m entries) later := by
  obtain ⟨distinct, free⟩ := fresh
  rw [map_append, nodup_append'] at distinct
  rw [map_append, forall_mem_append] at free
  refine ⟨⟨distinct.1, free.1⟩, distinct.2.1, fun other listed => ?_⟩
  rw [addAll_apply_of_notMem fun early => distinct.2.2 early listed]
  exact free.2 other listed

theorem Outstanding.cons (outstanding : Outstanding m ((key, item) :: entries)) :
    m key = some item ∧ Outstanding (update m key none) entries := by
  obtain ⟨distinct, found⟩ := outstanding
  rw [map_cons, nodup_cons] at distinct
  rw [forall_mem_cons] at found
  refine ⟨found.1, distinct.2, fun entry listed => ?_⟩
  rw [update_of_ne (ne_of_mem_of_not_mem (mem_map_of_mem listed) distinct.1)]
  exact found.2 entry listed

theorem Outstanding.append (outstanding : Outstanding m (entries ++ later)) :
    Outstanding m entries ∧ Outstanding (removeAll m (entries.map Prod.fst)) later := by
  obtain ⟨distinct, found⟩ := outstanding
  rw [map_append, nodup_append'] at distinct
  rw [forall_mem_append] at found
  refine ⟨⟨distinct.1, found.1⟩, distinct.2.1, fun entry listed => ?_⟩
  rw [removeAll_apply, if_neg fun removed => distinct.2.2 removed (mem_map_of_mem listed)]
  exact found.2 entry listed

theorem Fresh.outstanding (fresh : Fresh m entries) : Outstanding (addAll m entries) entries :=
  ⟨fresh.distinct, fun _ => addAll_apply_of_mem fresh.distinct⟩

theorem Fresh.removeAll_addAll (fresh : Fresh m entries) : removeAll (addAll m entries) (entries.map Prod.fst) = m := by
  funext key
  rw [removeAll_apply]
  split_ifs with listed
  · exact (fresh.free key listed).symm
  · exact addAll_apply_of_notMem listed

theorem Outstanding.addAll_removeAll {keys : List κ} (outstanding : Outstanding m entries)
    (covered : ∀ key ∈ keys, key ∈ entries.map Prod.fst) :
    addAll (removeAll m keys) entries = m := by
  funext key
  by_cases listed : key ∈ entries.map Prod.fst
  · obtain ⟨entry, member, rfl⟩ := mem_map.mp listed
    rw [addAll_apply_of_mem outstanding.distinct member, outstanding.found entry member]
  · rw [addAll_apply_of_notMem listed, removeAll_apply, if_neg fun removed => listed (covered key removed)]

/-! ## Weights -/

section

variable [Fintype κ] [AddCommGroup M] (weight : ν → M)

/-- The weight under a key, none where nothing is outstanding. -/
def weightAt (m : κ → Option ν) (key : κ) : M := (m key).elim 0 weight

/-- The weight of everything that is outstanding. -/
def total (m : κ → Option ν) : M := ∑ key, weightAt weight m key

theorem total_update (m : κ → Option ν) (key : κ) (item : Option ν) :
    total weight (update m key item) = total weight m - weightAt weight m key + item.elim 0 weight := by
  have others : ∑ other ∈ Finset.univ.erase key, weightAt weight (update m key item) other =
      ∑ other ∈ Finset.univ.erase key, weightAt weight m other := by
    apply Finset.sum_congr rfl
    intro other member
    rw [weightAt, update_of_ne (Finset.ne_of_mem_erase member), weightAt]
  rw [total, ← Finset.add_sum_erase _ _ (Finset.mem_univ key), others, total,
    ← Finset.add_sum_erase _ _ (Finset.mem_univ key), weightAt, update_self]
  abel

theorem total_addAll {m : κ → Option ν} {entries : List (κ × ν)} (fresh : Fresh m entries) :
    total weight (addAll m entries) = total weight m + (entries.map fun entry => weight entry.2).sum := by
  induction entries generalizing m with
  | nil => simp
  | cons first rest ih =>
    obtain ⟨free, restFresh⟩ := fresh.cons
    rw [addAll_cons, ih restFresh, total_update, weightAt, free, map_cons, sum_cons]
    simp only [Option.elim_none, Option.elim_some]
    abel

theorem total_removeAll {m : κ → Option ν} {keys : List κ} (distinct : keys.Nodup) :
    total weight (removeAll m keys) = total weight m - (keys.map (weightAt weight m)).sum := by
  induction keys generalizing m with
  | nil => simp
  | cons first rest ih =>
    rw [nodup_cons] at distinct
    have same : rest.map (weightAt weight (update m first none)) = rest.map (weightAt weight m) := by
      apply map_congr_left
      intro key listed
      rw [weightAt, update_of_ne (ne_of_mem_of_not_mem listed distinct.1), weightAt]
    rw [removeAll_cons, ih distinct.2, same, total_update, map_cons, sum_cons]
    simp only [Option.elim_none]
    abel

end

/-! ## Runs -/

/-- Entries that are added to a ledger and keys that are removed afterwards. -/
structure Update (κ ν : Type*) where
  entries : List (κ × ν)
  removed : List κ

namespace Update

def keys (update : Update κ ν) : List κ := update.entries.map Prod.fst

def apply (update : Update κ ν) (m : κ → Option ν) : κ → Option ν := removeAll (addAll m update.entries) update.removed

/-- The keys of the entries are new, and what is removed is there. -/
structure Valid (update : Update κ ν) (m : κ → Option ν) : Prop extends Fresh m update.entries where
  removedOnce : update.removed.Nodup
  outstanding : ∀ key ∈ update.removed, (addAll m update.entries key).isSome

theorem mem_of_apply_isSome {update : Update κ ν} {m : κ → Option ν} {key : κ}
    (left : (update.apply m key).isSome) : ((m key).isSome ∨ key ∈ update.keys) ∧ key ∉ update.removed := by
  rw [apply, removeAll_apply] at left
  split_ifs at left with removed
  · cases left
  · exact ⟨mem_of_addAll_isSome left, removed⟩

end Update

/-- Updates that are valid one after the other. -/
inductive Run : (κ → Option ν) → List (Update κ ν) → (κ → Option ν) → Prop where
  | nil (m : κ → Option ν) : Run m [] m
  | cons {m last : κ → Option ν} {update : Update κ ν} {rest : List (Update κ ν)} (valid : update.Valid m)
      (run : Run (update.apply m) rest last) : Run m (update :: rest) last

variable {last : κ → Option ν} {updates : List (Update κ ν)}

theorem Run.mem_of_removed (run : Run m updates last)
    (removed : key ∈ updates.flatMap Update.removed) : (m key).isSome ∨ key ∈ updates.flatMap Update.keys := by
  induction run with
  | nil m => cases removed
  | cons valid run ih =>
    rw [flatMap_cons, mem_append] at removed ⊢
    rw [← or_assoc]
    rcases removed with now | later
    · exact .inl (mem_of_addAll_isSome (valid.outstanding key now))
    · rcases ih later with left | added
      · exact .inl (Update.mem_of_apply_isSome left).1
      · exact .inr added

theorem Run.removed_nodup (run : Run m updates last) {earlier : List κ} (known : ∀ key, (m key).isSome → key ∈ earlier)
    (addedOnce : (earlier ++ updates.flatMap Update.keys).Nodup) : (updates.flatMap Update.removed).Nodup := by
  induction run generalizing earlier with
  | nil m => exact nodup_nil
  | @cons m last update rest valid run ih =>
    rw [flatMap_cons, ← append_assoc] at addedOnce
    have knownNow : ∀ key, (m key).isSome ∨ key ∈ update.keys → key ∈ earlier ++ update.keys := by
      rintro key (before | added)
      · exact mem_append_left _ (known key before)
      · exact mem_append_right _ added
    have later := ih (fun key left => knownNow key (Update.mem_of_apply_isSome left).1) addedOnce
    rw [flatMap_cons, nodup_append']
    refine ⟨valid.removedOnce, later, ?_⟩
    intro key now again
    -- a key that is removed again would have been added again
    rcases run.mem_of_removed again with left | added
    · exact (Update.mem_of_apply_isSome left).2 now
    · have before := knownNow key (mem_of_addAll_isSome (valid.outstanding key now))
      exact (nodup_append'.mp addedOnce).2.2 before added

omit [DecidableEq κ] in
theorem index_eq_of_mem_flatMap {α : Type*} {f : α → List κ} {l : List α} (distinct : (l.flatMap f).Nodup) {n m : ℕ}
    {x y : α} (atN : l[n]? = some x) (atM : l[m]? = some y) (inX : key ∈ f x) (inY : key ∈ f y) : n = m := by
  have disjoint := pairwise_iff_getElem.mp (nodup_flatMap.mp distinct).2
  obtain ⟨nBound, rfl⟩ := List.getElem?_eq_some_iff.mp atN
  obtain ⟨mBound, rfl⟩ := List.getElem?_eq_some_iff.mp atM
  rcases Nat.lt_trichotomy n m with before | same | after
  · exact (disjoint n m nBound mBound before inX inY).elim
  · exact same
  · exact (disjoint m n mBound nBound after inY inX).elim

end Ledger
