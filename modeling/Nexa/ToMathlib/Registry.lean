import Nexa.ToMathlib.MultiMap

/-! # Registries

A registry keeps values under keys. A value is a member of a group, which is entered as its owner, or
it is loose. Values that wait to be placed are neither. A group to which no owner entry leads is gone
and its members do not count.
-/

structure Registry (κ α γ : Type*) where
  all : AList fun _ : κ => α
  owner : AList fun _ : κ => γ
  members : γ → AList fun _ : κ => α
  loose : AList fun _ : κ => α

namespace Registry

open AList Option Function

variable {κ α γ : Type*} [DecidableEq κ]

/-- Some owner entry leads to the group. -/
def Live (registry : Registry κ α γ) (group : γ) : Prop := ∃ k, registry.owner.lookup k = some group

/-- Every value is a member of its owner, loose or waiting, and members and loose values are on the list of all.
A key that is just being linked may still be loose. -/
structure Accounted (key : α → κ) (waiting : Set α) (linking : Set κ) (registry : Registry κ α γ) : Prop where
  keyed : ∀ {k value}, registry.all.lookup k = some value → key value = k
  owned : ∀ {k group}, registry.owner.lookup k = some group →
    ∃ value, (registry.members group).lookup k = some value ∧ registry.all.lookup k = some value
  member : ∀ {k group value}, registry.Live group → (registry.members group).lookup k = some value →
    registry.owner.lookup k = some group
  loose : ∀ {k value}, registry.loose.lookup k = some value → registry.all.lookup k = some value
  apart : ∀ {k group value}, registry.loose.lookup k = some value → registry.owner.lookup k = some group → k ∈ linking
  covered : ∀ {k value}, registry.all.lookup k = some value → registry.owner.lookup k = none →
    registry.loose.lookup k = none → value ∈ waiting
  waits : ∀ {value}, value ∈ waiting → registry.all.lookup (key value) = some value
  waitsApart : ∀ {value}, value ∈ waiting → registry.owner.lookup (key value) = none
  linked : ∀ {k}, k ∈ linking → registry.owner.lookup k = none → registry.all.lookup k = none

/-! ## Operations -/

section

variable (registry : Registry κ α γ)

def enter (k : κ) (value : α) : Registry κ α γ := { registry with all := registry.all.insert k value }

/-- The value becomes loose. -/
def park (k : κ) (value : α) : Registry κ α γ :=
  { registry with owner := registry.owner.erase k, loose := registry.loose.emplace k value }

def unpark (k : κ) : Registry κ α γ := { registry with loose := registry.loose.erase k }

/-- Takes all loose values off their list. -/
def release : Registry κ α γ := { registry with loose := ∅ }

variable [DecidableEq γ]

/-- The value becomes a member of the group. -/
def enroll (k : κ) (group : γ) (value : α) : Registry κ α γ := { registry with
    owner := registry.owner.insert k group
    members := update registry.members group ((registry.members group).insert k value) }

/-- Takes keys out of a group and of all lists. -/
def expunge (group : γ) (keys : List κ) : Registry κ α γ where
  all := registry.all.eraseAll keys
  owner := registry.owner.eraseAll keys
  members := update registry.members group ((registry.members group).eraseAll keys)
  loose := registry.loose.eraseAll keys

theorem lookup_members_enroll (k other : κ) (group owner : γ) (value : α) :
    ((registry.enroll k group value).members owner).lookup other =
      if owner = group ∧ other = k then some value else (registry.members owner).lookup other := by
  rw [enroll]
  dsimp only
  by_cases same : owner = group
  · subst same
    rw [update_self, lookup_insert_eq_ite]
    simp
  · rw [update_of_ne same, if_neg fun both => same both.1]

theorem lookup_members_expunge (group owner : γ) (keys : List κ) (other : κ) :
    ((registry.expunge group keys).members owner).lookup other =
      if owner = group ∧ other ∈ keys then none else (registry.members owner).lookup other := by
  rw [expunge]
  dsimp only
  by_cases same : owner = group
  · subst same
    rw [update_self, lookup_eraseAll]
    simp
  · rw [update_of_ne same, if_neg fun both => same both.1]

end

/-! ## What the operations keep -/

namespace Accounted

section Lists

variable {key : α → κ} {waiting : Set α} {linking : Set κ} {registry : Registry κ α γ} {value : α} {k : κ}

theorem owner_eq_none (accounted : registry.Accounted key waiting linking) (absent : registry.all.lookup k = none) :
    registry.owner.lookup k = none := by
  refine eq_none_iff_forall_ne_some.mpr fun group found => ?_
  obtain ⟨value, -, read⟩ := accounted.owned found
  cases absent.symm.trans read

theorem enter (accounted : registry.Accounted key waiting ∅) (fresh : registry.all.lookup (key value) = none) :
    (registry.enter (key value) value).Accounted key (insert value waiting) ∅ := by
  have free := accounted.owner_eq_none fresh
  obtain ⟨keyed, owned, member, loose, apart, covered, waits, waitsApart, linked⟩ := accounted
  constructor <;> simp only [Registry.enter, Live, lookup_insert_eq_ite] at * <;> grind

section

variable (accounted : registry.Accounted key waiting linking)

include accounted

section

variable (known : registry.all.lookup (key value) = some value) (free : registry.owner.lookup (key value) = none)
include known free

theorem park : (registry.park (key value) value).Accounted key waiting linking := by
  obtain ⟨keyed, owned, member, loose, apart, covered, waits, waitsApart, linked⟩ := accounted
  constructor <;> simp only [Registry.park, Live, lookup_erase_eq_ite, lookup_emplace] at * <;> grind

theorem await : registry.Accounted key (insert value waiting) linking where
  __ := accounted
  covered read free unparked := .inr (accounted.covered read free unparked)
  waits := by
    rintro other (rfl | listed)
    · exact known
    · exact accounted.waits listed
  waitsApart := by
    rintro other (rfl | listed)
    · exact free
    · exact accounted.waitsApart listed

end

theorem settle (parked : registry.loose.lookup (key value) = some value) :
    registry.Accounted key (waiting \ {value}) linking where
  __ := accounted
  covered read free unparked := by
    refine ⟨accounted.covered read free unparked, ?_⟩
    rintro rfl
    cases (accounted.keyed read ▸ parked).symm.trans unparked
  waits listed := accounted.waits listed.1
  waitsApart listed := accounted.waitsApart listed.1

theorem unpark (placed : registry.owner.lookup k = none → registry.all.lookup k = none) :
    (registry.unpark k).Accounted key waiting (linking \ {k}) := by
  obtain ⟨keyed, owned, member, loose, apart, covered, waits, waitsApart, linked⟩ := accounted
  constructor <;> simp only [Registry.unpark, Live, lookup_erase_eq_ite] at * <;> grind

theorem link {group : γ} (owned : registry.owner.lookup k = some group) :
    registry.Accounted key waiting (insert k linking) where
  __ := accounted
  apart found owned := .inr (accounted.apart found owned)
  linked := by
    rintro k (rfl | listed) free
    · cases free.symm.trans owned
    · exact accounted.linked listed free

end

theorem release (accounted : registry.Accounted key ∅ ∅) :
    registry.release.Accounted key {value | registry.loose.lookup (key value) = some value} ∅ where
  __ := accounted
  loose found := by cases found
  apart found := by cases found
  covered {k value} read free _ := by
    cases found : registry.loose.lookup k with
    | none => exact absurd (accounted.covered read free found) (Set.notMem_empty value)
    | some other =>
      obtain rfl := some.inj ((accounted.loose found).symm.trans read)
      change registry.loose.lookup (key other) = some other
      rw [accounted.keyed read, found]
  waits found := accounted.loose found
  waitsApart {value} found := by
    refine eq_none_iff_forall_ne_some.mpr fun group owned => ?_
    exact Set.notMem_empty _ (accounted.apart found owned)
  linked listed := absurd listed (Set.notMem_empty _)

theorem thin {next : Registry κ α γ} {doomed : κ → Prop} [DecidablePred doomed]
    (accounted : registry.Accounted key waiting linking)
    (all : ∀ k, next.all.lookup k = if doomed k then none else registry.all.lookup k)
    (owner : ∀ k, next.owner.lookup k = if doomed k then none else registry.owner.lookup k)
    (loose : ∀ k, next.loose.lookup k = if doomed k then none else registry.loose.lookup k)
    (members : ∀ {k group}, registry.owner.lookup k = some group → ¬ doomed k → ∀ other,
      (next.members group).lookup other = if doomed other then none else (registry.members group).lookup other)
    (idle : ∀ value ∈ waiting, ¬ doomed (key value)) : next.Accounted key waiting linking := by
  refine ⟨fun {k value} read => ?_, fun {k group} found => ?_, fun {k group value} alive found => ?_,
    fun {k value} found => ?_, fun {k group value} found owned => ?_, fun {k value} read free unparked => ?_,
    fun {value} listed => ?_, fun {value} listed => ?_, fun {k} listed free => ?_⟩
  · rw [all] at read
    split_ifs at read
    exact accounted.keyed read
  · rw [owner] at found
    split_ifs at found with outside
    rw [members found outside, if_neg outside, all, if_neg outside]
    exact accounted.owned found
  · obtain ⟨first, alive⟩ := alive
    rw [owner] at alive
    split_ifs at alive with outside
    rw [members alive outside] at found
    split_ifs at found with kept
    rw [owner, if_neg kept, accounted.member ⟨first, alive⟩ found]
  · rw [loose] at found
    split_ifs at found with outside
    rw [all, if_neg outside, accounted.loose found]
  · rw [loose] at found
    rw [owner] at owned
    split_ifs at found owned
    exact accounted.apart found owned
  · rw [all] at read
    split_ifs at read with outside
    rw [owner, if_neg outside] at free
    rw [loose, if_neg outside] at unparked
    exact accounted.covered read free unparked
  · rw [all, if_neg (idle value listed), accounted.waits listed]
  · rw [owner, if_neg (idle value listed), accounted.waitsApart listed]
  · rw [owner] at free
    rw [all]
    split_ifs at free ⊢
    · rfl
    · exact accounted.linked listed free

theorem withMembers {members : γ → AList fun _ : κ => α} (accounted : registry.Accounted key waiting linking)
    (same : ∀ group, registry.Live group → members group = registry.members group) :
    ({ registry with members } : Registry κ α γ).Accounted key waiting linking where
  __ := accounted
  owned {k group} found := by
    change ∃ value, (members group).lookup k = some value ∧ _
    rw [same group ⟨k, found⟩]
    exact accounted.owned found
  member {k group value} alive found := by
    change (members group).lookup k = some value at found
    rw [same group alive] at found
    exact accounted.member alive found

end Lists

section Groups

variable [DecidableEq γ] {key : α → κ} {waiting : Set α} {linking : Set κ} {registry : Registry κ α γ} {value : α}
  {group : γ} (accounted : registry.Accounted key waiting linking)

include accounted

theorem enroll (known : registry.all.lookup (key value) = some value) (free : registry.owner.lookup (key value) = none)
    (mine : registry.Live group ∨ registry.members group = ∅) :
    (registry.enroll (key value) group value).Accounted key (waiting \ {value}) (insert (key value) linking) := by
  have owner (k : κ) : (registry.enroll (key value) group value).owner.lookup k =
      if k = key value then some group else registry.owner.lookup k := lookup_insert_eq_ite ..
  refine ⟨accounted.keyed, fun {k other} found => ?_, fun {k other member} alive found => ?_, accounted.loose,
    fun {k other member} found owned => ?_, fun {k member} read unowned unparked => ⟨?_, ?_⟩,
    fun listed => accounted.waits listed.1, fun {member} listed => ?_, fun {k} listed unowned => ?_⟩
  · rw [owner] at found
    split_ifs at found with same
    · obtain rfl := some.inj found
      exact ⟨value, by rw [lookup_members_enroll, if_pos ⟨rfl, same⟩], same ▸ known⟩
    · rw [lookup_members_enroll, if_neg fun both => same both.2]
      exact accounted.owned found
  · rw [lookup_members_enroll] at found
    rw [owner]
    split_ifs at found with both
    · rw [if_pos both.2, both.1]
    · have alive : registry.Live other := by
        obtain ⟨first, alive⟩ := alive
        rw [owner] at alive
        split_ifs at alive with same
        · obtain rfl := some.inj alive
          exact mine.resolve_right fun none => by simp [none] at found
        · exact ⟨first, alive⟩
      have owned := accounted.member alive found
      rw [if_neg, owned]
      rintro rfl
      cases free.symm.trans owned
  · rw [owner] at owned
    split_ifs at owned with same
    · exact .inl same
    · exact .inr (accounted.apart found owned)
  · rw [owner] at unowned
    split_ifs at unowned
    exact accounted.covered read unowned unparked
  · rintro rfl
    rw [owner, if_pos (accounted.keyed read).symm] at unowned
    cases unowned
  · rw [owner, if_neg]
    · exact accounted.waitsApart listed.1
    · intro same
      have read := accounted.waits listed.1
      rw [same, known] at read
      exact listed.2 (some.inj read).symm
  · rw [owner] at unowned
    split_ifs at unowned with same
    exact accounted.linked (listed.resolve_left same) unowned

theorem expunge {keys : List κ} (mine : ∀ k ∈ keys, ∀ owner, registry.owner.lookup k = some owner → owner = group)
    (idle : ∀ value ∈ waiting, key value ∉ keys) : (registry.expunge group keys).Accounted key waiting linking := by
  refine accounted.thin (lookup_eraseAll _ keys) (lookup_eraseAll _ keys) (lookup_eraseAll _ keys)
    (fun {k owner} owned _ other => ?_) idle
  rw [lookup_members_expunge]
  by_cases listed : other ∈ keys
  · split_ifs with both
    · rfl
    · refine eq_none_iff_forall_ne_some.mpr fun value found => both ⟨?_, listed⟩
      exact mine other listed owner (accounted.member ⟨k, owned⟩ found)
  · rw [if_neg listed, if_neg fun both => listed both.2]

end Groups

end Accounted

end Registry
