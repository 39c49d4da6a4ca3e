import Mathlib

/-! # Write-back caches over a partial map

A cache holds entries in front of a partial map. An entry overrides the map below it, also with
"no value", and carries two marks: dirty entries differ from the map below, fresh entries have no
value there. When the marks agree with the map below, clean entries may be dropped at any time and
fresh ones may be forgotten once they hold no value. Writing a dirty entry back moves it into the
map below without changing what a reader of the cache sees; once no entry is dirty, both maps agree.
-/

namespace WriteBack

open Function

variable {K V : Type*}

structure Entry (V : Type*) where
  value : Option V
  dirty : Bool
  fresh : Bool

/-- What a reader sees at one key: the entry if there is one, otherwise the map below. -/
def resolve (entry : Option (Entry V)) (below : Option V) : Option V := entry.elim below Entry.value

@[simp] theorem resolve_none (below : Option V) : resolve none below = below := rfl

@[simp] theorem resolve_some (entry : Entry V) (below : Option V) : resolve (some entry) below = entry.value := rfl

variable (cache : K → Option (Entry V)) (base : K → Option V)

/-- The map that a reader of the cache sees. -/
def overlay (key : K) : Option V := resolve (cache key) (base key)

/-- The marks of an entry agree with the value below it. -/
structure Entry.Agrees (entry : Entry V) (below : Option V) : Prop where
  clean : entry.dirty = false → entry.value = below
  fresh : entry.fresh = true → below = none

/-- The marks of every entry agree with the map below. -/
def Coherent : Prop := ∀ key entry, cache key = some entry → entry.Agrees (base key)

theorem Coherent.empty : Coherent (fun _ => none) base := nofun

section

variable [DecidableEq K] {cache : K → Option (Entry V)} {base : K → Option V} {key : K} {entry : Entry V}

theorem overlay_update (cache : K → Option (Entry V)) (base : K → Option V) (key : K) (new : Option (Entry V)) :
    overlay (update cache key new) base =
      update (overlay cache base) key (resolve new (base key)) := by
  funext other
  by_cases same : other = key
  · subst same
    simp [overlay]
  · simp [overlay, same]

variable {new : Option (Entry V)}

theorem overlay_update_eq_self (unseen : resolve new (base key) = overlay cache base key) :
    overlay (update cache key new) base = overlay cache base := by
  rw [overlay_update, unseen, update_eq_self]

theorem Coherent.update (coherent : Coherent cache base)
    (agrees : ∀ entry, new = some entry → entry.Agrees (base key)) :
    Coherent (update cache key new) base := by
  intro other entry found
  by_cases same : other = key
  · subst same
    rw [update_self] at found
    exact agrees entry found
  · rw [update_of_ne same] at found
    exact coherent other entry found

theorem Coherent.erase (coherent : Coherent cache base) (key : K) :
    Coherent (Function.update cache key none) base := coherent.update nofun

theorem Coherent.overlay_erase (coherent : Coherent cache base) (found : cache key = some entry)
    (clean : entry.dirty = false) : overlay (Function.update cache key none) base = overlay cache base := by
  apply overlay_update_eq_self
  rw [overlay, found, resolve_none, resolve_some, (coherent key entry found).clean clean]

end

section Flush

variable [DecidableEq K] {cache : K → Option (Entry V)} {base : K → Option V} {key : K} {entry : Entry V}

variable {new : Option (Entry V)}

theorem Coherent.writeBack (coherent : Coherent cache base) {value : Option V}
    (agrees : ∀ entry, new = some entry → entry.Agrees value) :
    Coherent (Function.update cache key new) (Function.update base key value) := by
  intro other entry found
  by_cases same : other = key
  · subst same
    rw [Function.update_self] at found ⊢
    exact agrees entry found
  · rw [update_of_ne same] at found ⊢
    exact coherent other entry found

/-- The invariant of a loop that writes a cache back: a reader still sees `shown`, and only the keys
that are pending may be dirty. -/
structure Flushing (shown : K → Option V) (pending : List K) (cache : K → Option (Entry V))
    (base : K → Option V) : Prop where
  overlay_eq : overlay cache base = shown
  coherent : Coherent cache base
  pending_of_dirty : ∀ key entry, cache key = some entry → entry.dirty = true → key ∈ pending

variable {shown : K → Option V} {pending : List K}

theorem Flushing.writeBack (flushing : Flushing shown (key :: pending) cache base) (found : cache key = some entry)
    (settled : ∀ left, new = some left → left.dirty = false ∧ left.Agrees entry.value) :
    Flushing shown pending (update cache key new) (update base key entry.value) := by
  have kept : resolve new entry.value = entry.value := by
    cases new with
    | none => rfl
    | some left => exact (settled left rfl).2.clean (settled left rfl).1
  refine ⟨?_, flushing.coherent.writeBack fun left is => (settled left is).2, ?_⟩
  · -- a reader of the cache does not see where the value is
    rw [← flushing.overlay_eq]
    funext other
    by_cases same : other = key
    · subst same
      simp [overlay, found, kept]
    · simp [overlay, same]
  · intro other left foundLeft dirty
    by_cases same : other = key
    · subst same
      rw [update_self] at foundLeft
      exact absurd dirty (by simp [(settled left foundLeft).1])
    · rw [update_of_ne same] at foundLeft
      exact (List.mem_cons.mp (flushing.pending_of_dirty other left foundLeft dirty)).resolve_left same

omit [DecidableEq K] in
theorem Flushing.skip (flushing : Flushing shown (key :: pending) cache base) (found : cache key = some entry)
    (clean : entry.dirty = false) : Flushing shown pending cache base := by
  refine ⟨flushing.overlay_eq, flushing.coherent, ?_⟩
  intro other left foundLeft dirty
  cases List.mem_cons.mp (flushing.pending_of_dirty other left foundLeft dirty) with
  | inl same =>
    subst same
    rw [found] at foundLeft
    cases foundLeft
    simp [clean] at dirty
  | inr remains => exact remains

/-- The outcome of a flush: the map below has become what the cache showed, and what is left in the
cache agrees with it. -/
structure Flushed (cache : K → Option (Entry V)) (base : K → Option V) (cache' : K → Option (Entry V))
    (base' : K → Option V) : Prop where
  base_eq : base' = overlay cache base
  coherent : Coherent cache' base'
  overlay_eq : overlay cache' base' = base'

omit [DecidableEq K] in
theorem Flushing.flushed {cache' : K → Option (Entry V)} {base' : K → Option V}
    (flushing : Flushing (overlay cache base) [] cache' base') : Flushed cache base cache' base' := by
  have clean : ∀ key entry, cache' key = some entry → entry.dirty = false := by
    intro key entry found
    apply Bool.eq_false_iff.mpr
    intro dirty
    exact List.not_mem_nil (flushing.pending_of_dirty key entry found dirty)
  have shows : overlay cache' base' = base' := by
    funext key
    rw [overlay]
    cases found : cache' key with
    | none => rfl
    | some entry => exact (flushing.coherent key entry found).clean (clean key entry found)
  exact ⟨shows.symm.trans flushing.overlay_eq, flushing.coherent, shows⟩

end Flush

section

/-- What becomes of the entry of a cache when a dirty entry of the cache above is written to it. -/
def absorb (parent : Option (Entry V)) (child : Entry V) : Option (Entry V) :=
  let dropped := parent.elim child.fresh Entry.fresh
  if dropped ∧ child.value = none then none else some ⟨child.value, true, dropped⟩

variable {parent : Option (Entry V)} {child : Entry V} {below : Option V}

section

variable (parentAgrees : ∀ entry, parent = some entry → entry.Agrees below)

include parentAgrees

section

variable (childAgrees : child.Agrees (resolve parent below))

include childAgrees

theorem dropped_below (dropped : parent.elim child.fresh Entry.fresh = true) : below = none := by
  cases parent with
  | none => exact childAgrees.fresh dropped
  | some entry => exact (parentAgrees entry rfl).fresh dropped

theorem resolve_absorb : resolve (absorb parent child) below = child.value := by
  rw [absorb]
  split_ifs with forgotten
  · rw [resolve_none, dropped_below parentAgrees childAgrees forgotten.1, forgotten.2]
  · rfl

theorem absorb_agrees (entry : Entry V) (absorbed : absorb parent child = some entry) : entry.Agrees below := by
  rw [absorb] at absorbed
  split_ifs at absorbed with forgotten
  cases absorbed
  exact ⟨nofun, dropped_below parentAgrees childAgrees⟩

end

end

end

end WriteBack
