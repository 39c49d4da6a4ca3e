import Mathlib
import Nexa.Model.Tailstorm.Dag

/-! # The descendants of a node

The walk of `OrderDag` over the children of a node visits each descendant once. It takes no more
rounds than there are links.
-/

namespace Nexa

open List

variable {children : CTreeNodeRef → List CTreeNodeRef}

/-- `child` is listed among the children of `node`. -/
def IsChild (children : CTreeNodeRef → List CTreeNodeRef) (node child : CTreeNodeRef) : Prop := child ∈ children node

/-- What the walk adds to the nodes it has found. -/
structure Visited (children : CTreeNodeRef → List CTreeNodeRef) (toVisit : List CTreeNodeRef)
    (seen : Finset CTreeNodeRef) (visited : List CTreeNodeRef) : Prop where
  nodup : visited.Nodup
  unseen : ∀ node ∈ visited, node ∉ seen
  covered : ∀ node ∈ toVisit, node ∈ seen ∨ node ∈ visited
  closed : ∀ node ∈ visited, ∀ child ∈ children node, child ∈ seen ∨ child ∈ visited
  reached : ∀ node ∈ visited, ∃ start ∈ toVisit, Relation.ReflTransGen (IsChild children) start node

variable {seen : Finset CTreeNodeRef} {node : CTreeNodeRef} {rounds : ℕ} {found : List CTreeNodeRef}

variable {toVisit visited : List CTreeNodeRef}

theorem Visited.cons_of_mem (rest : Visited children toVisit seen visited) (known : node ∈ seen) :
    Visited children (node :: toVisit) seen visited where
  nodup := rest.nodup
  unseen := rest.unseen
  covered := forall_mem_cons.mpr ⟨.inl known, rest.covered⟩
  closed := rest.closed
  reached := fun other listed =>
    let ⟨start, waits, path⟩ := rest.reached other listed
    ⟨start, mem_cons_of_mem _ waits, path⟩

theorem Visited.cons_of_notMem
    (rest : Visited children ((children node).reverse ++ toVisit) (insert node seen) visited) (fresh : node ∉ seen) :
    Visited children (node :: toVisit) seen (node :: visited) := by
  have included : ∀ {other}, other ∈ insert node seen ∨ other ∈ visited → other ∈ seen ∨ other ∈ node :: visited := by
    intro other
    rw [Finset.mem_insert, mem_cons]
    tauto
  refine ⟨?_, ?_, ?_, ?_, ?_⟩
  · exact nodup_cons.mpr ⟨fun listed => rest.unseen node listed (Finset.mem_insert_self _ _), rest.nodup⟩
  · exact forall_mem_cons.mpr ⟨fresh, fun other listed known =>
      rest.unseen other listed (Finset.mem_insert_of_mem known)⟩
  · exact forall_mem_cons.mpr ⟨.inr mem_cons_self, fun other waits =>
      included (rest.covered other (mem_append_right _ waits))⟩
  · refine forall_mem_cons.mpr ⟨fun child listed => ?_, fun other listed child linked =>
      included (rest.closed other listed child linked)⟩
    exact included (rest.covered child (mem_append_left _ (mem_reverse.mpr listed)))
  · refine forall_mem_cons.mpr ⟨⟨node, mem_cons_self, .refl⟩, fun other listed => ?_⟩
    obtain ⟨start, waits, path⟩ := rest.reached other listed
    rcases mem_append.mp waits with child | waits
    · exact ⟨node, mem_cons_self, .head (mem_reverse.mp child) path⟩
    · exact ⟨start, mem_cons_of_mem _ waits, path⟩

theorem descendantsLoop_eq_some {toVisit result : List CTreeNodeRef}
    (ended : descendantsLoop children rounds toVisit seen found = some result) :
    ∃ visited, result = found ++ visited ∧ Visited children toVisit seen visited := by
  induction rounds generalizing toVisit seen found with
  | zero => cases ended
  | succ rounds ih =>
    cases toVisit with
    | nil =>
      cases ended
      exact ⟨[], (append_nil _).symm, by constructor <;> simp⟩
    | cons node toVisit =>
      rw [descendantsLoop] at ended
      split_ifs at ended with known
      · obtain ⟨visited, rfl, rest⟩ := ih ended
        exact ⟨visited, rfl, rest.cons_of_mem known⟩
      · obtain ⟨visited, rfl, rest⟩ := ih ended
        exact ⟨node :: visited, (append_cons _ _ _).symm, rest.cons_of_notMem known⟩

theorem nodup_and_mem_of_descendantsLoop
    (ended : descendantsLoop children rounds (children node).reverse ∅ [] = some found) :
    found.Nodup ∧ ∀ descendant, descendant ∈ found ↔ Relation.TransGen (IsChild children) node descendant := by
  obtain ⟨visited, rfl, all⟩ := descendantsLoop_eq_some ended
  refine ⟨all.nodup, fun descendant => ⟨fun listed => ?_, fun path => ?_⟩⟩
  · obtain ⟨start, waits, path⟩ := all.reached descendant listed
    exact .head' (mem_reverse.mp waits) path
  · induction path with
    | single linked =>
      exact (all.covered _ (mem_reverse.mpr linked)).resolve_left (Finset.notMem_empty _)
    | tail _ linked ih => exact (all.closed _ ih _ linked).resolve_left (Finset.notMem_empty _)

theorem descendantsLoop_isSome {region : Finset CTreeNodeRef}
    (closed : ∀ node ∈ region, ∀ child ∈ children node, child ∈ region) {toVisit : List CTreeNodeRef}
    (inside : ∀ node ∈ toVisit, node ∈ region)
    (enough : toVisit.length + ∑ node ∈ region \ seen, (children node).length < rounds) :
    (descendantsLoop children rounds toVisit seen found).isSome := by
  induction rounds generalizing toVisit seen found with
  | zero => exact absurd enough (Nat.not_lt_zero _)
  | succ rounds ih =>
    cases toVisit with
    | nil => rfl
    | cons node toVisit =>
      obtain ⟨nodeInside, inside⟩ := forall_mem_cons.mp inside
      rw [length_cons] at enough
      rw [descendantsLoop]
      split_ifs with known
      · exact ih inside (by omega)
      · apply ih
        · rw [forall_mem_append]
          exact ⟨fun child listed => closed node nodeInside child (mem_reverse.mp listed), inside⟩
        · have split : ∑ other ∈ region \ seen, (children other).length =
              (children node).length + ∑ other ∈ region \ insert node seen, (children other).length := by
            rw [Finset.sdiff_insert]
            exact (Finset.add_sum_erase _ _ (Finset.mem_sdiff.mpr ⟨nodeInside, known⟩)).symm
          rw [length_append, length_reverse]
          omega

end Nexa
