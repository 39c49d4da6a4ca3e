import Mathlib

/-! # Lists laid over each other

`overlay upper lower` keeps `upper` and shows of `lower` only what stands behind its end. Laying more
than two lists over each other needs no brackets. `suffixOverlays tail lists` lays each list over all
that follow it and over `tail`.
-/

namespace List

variable {α : Type*} (upper lower : List α)

def overlay : List α := upper ++ lower.drop upper.length

@[simp] theorem nil_overlay (lower : List α) : overlay [] lower = lower := rfl

@[simp] theorem overlay_nil (upper : List α) : overlay upper [] = upper := by
  simp [overlay]

@[simp] theorem length_overlay : (overlay upper lower).length = max upper.length lower.length := by
  rw [overlay, length_append, length_drop]
  omega

theorem overlay_assoc (a b c : List α) : overlay (overlay a b) c = overlay a (overlay b c) := by
  unfold overlay
  rw [drop_append, length_append, length_drop, drop_drop, append_assoc]
  congr 3
  omega

theorem overlay_append_singleton (a : α) : overlay upper (lower ++ [a]) =
      if upper.length ≤ lower.length then overlay upper lower ++ [a] else overlay upper lower := by
  split_ifs with short
  · rw [overlay, drop_append_of_le_length short, ← append_assoc, overlay]
  · have hidden : (lower ++ [a]).length ≤ upper.length := by
      rw [length_append, length_singleton]
      omega
    rw [overlay, overlay, drop_of_length_le hidden, drop_of_length_le (by omega)]

theorem overlay_self_append (upper more : List α) : overlay upper (upper ++ more) = upper ++ more := by
  rw [overlay, drop_left]

theorem map_overlay {β : Type*} (f : α → β) (upper lower : List α) :
    (overlay upper lower).map f = overlay (upper.map f) (lower.map f) := by
  rw [overlay, overlay, map_append, map_drop, length_map]

def suffixOverlays (tail : List α) : List (List α) → List (List α)
  | [] => []
  | list :: lists => overlay list (lists.foldr overlay tail) :: suffixOverlays tail lists

variable (tail : List α) (lists : List (List α))

theorem length_suffixOverlays : (suffixOverlays tail lists).length = lists.length := by
  induction lists with
  | nil => rfl
  | cons list lists ih => rw [suffixOverlays, length_cons, ih, length_cons]

theorem suffixOverlays_append (lists others : List (List α)) : suffixOverlays tail (lists ++ others) =
      suffixOverlays (others.foldr overlay tail) lists ++ suffixOverlays tail others := by
  induction lists with
  | nil => rfl
  | cons list lists ih => rw [cons_append, suffixOverlays, suffixOverlays, foldr_append, ih, cons_append]

theorem suffixOverlays_extend (last more : List α) :
    suffixOverlays tail (lists ++ [last ++ more]) = suffixOverlays (overlay (last ++ more) tail) (lists ++ [last]) := by
  have absorbed : overlay last (overlay (last ++ more) tail) = overlay (last ++ more) tail := by
    rw [← overlay_assoc, overlay_self_append]
  rw [suffixOverlays_append, suffixOverlays_append]
  simp [suffixOverlays, absorbed]

theorem foldr_overlay_eq_of_suffixOverlays {tail first : List α} {lists overlays : List (List α)}
    (shown : suffixOverlays tail lists = first :: overlays) : lists.foldr overlay tail = first := by
  cases lists with
  | nil => cases shown
  | cons list lists => exact (cons.inj shown).1

theorem length_eq_of_suffixOverlays {tail : List α} {more : ℕ} (positive : 0 < more) {lists : List (List α)}
    {bounds : List ℕ} (short : Forall₂ (fun list bound => list.length ≤ bound) lists bounds)
    (lengths : (suffixOverlays tail lists).map length = bounds.map (· + more)) :
    (lists.foldr overlay tail).length = tail.length ∧ ∀ bound ∈ bounds, bound + more = tail.length := by
  induction short with
  | nil => simp
  | @cons list bound lists bounds shorter short ih =>
    obtain ⟨first, rest⟩ := cons.inj lengths
    obtain ⟨level, others⟩ := ih rest
    have reached : max list.length tail.length = bound + more := by
      rw [← level, ← length_overlay]
      exact first
    refine ⟨?_, forall_mem_cons.mpr ⟨by omega, others⟩⟩
    rw [foldr_cons, length_overlay]
    omega

end List
