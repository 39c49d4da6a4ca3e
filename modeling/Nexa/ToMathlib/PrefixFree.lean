import Mathlib.Data.List.Basic

/-! # Writers whose output can be split off the front

A writer is prefix free on the values that satisfy `good` when what it wrote, and where it ended, can
be told from any longer list. Writers of one length are; a list of values written one after the other
can then be told from its stream.
-/

namespace List

variable {α β γ : Type*}

def PrefixFree (good : α → Prop) (write : α → List β) : Prop :=
  ∀ a b rest rest', good a → good b → write a ++ rest = write b ++ rest' → a = b ∧ rest = rest'

theorem prefixFree_of_length {write : α → List β} (length : ℕ) (sameLength : ∀ a, (write a).length = length)
    (injective : Function.Injective write) (good : α → Prop) : PrefixFree good write := by
  intro a b rest rest' _ _ same
  obtain ⟨heads, tails⟩ := append_inj same (by rw [sameLength, sameLength])
  exact ⟨injective heads, tails⟩

theorem PrefixFree.eq_of_flatMap_eq {good : α → Prop} {write : α → List β} (free : PrefixFree good write)
    (nonempty : ∀ a, write a ≠ []) {values others : List α} (goods : ∀ a ∈ values, good a)
    (otherGoods : ∀ a ∈ others, good a) (same : values.flatMap write = others.flatMap write) : values = others := by
  induction values generalizing others with
  | nil =>
    cases others with
    | nil => rfl
    | cons other others => exact absurd (append_eq_nil_iff.mp same.symm).1 (nonempty other)
  | cons value values ih =>
    cases others with
    | nil => exact absurd (append_eq_nil_iff.mp same).1 (nonempty value)
    | cons other others =>
      rw [forall_mem_cons] at goods otherGoods
      obtain ⟨rfl, rest⟩ := free value other _ _ goods.1 otherGoods.1 same
      rw [ih goods.2 otherGoods.2 rest]

end List
