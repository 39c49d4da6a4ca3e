import Mathlib.Data.UInt
import Nexa.Model.Wallet.TokenMintCache
import Nexa.ToMathlib.MultiMap

/-! # Mintages applied and removed

Every entry of the cache is also in the database, so the supply of a group is what the database holds and
evictions do not show. `ApplyTokenMintages` and `RemoveTokenMintages` then change the supply of each group by
a function of its own, and the second undoes the first unless a supply leaves the numbers of 64 bits.
-/

namespace Nexa

open List AList

namespace CTokenMintCache

variable {index : CTokenMintCache} {grpID other : CGroupTokenID} {entry value : MintEntry}

/-! ## What is cached -/

/-- The cache holds only what the database holds. -/
def Coherent (index : CTokenMintCache) : Prop :=
  ∀ grpID entry, index.cache.lookup grpID = some entry → index.tokenMint.lookup grpID = some entry

theorem Coherent.eraseRandom (coherent : index.Coherent) : index.eraseRandom.Coherent := by
  intro grpID entry cached
  apply coherent
  rw [CTokenMintCache.eraseRandom] at cached
  cases found : index.randomElement with
  | none => simpa [found] using cached
  | some victim =>
    simp only [found, Option.elim_some, lookup_erase_eq_ite] at cached
    split_ifs at cached
    exact cached

theorem randomElement_spec : index.cache.keys = [] ∨ ∃ victim ∈ index.cache, index.randomElement = some victim := by
  set keys := index.cache.keys.mergeSort fun first second => decide (first ≤ second)
  have length : keys.length = index.cache.keys.length := length_mergeSort _
  rcases Nat.eq_zero_or_pos keys.length with empty | nonempty
  · left
    exact eq_nil_of_length_eq_zero (length.symm.trans empty)
  · right
    have below : getRand (index.random 0) (keys.length - 1) < keys.length := by
      rw [getRand]
      split_ifs with single
      · exact nonempty
      · have := Nat.mod_lt (index.random 0) (Nat.pos_of_ne_zero single)
        omega
    exact ⟨keys[getRand _ _], mem_mergeSort.mp (getElem_mem below),
      getElem?_eq_getElem below⟩

theorem length_keys_eraseRandom : index.eraseRandom.cache.keys.length = index.cache.keys.length - 1 := by
  rw [eraseRandom]
  rcases index.randomElement_spec with empty | ⟨victim, member, found⟩
  · have none : index.cache = ∅ := ext (map_eq_nil_iff.mp empty)
    rw [none]
    cases index.randomElement <;> rfl
  · rw [found, Option.elim_some, length_keys_erase member]

theorem eraseRandom_iterate_spec (rounds : ℕ) (coherent : index.Coherent) :
    (eraseRandom^[rounds] index).Coherent ∧ (eraseRandom^[rounds] index).tokenMint = index.tokenMint ∧
      (eraseRandom^[rounds] index).nMaxCacheSize = index.nMaxCacheSize ∧
      (eraseRandom^[rounds] index).cache.keys.length = index.cache.keys.length - rounds := by
  induction rounds generalizing index with
  | zero => exact ⟨coherent, rfl, rfl, rfl⟩
  | succ rounds ih =>
    obtain ⟨kept, same, limit, length⟩ := ih coherent.eraseRandom
    rw [Function.iterate_succ_apply]
    refine ⟨kept, same, limit, ?_⟩
    rw [length, length_keys_eraseRandom]
    omega

/-- The cache agrees with the database, and keeps to a size that is not zero. -/
structure Sound (index : CTokenMintCache) : Prop where
  coherent : index.Coherent
  positive : 0 < index.nMaxCacheSize
  bounded : index.cache.keys.length ≤ index.nMaxCacheSize

/-- The supply of a group as `GetTokenMint` reads it. -/
def supply (index : CTokenMintCache) (grpID : CGroupTokenID) : UInt64 := (index.getTokenMint grpID).1.1

section

variable (sound : index.Sound)

include sound

theorem makeRoom_spec :
    index.makeRoom.Coherent ∧ index.makeRoom.tokenMint = index.tokenMint ∧
      index.makeRoom.nMaxCacheSize = index.nMaxCacheSize ∧
      index.makeRoom.cache.keys.length < index.nMaxCacheSize := by
  rw [makeRoom]
  obtain ⟨kept, same, limit, length⟩ :=
    eraseRandom_iterate_spec (index.cache.keys.length + 1 - index.nMaxCacheSize) sound.coherent
  have positive := sound.positive
  exact ⟨kept, same, limit, by omega⟩

theorem tokenMint_addToCache : (index.addToCache grpID entry).tokenMint = index.tokenMint := (makeRoom_spec sound).2.1

theorem lookup_addToCache (cached : (index.addToCache grpID entry).cache.lookup other = some value) :
    other = grpID ∧ value = entry ∨ other ≠ grpID ∧ index.tokenMint.lookup other = some value := by
  rw [addToCache, lookup_insert_eq_ite] at cached
  split_ifs at cached with same
  · left
    exact ⟨same, (Option.some_injective _ cached).symm⟩
  · right
    obtain ⟨kept, unchanged, -⟩ := makeRoom_spec sound
    rw [← unchanged]
    exact ⟨same, kept _ _ cached⟩

theorem positive_addToCache : 0 < (index.addToCache grpID entry).nMaxCacheSize :=
  (makeRoom_spec sound).2.2.1 ▸ sound.positive

theorem bounded_addToCache :
    (index.addToCache grpID entry).cache.keys.length ≤ (index.addToCache grpID entry).nMaxCacheSize := by
  obtain ⟨-, -, limit, room⟩ := makeRoom_spec sound
  have grown := length_keys_insert_le index.makeRoom.cache grpID entry
  rw [addToCache]
  dsimp only
  omega

theorem Sound.addToCache (stored : index.tokenMint.lookup grpID = some entry) :
    (index.addToCache grpID entry).Sound where
  coherent := by
    intro other value cached
    rw [tokenMint_addToCache sound]
    rcases lookup_addToCache sound cached with ⟨rfl, rfl⟩ | ⟨-, behind⟩
    · exact stored
    · exact behind
  positive := positive_addToCache sound
  bounded := bounded_addToCache sound

theorem lookup_store :
    (index.store grpID entry).tokenMint.lookup other =
      if other = grpID then some entry else index.tokenMint.lookup other := by
  rw [store]
  rw [lookup_insert_eq_ite, tokenMint_addToCache sound]

theorem Sound.store : (index.store grpID entry).Sound where
  coherent := by
    intro other value cached
    rw [lookup_store sound]
    rcases lookup_addToCache sound cached with ⟨rfl, rfl⟩ | ⟨apart, behind⟩
    · rw [if_pos rfl]
    · rw [if_neg apart]
      exact behind
  positive := @positive_addToCache index grpID entry sound
  bounded := bounded_addToCache sound

theorem fetch_spec (grpID : CGroupTokenID) :
    (index.fetch grpID).1 = index.tokenMint.lookup grpID ∧ (index.fetch grpID).2.Sound ∧
      (index.fetch grpID).2.tokenMint = index.tokenMint := by
  fun_cases fetch index grpID with
  | case1 entry cached => exact ⟨(sound.coherent _ _ cached).symm, sound, rfl⟩
  | case2 _ entry found =>
    exact ⟨found.symm, sound.addToCache found, tokenMint_addToCache sound⟩
  | case3 _ missing => exact ⟨missing.symm, sound, rfl⟩

theorem supply_eq : index.supply grpID = ((index.tokenMint.lookup grpID).getD (0, "")).1 := by
  rw [supply, getTokenMint, (fetch_spec sound grpID).1]

theorem supply_fetch : (index.fetch grpID).2.supply other = index.supply other := by
  obtain ⟨-, kept, same⟩ := fetch_spec sound grpID
  rw [supply_eq kept, supply_eq sound, same]

theorem supply_store :
    (index.store grpID entry).supply other = if other = grpID then entry.1 else index.supply other := by
  rw [supply_eq sound.store, lookup_store sound, supply_eq sound]
  split_ifs <;> rfl

/-! ## One mintage -/

theorem sound_supply_of_fetched {allowed : Prop} [Decidable allowed] :
    (if allowed then (index.fetch grpID).2.store grpID entry else (index.fetch grpID).2).Sound ∧
      (if allowed then (index.fetch grpID).2.store grpID entry else (index.fetch grpID).2).supply other =
        if other = grpID then if allowed then entry.1 else index.supply grpID else index.supply other := by
  have fetched := (fetch_spec sound grpID).2.1
  split_ifs with _ same same
  · rw [supply_store fetched, if_pos same]
    exact ⟨fetched.store, rfl⟩
  · rw [supply_store fetched, if_neg same]
    exact ⟨fetched.store, supply_fetch sound⟩
  · exact ⟨fetched, same ▸ supply_fetch sound⟩
  · exact ⟨fetched, supply_fetch sound⟩

theorem Sound.addTokenMint (grpID : CGroupTokenID) (mint : CAmount) :
    (index.addTokenMint grpID mint).Sound :=
  (@sound_supply_of_fetched index grpID grpID _ sound _ _).1

theorem Sound.removeTokenMint (grpID : CGroupTokenID) (melt : CAmount) :
    (index.removeTokenMint grpID melt).Sound :=
  (@sound_supply_of_fetched index grpID grpID _ sound _ _).1

theorem Sound.addTokenGenesis (grpID : CGroupTokenID) (entry : MintEntry) :
    (index.addTokenGenesis grpID entry).Sound := by
  have fetched := (fetch_spec sound grpID).2.1
  rw [CTokenMintCache.addTokenGenesis]
  dsimp only [getTokenGenesis]
  split_ifs
  · exact fetched
  · exact fetched.store
  · exact sound.store

end

/-- What `AddTokenMint` makes of a supply. -/
def minted (mint supply : UInt64) : UInt64 := if 0 < supply + mint then supply + mint else supply

/-- What `RemoveTokenMint` makes of a supply. -/
def melted (melt supply : UInt64) : UInt64 := if melt ≤ supply then supply - melt else supply

theorem supply_addTokenMint (sound : index.Sound) (mint : CAmount) :
    (index.addTokenMint grpID mint).supply other =
      if other = grpID then minted mint.toUInt64 (index.supply grpID) else index.supply other :=
  (sound_supply_of_fetched sound).2

theorem supply_removeTokenMint (sound : index.Sound) (melt : CAmount) :
    (index.removeTokenMint grpID melt).supply other =
      if other = grpID then melted melt.toUInt64 (index.supply grpID) else index.supply other :=
  (sound_supply_of_fetched sound).2

variable (mintage : CAmount) (supply : UInt64)

/-- What a mintage makes of a supply when it is applied. -/
def applied : UInt64 :=
  if 0 < mintage.toInt then minted mintage.toUInt64 supply else melted mintage.abs.toUInt64 supply

/-- What a mintage makes of a supply when it is removed. -/
def removed : UInt64 :=
  if 0 < mintage.toInt then melted mintage.toUInt64 supply else minted mintage.abs.toUInt64 supply

theorem toNat_abs_toUInt64 : mintage.abs.toUInt64.toNat = mintage.toInt.natAbs := by
  have word : mintage.abs.toUInt64.toNat = mintage.toBitVec.abs.toNat := rfl
  have signed : mintage.toInt = mintage.toBitVec.toInt := rfl
  rw [word, signed, BitVec.toNat_abs, BitVec.toInt_eq_msb_cond]
  split_ifs <;> omega

theorem toNat_toUInt64_of_pos {mintage : CAmount} (positive : 0 < mintage.toInt) :
    mintage.toUInt64.toNat = mintage.toInt.natAbs := by
  have word : mintage.toUInt64.toNat = mintage.toBitVec.toNat := rfl
  have signed : mintage.toInt = mintage.toBitVec.toInt := rfl
  rw [signed, BitVec.toInt_eq_msb_cond] at positive ⊢
  split_ifs at positive ⊢ <;> omega

theorem minted_eq {mint supply : UInt64} (fits : supply.toNat + mint.toNat < 2 ^ 64) :
    minted mint supply = supply + mint := by
  rw [minted]
  split_ifs with positive
  · rfl
  · rw [UInt64.lt_iff_toNat_lt, UInt64.toNat_add, UInt64.toNat_zero] at positive
    apply UInt64.toNat_inj.mp
    rw [UInt64.toNat_add]
    omega

theorem melted_eq {melt supply : UInt64} (covered : melt.toNat ≤ supply.toNat) : melted melt supply = supply - melt :=
  if_pos (UInt64.le_iff_toNat_le.mpr covered)

theorem melted_minted {amount supply : UInt64} (fits : supply.toNat + amount.toNat < 2 ^ 64) :
    melted amount (minted amount supply) = supply := by
  have total : (supply + amount).toNat = supply.toNat + amount.toNat := by
    rw [UInt64.toNat_add, Nat.mod_eq_of_lt fits]
  rw [minted_eq fits, melted_eq (by omega), UInt64.add_sub_cancel]

theorem minted_melted {amount supply : UInt64} (covered : amount.toNat ≤ supply.toNat) :
    minted amount (melted amount supply) = supply := by
  have bound := supply.toNat_lt
  have rest : (supply - amount).toNat = supply.toNat - amount.toNat :=
    UInt64.toNat_sub_of_le _ _ (UInt64.le_iff_toNat_le.mpr covered)
  rw [melted_eq covered, minted_eq (by omega), UInt64.sub_add_cancel]

theorem removed_applied {mintage : CAmount} {supply : UInt64} (nonneg : 0 ≤ supply.toNat + mintage.toInt)
    (fits : supply.toNat + mintage.toInt < 2 ^ 64) : removed mintage (applied mintage supply) = supply := by
  rw [removed, applied]
  split_ifs with positive
  · apply melted_minted
    rw [toNat_toUInt64_of_pos positive]
    omega
  · apply minted_melted
    rw [toNat_abs_toUInt64]
    omega

end CTokenMintCache

/-! ## The mintages of a block -/

/-- A state of the index in which the cache and the database agree. -/
structure TokenIndex extends CTokenMintCache where
  sound : toCTokenMintCache.Sound

namespace TokenIndex

open CTokenMintCache

variable {index : TokenIndex} {grpID other : CGroupTokenID}

def applyTokenMintage (index : TokenIndex) (it : Σ _ : CGroupTokenID, CAmount) : TokenIndex where
  toCTokenMintCache := index.toCTokenMintCache.applyTokenMintage it
  sound := by
    rw [CTokenMintCache.applyTokenMintage]
    split_ifs
    · exact index.sound.addTokenMint _ _
    · exact index.sound.removeTokenMint _ _

def removeTokenMintage (index : TokenIndex) (it : Σ _ : CGroupTokenID, CAmount) : TokenIndex where
  toCTokenMintCache := index.toCTokenMintCache.removeTokenMintage it
  sound := by
    rw [CTokenMintCache.removeTokenMintage]
    split_ifs
    · exact index.sound.removeTokenMint _ _
    · exact index.sound.addTokenMint _ _

def addTokenGenesis (index : TokenIndex) (grpID : CGroupTokenID) (entry : MintEntry) : TokenIndex where
  toCTokenMintCache := index.toCTokenMintCache.addTokenGenesis grpID entry
  sound := index.sound.addTokenGenesis grpID entry

def applyTokenMintages (index : TokenIndex) (accumulatedMintages : CMintageMap) : TokenIndex :=
  accumulatedMintages.entries.foldl applyTokenMintage index

def removeTokenMintages (index : TokenIndex) (accumulatedMintages : CMintageMap) : TokenIndex :=
  accumulatedMintages.entries.foldl removeTokenMintage index

variable (accumulatedMintages : CMintageMap)

theorem toCTokenMintCache_applyTokenMintages :
    (index.applyTokenMintages accumulatedMintages).toCTokenMintCache =
      index.toCTokenMintCache.applyTokenMintages accumulatedMintages :=
  (foldl_hom toCTokenMintCache fun _ _ => rfl).symm

theorem toCTokenMintCache_removeTokenMintages :
    (index.removeTokenMintages accumulatedMintages).toCTokenMintCache =
      index.toCTokenMintCache.removeTokenMintages accumulatedMintages :=
  (foldl_hom toCTokenMintCache fun _ _ => rfl).symm

variable (it : Σ _ : CGroupTokenID, CAmount)

theorem supply_applyTokenMintage :
    (index.applyTokenMintage it).supply grpID =
      if grpID = it.1 then applied it.2 (index.supply grpID) else index.supply grpID := by
  change (index.toCTokenMintCache.applyTokenMintage it).supply grpID = _
  rw [CTokenMintCache.applyTokenMintage, applied]
  split_ifs <;> simp [supply_addTokenMint index.sound, supply_removeTokenMint index.sound, *]

theorem supply_removeTokenMintage :
    (index.removeTokenMintage it).supply grpID =
      if grpID = it.1 then removed it.2 (index.supply grpID) else index.supply grpID := by
  change (index.toCTokenMintCache.removeTokenMintage it).supply grpID = _
  rw [CTokenMintCache.removeTokenMintage, removed]
  split_ifs <;> simp [supply_addTokenMint index.sound, supply_removeTokenMint index.sound, *]

theorem supply_foldl {step : TokenIndex → (Σ _ : CGroupTokenID, CAmount) → TokenIndex}
    {effect : CAmount → UInt64 → UInt64} (accumulatedMintages : CMintageMap) (steps : ∀ index it,
      (step index it).supply grpID = if grpID = it.1 then effect it.2 (index.supply grpID) else index.supply grpID) :
    (accumulatedMintages.entries.foldl step index).supply grpID =
      (accumulatedMintages.lookup grpID).elim (index.supply grpID) fun mintage =>
        effect mintage (index.supply grpID) := by
  apply read_foldl_entries fun index : TokenIndex => index.supply grpID
  · intro index entry apart
    rw [steps, if_neg (Ne.symm apart)]
  · intro index mintage
    rw [steps, if_pos rfl]

/-- Removing the mintages that were applied restores every supply, if each of them fits 64 bits in between. -/
theorem supply_removeTokenMintages_applyTokenMintages (index : TokenIndex) (accumulatedMintages : CMintageMap)
    (nonneg : ∀ grpID mintage, accumulatedMintages.lookup grpID = some mintage →
      0 ≤ (index.supply grpID).toNat + mintage.toInt)
    (fits : ∀ grpID mintage, accumulatedMintages.lookup grpID = some mintage →
      (index.supply grpID).toNat + mintage.toInt < 2 ^ 64)
    (grpID : CGroupTokenID) :
    ((index.toCTokenMintCache.applyTokenMintages accumulatedMintages).removeTokenMintages accumulatedMintages).supply
      grpID = index.supply grpID := by
  rw [← toCTokenMintCache_applyTokenMintages, ← toCTokenMintCache_removeTokenMintages, removeTokenMintages,
    supply_foldl _ fun _ => supply_removeTokenMintage, applyTokenMintages,
    supply_foldl _ fun _ => supply_applyTokenMintage]
  cases found : accumulatedMintages.lookup grpID with
  | none => rfl
  | some mintage => exact removed_applied (nonneg grpID mintage found) (fits grpID mintage found)

def sampleMintCache : CTokenMintCache where
  tokenMint := (insert (replicate 32 1) (5, "") ∅).insert (replicate 32 2) (2 ^ 64 - 1, "")

def sampleIndex : TokenIndex where
  toCTokenMintCache := sampleMintCache
  sound.coherent := fun _ _ cached => absurd cached (Option.some_ne_none _).symm
  sound.positive := by decide
  sound.bounded := by decide

def sampleMelts : CMintageMap := insert (replicate 32 1) (-3) ∅

theorem supply_removeTokenMintages_applyTokenMintages_sample :
    (sampleIndex.toCTokenMintCache.applyTokenMintages sampleMelts).supply (List.replicate 32 1) = 2 ∧
    ((sampleIndex.toCTokenMintCache.applyTokenMintages sampleMelts).removeTokenMintages sampleMelts).supply
      (List.replicate 32 1) = sampleIndex.supply (List.replicate 32 1) := by
  have only {grpID : CGroupTokenID} {mintage : CAmount} (found : sampleMelts.lookup grpID = some mintage) :
      grpID = replicate 32 1 ∧ mintage = -3 := by
    rw [sampleMelts, lookup_insert_eq_ite] at found
    split_ifs at found with same
    · exact ⟨same, (Option.some_injective _ found).symm⟩
    · cases found
  refine ⟨by decide, ?_⟩
  apply supply_removeTokenMintages_applyTokenMintages
  all_goals
    intro grpID mintage found
    obtain ⟨rfl, rfl⟩ := only found
    decide

def sampleMints : CMintageMap := insert (replicate 32 2) 1 ∅

/-- A supply that passes the limit wraps around, and is not restored. -/
theorem supply_wraps :
    sampleIndex.supply (List.replicate 32 2) = 2 ^ 64 - 1 ∧
    ((sampleIndex.toCTokenMintCache.applyTokenMintages sampleMints).removeTokenMintages sampleMints).supply
      (List.replicate 32 2) = 2 ^ 64 - 2 := by
  decide +kernel

end TokenIndex

end Nexa
