import Nexa.Model.Coins.CoinsView
import Nexa.ToMathlib.MultiMap
import Nexa.ToMathlib.WriteBack

/-! # Coin caches are write-back caches

A view stands for the map of its unspent coins. The flags of a cache are the marks of a write-back
cache over the map of the view below it: `DIRTY` and `FRESH` agree with that map, every method of the
cache keeps them in agreement, and the map changes as the method says.
-/

namespace Nexa

open WriteBack Option Function AList

/-- The unspent coins by outpoint. -/
abbrev Utxo := COutPoint → Option Coin

/-- A spent coin stands for no coin. -/
def Coin.unspent (coin : Coin) : Option Coin := if coin.isSpent then none else some coin

theorem Coin.unspent_eq_some_iff {coin found : Coin} :
    coin.unspent = some found ↔ coin.isSpent = false ∧ coin = found := by
  simp only [Coin.unspent]
  split_ifs with spent <;> simp [spent]

@[simp] theorem Coin.unspent_eq_none_iff {coin : Coin} : coin.unspent = none ↔ coin.isSpent = true := by
  simp [Coin.unspent]

theorem Coin.unspent_of_not_spent {coin : Coin} (unspent : coin.isSpent = false) : coin.unspent = some coin :=
  Coin.unspent_eq_some_iff.mpr ⟨unspent, rfl⟩

@[simp] theorem Coin.unspent_isSome (coin : Coin) : coin.unspent.isSome = !coin.isSpent := by
  cases spent : coin.isSpent <;> simp [Coin.unspent, spent]

def CCoinsCacheEntry.shown (entry : CCoinsCacheEntry) : Entry Coin := ⟨entry.coin.unspent, entry.dirty, entry.fresh⟩

variable (map : CCoinsMap) (outpoint : COutPoint)

def CCoinsMap.shown : Option (Entry Coin) := (map.lookup outpoint).map CCoinsCacheEntry.shown

theorem CCoinsMap.shown_insert (entry : CCoinsCacheEntry) :
    CCoinsMap.shown (map.insert outpoint entry) = update map.shown outpoint (some entry.shown) := by
  funext other
  rw [update_apply, CCoinsMap.shown, lookup_insert_eq_ite, apply_ite (Option.map _)]
  rfl

theorem CCoinsMap.shown_erase : CCoinsMap.shown (map.erase outpoint) = update map.shown outpoint none := by
  funext other
  rw [update_apply, CCoinsMap.shown, lookup_erase_eq_ite, apply_ite (Option.map _)]
  rfl

/-- A loop over the entries of a map, which may change those it has visited, has yet to visit `entries`. -/
structure CCoinsMap.Visiting (entries : List (Σ _ : COutPoint, CCoinsCacheEntry)) (map : CCoinsMap) : Prop where
  distinct : entries.NodupKeys
  lookup_eq : ∀ item ∈ entries, map.lookup item.1 = some item.2

namespace CCoinsMap.Visiting

variable {outpoint : COutPoint} {entry : CCoinsCacheEntry} {rest : List (Σ _ : COutPoint, CCoinsCacheEntry)}
  {map : CCoinsMap}

theorem start (map : CCoinsMap) : Visiting map.entries map := ⟨map.nodupKeys, fun _ member => mem_lookup_iff.mpr member⟩

section

variable (visiting : Visiting (⟨outpoint, entry⟩ :: rest) map)

include visiting

theorem shown_head : map.shown outpoint = some entry.shown := by
  rw [CCoinsMap.shown, visiting.lookup_eq ⟨outpoint, entry⟩ List.mem_cons_self, map_some]

theorem tail {next : CCoinsMap} (unchanged : ∀ other, other ≠ outpoint → next.lookup other = map.lookup other) :
    Visiting rest next := by
  have parts := List.nodupKeys_cons.mp visiting.distinct
  refine ⟨parts.2, ?_⟩
  intro item member
  have apart : item.1 ≠ outpoint := by
    intro same
    have member := List.mem_keys_of_mem member
    exact parts.1 (same ▸ member)
  rw [unchanged item.1 apart]
  exact visiting.lookup_eq item (List.mem_cons_of_mem _ member)

theorem erase : Visiting rest (map.erase outpoint) := visiting.tail fun _ apart => lookup_erase_ne apart

theorem insert (replacement : CCoinsCacheEntry) : Visiting rest (map.insert outpoint replacement) :=
  visiting.tail fun _ apart => lookup_insert_ne apart

end

end CCoinsMap.Visiting

/-- The outpoints a loop over a map has yet to visit. -/
abbrev pendingKeys (entries : List (Σ _ : COutPoint, CCoinsCacheEntry)) : List COutPoint := entries.map Sigma.fst

theorem CCoinsMap.flushing_start {map : CCoinsMap} {base : Utxo} (coherent : Coherent map.shown base) :
    Flushing (overlay map.shown base) (pendingKeys map.entries) map.shown base := by
  refine ⟨rfl, coherent, ?_⟩
  intro outpoint shown found dirty
  obtain ⟨entry, cached, rfl⟩ := map_eq_some_iff.mp found
  exact List.mem_map_of_mem (mem_lookup_iff.mp cached)

namespace CoinsCache

variable (own : CoinsCache)

abbrev shown : COutPoint → Option (Entry Coin) := own.cacheCoins.shown

theorem shown_store (outpoint : COutPoint) (entry : CCoinsCacheEntry) (replaced : UInt64) :
    (own.store outpoint entry replaced).shown = update own.shown outpoint (some entry.shown) :=
  CCoinsMap.shown_insert own.cacheCoins outpoint entry

theorem shown_drop (outpoint : COutPoint) (entry : CCoinsCacheEntry) :
    (own.drop outpoint entry).shown = update own.shown outpoint none :=
  CCoinsMap.shown_erase own.cacheCoins outpoint

variable {own : CoinsCache} {outpoint : COutPoint} {entry : CCoinsCacheEntry} {below : Utxo}
  {possible_overwrite : Bool} {mapCoins : CCoinsMap}

theorem shown_of_lookup (cached : own.cacheCoins.lookup outpoint = some entry) :
    own.shown outpoint = some entry.shown := by
  rw [shown, CCoinsMap.shown, cached, map_some]

theorem overlay_of_lookup (cached : own.cacheCoins.lookup outpoint = some entry) (below : Utxo) :
    overlay own.shown below outpoint = entry.coin.unspent := by
  rw [overlay, shown_of_lookup cached, resolve_some, CCoinsCacheEntry.shown]

theorem overlay_of_lookup_none (missing : own.cacheCoins.lookup outpoint = none) (below : Utxo) :
    overlay own.shown below outpoint = below outpoint := by
  rw [overlay, shown, CCoinsMap.shown, missing, map_none, resolve_none]

theorem spent_of_overlay_none (absent : overlay own.shown below outpoint = none) :
    ((own.cacheCoins.lookup outpoint).getD {}).coin.isSpent = true := by
  cases cached : own.cacheCoins.lookup outpoint with
  | none => rfl
  | some entry =>
    rw [overlay_of_lookup cached, Coin.unspent_eq_none_iff] at absent
    exact absent

section

variable (coherent : Coherent own.shown below)

include coherent

theorem below_none_of_fresh (absent : possible_overwrite = false → overlay own.shown below outpoint = none)
    (fresh : (((own.cacheCoins.lookup outpoint).getD {}).fresh ||
      (!possible_overwrite && !((own.cacheCoins.lookup outpoint).getD {}).dirty)) = true) :
    below outpoint = none := by
  cases cached : own.cacheCoins.lookup outpoint with
  | none =>
    rw [cached] at fresh
    have guarded : possible_overwrite = false := by simpa using fresh
    rw [← overlay_of_lookup_none cached below]
    exact absent guarded
  | some entry =>
    have agrees := coherent outpoint entry.shown (shown_of_lookup cached)
    rw [cached, Bool.or_eq_true, Bool.and_eq_true, Bool.not_eq_true', Bool.not_eq_true'] at fresh
    cases fresh with
    | inl marked => exact agrees.fresh marked
    | inr guarded =>
      have empty := (overlay_of_lookup cached below).symm.trans (absent guarded.1)
      exact (agrees.clean guarded.2).symm.trans empty

theorem clearEntry_spec (cached : own.cacheCoins.lookup outpoint = some entry) :
    Coherent (own.clearEntry outpoint entry).shown below ∧
      overlay (own.clearEntry outpoint entry).shown below = update (overlay own.shown below) outpoint none := by
  rw [clearEntry]
  split_ifs with fresh
  · have empty := (coherent outpoint entry.shown (shown_of_lookup cached)).fresh fresh
    rw [shown_drop, overlay_update, empty]
    exact ⟨coherent.erase outpoint, rfl⟩
  · rw [shown_store, overlay_update]
    refine ⟨coherent.update ?_, rfl⟩
    rintro cleared ⟨⟩
    exact ⟨nofun, nofun⟩

theorem uncache_spec (outpoint : COutPoint) : Coherent (own.uncache outpoint).shown below ∧
      overlay (own.uncache outpoint).shown below = overlay own.shown below := by
  rw [uncache]
  cases cached : own.cacheCoins.lookup outpoint with
  | none => exact ⟨coherent, rfl⟩
  | some entry =>
    dsimp only
    split_ifs with flagged
    · exact ⟨coherent, rfl⟩
    · have clean : entry.dirty = false := by
        simp only [Bool.or_eq_true, not_or, Bool.not_eq_true] at flagged
        exact flagged.1
      rw [shown_drop]
      exact ⟨coherent.erase outpoint, coherent.overlay_erase (shown_of_lookup cached) clean⟩

end

theorem trimLoop_spec (tableUsage : CCoinsMap → ℕ) (nTrimSize : ℕ) (outpoints : List COutPoint)
    (coherent : Coherent own.shown below) :
    Coherent (trimLoop tableUsage nTrimSize outpoints own).shown below ∧
      overlay (trimLoop tableUsage nTrimSize outpoints own).shown below = overlay own.shown below := by
  induction outpoints generalizing own with
  | nil => exact ⟨coherent, rfl⟩
  | cons outpoint rest ih =>
    rw [trimLoop]
    split_ifs with full
    · obtain ⟨kept, same⟩ := uncache_spec coherent outpoint
      obtain ⟨trimmed, sees⟩ := ih kept
      exact ⟨trimmed, sees.trans same⟩
    · exact ⟨coherent, rfl⟩

theorem writeEntry_spec (outpoint : COutPoint) (agrees : entry.shown.Agrees (overlay own.shown below outpoint)) :
    ∃ written, own.writeEntry outpoint entry = .ok written ∧
      written.shown = update own.shown outpoint (absorb (own.shown outpoint) entry.shown) := by
  rw [writeEntry]
  cases cached : own.cacheCoins.lookup outpoint with
  | none =>
    have absent : own.shown outpoint = none := by rw [shown, CCoinsMap.shown, cached, map_none]
    split_ifs with forgotten
    · rw [Bool.and_eq_true] at forgotten
      refine ⟨own, rfl, ?_⟩
      rw [absorb, absent, if_pos ⟨forgotten.1, Coin.unspent_eq_none_iff.mpr forgotten.2⟩, ← absent, update_eq_self]
    · refine ⟨_, rfl, ?_⟩
      rw [shown_store, absorb, absent, if_neg]
      · rfl
      · rintro ⟨fresh, spent⟩
        exact forgotten (Bool.and_eq_true _ _ ▸ ⟨fresh, Coin.unspent_eq_none_iff.mp spent⟩)
  | some us =>
    have present := shown_of_lookup cached
    have noThrow : ¬(entry.fresh && !us.coin.isSpent) = true := by
      intro misapplied
      rw [Bool.and_eq_true] at misapplied
      have empty := agrees.fresh misapplied.1
      rw [overlay_of_lookup cached, Coin.unspent_eq_none_iff] at empty
      simp [empty] at misapplied
    dsimp only
    split_ifs with forgotten
    · rw [Bool.and_eq_true] at forgotten
      refine ⟨_, rfl, ?_⟩
      rw [shown_drop, absorb, present, if_pos ⟨forgotten.1, Coin.unspent_eq_none_iff.mpr forgotten.2⟩]
    · refine ⟨_, rfl, ?_⟩
      rw [shown_store, absorb, present, if_neg]
      · rfl
      · rintro ⟨fresh, spent⟩
        exact forgotten (Bool.and_eq_true _ _ ▸ ⟨fresh, Coin.unspent_eq_none_iff.mp spent⟩)

theorem writeEntries_spec {entries : List (Σ _ : COutPoint, CCoinsCacheEntry)} {shown : Utxo} (usage : UInt64)
    (visiting : mapCoins.Visiting entries) (coherent : Coherent own.shown below)
    (flushing : Flushing shown (pendingKeys entries) mapCoins.shown (overlay own.shown below)) :
    ∃ written left leftUsage, writeEntries entries own mapCoins usage = .ok (written, left, leftUsage) ∧
      Coherent written.shown below ∧ Flushing shown [] left.shown (overlay written.shown below) := by
  induction entries generalizing own mapCoins usage with
  | nil => exact ⟨own, mapCoins, usage, rfl, coherent, flushing⟩
  | cons item rest ih =>
    obtain ⟨outpoint, entry⟩ := item
    have found := visiting.shown_head
    rw [writeEntries]
    split_ifs with dirty
    · have agrees := flushing.coherent outpoint entry.shown found
      have ownAgrees := coherent outpoint
      obtain ⟨written, wrote, writtenShown⟩ := writeEntry_spec outpoint agrees
      have sees : overlay written.shown below = update (overlay own.shown below) outpoint entry.shown.value := by
        rw [writtenShown, overlay_update, resolve_absorb ownAgrees agrees]
      have kept : Coherent written.shown below := by
        rw [writtenShown]
        exact coherent.update (absorb_agrees ownAgrees agrees)
      have next : Flushing shown (pendingKeys rest) (CCoinsMap.shown (mapCoins.erase outpoint))
          (overlay written.shown below) := by
        rw [sees, CCoinsMap.shown_erase]
        exact flushing.writeBack found nofun
      rw [wrote]
      exact ih _ visiting.erase kept next
    · exact ih usage (visiting.tail fun _ _ => rfl) coherent (flushing.skip found (Bool.eq_false_iff.mpr dirty))

end CoinsCache

/-! ## The view that backs a cache -/

def BackingView.coins {σ : Type} [BackingView σ] (view : σ) : Utxo := fun outpoint =>
  (BackingView.getCoin view outpoint).bind Coin.unspent

/-- A backing view takes over what the cache above it shows. -/
class LawfulBackingView (σ : Type) [BackingView σ] : Prop where
  batchWrite_flushed : ∀ (view : σ) (mapCoins : CCoinsMap) (hashBlock : Uint256) (nBestCoinHeight usage : UInt64),
    Coherent mapCoins.shown (BackingView.coins view) →
    Flushed mapCoins.shown (BackingView.coins view)
      (BackingView.batchWrite view mapCoins hashBlock nBestCoinHeight usage).2.1.shown
      (BackingView.coins (BackingView.batchWrite view mapCoins hashBlock nBestCoinHeight usage).1)

namespace CCoinsViewDB

variable (coins : AList fun _ : COutPoint => Coin)

def shown : Utxo := fun outpoint =>
  (coins.lookup outpoint).bind Coin.unspent

theorem shown_insert (outpoint : COutPoint) (coin : Coin) :
    shown (coins.insert outpoint coin) = update (shown coins) outpoint coin.unspent := by
  funext other
  rw [update_apply, shown, lookup_insert_eq_ite, apply_ite (Option.bind · _)]
  rfl

theorem shown_erase (outpoint : COutPoint) : shown (coins.erase outpoint) = update (shown coins) outpoint none := by
  funext other
  rw [update_apply, shown, lookup_erase_eq_ite, apply_ite (Option.bind · _)]
  rfl

theorem writeEntries_spec (evicts : Bool) {entries : List (Σ _ : COutPoint, CCoinsCacheEntry)}
    {coins : AList fun _ : COutPoint => Coin} {seen : Utxo} {mapCoins : CCoinsMap} (usage : UInt64)
    (visiting : mapCoins.Visiting entries)
    (flushing : Flushing seen (pendingKeys entries) mapCoins.shown (shown coins)) :
    Flushing seen [] (writeEntries evicts entries coins mapCoins usage).2.1.shown
      (shown (writeEntries evicts entries coins mapCoins usage).1) := by
  induction entries generalizing coins mapCoins usage with
  | nil => exact flushing
  | cons item rest ih =>
    obtain ⟨outpoint, entry⟩ := item
    have found := visiting.shown_head
    -- the entry leaves the cache or stays there clean, with its value in the database
    have erased : Flushing seen (pendingKeys rest) (CCoinsMap.shown (mapCoins.erase outpoint))
        (update (shown coins) outpoint entry.coin.unspent) := by
      rw [CCoinsMap.shown_erase]
      exact flushing.writeBack found nofun
    have cleaned : Flushing seen (pendingKeys rest)
        (CCoinsMap.shown (mapCoins.insert outpoint ⟨entry.coin, false, false⟩))
        (update (shown coins) outpoint entry.coin.unspent) := by
      rw [CCoinsMap.shown_insert]
      apply flushing.writeBack found
      rintro left ⟨⟩
      exact ⟨rfl, fun _ => rfl, nofun⟩
    rw [writeEntries]
    split_ifs with clean spent evicting
    · rw [Bool.not_eq_true'] at clean
      exact ih usage (visiting.tail fun _ _ => rfl) (flushing.skip found clean)
    · rw [Coin.unspent_eq_none_iff.mpr spent, ← shown_erase] at erased
      exact ih _ visiting.erase erased
    · rw [← shown_insert] at erased
      exact ih _ visiting.erase erased
    · rw [← shown_insert] at cleaned
      exact ih _ (visiting.insert _) cleaned

instance : LawfulBackingView CCoinsViewDB where
  batchWrite_flushed db mapCoins _ _ usage coherent :=
    (writeEntries_spec db.evicts usage (.start mapCoins) (CCoinsMap.flushing_start coherent)).flushed

end CCoinsViewDB

end Nexa
