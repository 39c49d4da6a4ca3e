import Nexa.Proofs.CoinsView

/-! # Stacks of caches refine maps of coins

The map of a view is the map of the view below it, overridden by the entries of the cache. A stack of
caches is described by these maps from the top down. Coins are added and spent in the cache on top;
the queries, the upkeep of a cache and its flush are free at every level. Over all runs every reply
is the one the maps give, where a spent coin that `GetCoin` returns counts as no coin.
-/

namespace Nexa

open WriteBack

section

variable {σ : Type} [BackingView σ]

namespace CCoinsView

/-- The unspent coins of a view. -/
def coins : CCoinsView σ → Utxo
  | .backing view => BackingView.coins view
  | .cache own base => overlay own.shown base.coins

/-- The flags of every cache of the stack agree with the view below it. -/
def Coherent : CCoinsView σ → Prop
  | .backing _ => True
  | .cache own base => WriteBack.Coherent own.shown base.coins ∧ base.Coherent

/-- The maps of the views of a stack, from the top down. -/
def levels : CCoinsView σ → List Utxo
  | .backing view => [BackingView.coins view]
  | .cache own base => overlay own.shown base.coins :: base.levels

theorem head?_levels (view : CCoinsView σ) : view.levels.head? = some view.coins := by
  cases view with
  | backing view => rfl
  | cache own base => rfl

theorem coins_eq_of_levels_eq {view view' : CCoinsView σ} (same : view'.levels = view.levels) :
    view'.coins = view.coins := by
  have heads := congrArg List.head? same
  rwa [head?_levels, head?_levels, Option.some_inj] at heads

/-- Reading an outpoint returns its coin, and fills caches without changing what they show. -/
def ReadsFaithfully (view : CCoinsView σ) (outpoint : COutPoint) : Prop :=
  ∃ found read, view.getCoin outpoint = (found, read) ∧ found.bind Coin.unspent = view.coins outpoint ∧
    read.Coherent ∧ read.levels = view.levels

end CCoinsView

namespace CCoinsViewCache

variable (view : CCoinsViewCache σ)

def toView : CCoinsView σ := .cache view.own view.base

abbrev coins : Utxo := view.toView.coins

abbrev Coherent : Prop := view.toView.Coherent

theorem fetchCoin_of_base {view : CCoinsViewCache σ} (coherent : view.Coherent) {outpoint : COutPoint}
    (faithful : view.base.ReadsFaithfully outpoint) :
    ∃ entry read, view.fetchCoin outpoint = (entry, read) ∧ read.own.cacheCoins.lookup outpoint = entry ∧
      entry.bind (fun found => found.coin.unspent) = view.coins outpoint ∧ read.Coherent ∧
      read.toView.levels = view.toView.levels := by
  obtain ⟨found, base', answer, shows, baseCoherent, sameLevels⟩ := faithful
  have sameCoins := CCoinsView.coins_eq_of_levels_eq sameLevels
  rw [fetchCoin, CoinsCache.fetchCoin]
  cases cached : view.own.cacheCoins.lookup outpoint with
  | some entry => exact ⟨_, _, rfl, cached, (CoinsCache.overlay_of_lookup cached _).symm, coherent, rfl⟩
  | none =>
    have missing := CoinsCache.overlay_of_lookup_none cached view.base.coins
    rw [answer]
    cases found with
    | none =>
      refine ⟨none, ⟨view.own, base'⟩, rfl, cached, shows.trans missing.symm, ⟨?_, baseCoherent⟩, ?_⟩
      · rw [sameCoins]
        exact coherent.1
      · change overlay _ base'.coins :: base'.levels = overlay _ view.base.coins :: view.base.levels
        rw [sameCoins, sameLevels]
    | some tmp =>
      have sees : tmp.unspent = view.base.coins outpoint := shows
      have filled := view.own.shown_store outpoint ⟨tmp, false, tmp.isSpent⟩ 0
      refine ⟨_, ⟨_, base'⟩, rfl, AList.lookup_insert _, sees.trans missing.symm, ⟨?_, baseCoherent⟩, ?_⟩
      · rw [sameCoins, filled]
        apply coherent.1.update
        rintro entry ⟨⟩
        exact ⟨fun _ => sees, fun spent => sees.symm.trans (Coin.unspent_eq_none_iff.mpr spent)⟩
      · change overlay _ base'.coins :: base'.levels = overlay _ view.base.coins :: view.base.levels
        rw [sameCoins, sameLevels, filled]
        exact congrArg (· :: view.base.levels) (overlay_update_eq_self (sees.trans missing.symm))

end CCoinsViewCache

theorem CCoinsView.readsFaithfully {view : CCoinsView σ} (coherent : view.Coherent) (outpoint : COutPoint) :
    view.ReadsFaithfully outpoint := by
  induction view with
  | backing view => exact ⟨_, _, rfl, rfl, trivial, rfl⟩
  | cache own base ih =>
    obtain ⟨entry, read, fetched, -, value, kept, sameLevels⟩ :=
      @CCoinsViewCache.fetchCoin_of_base _ _ ⟨own, base⟩ coherent outpoint (ih coherent.2)
    refine ⟨entry.map CCoinsCacheEntry.coin, read.toView, ?_, ?_, kept, sameLevels⟩
    · cases fetched
      rfl
    · rw [Option.bind_map]
      exact value

namespace CCoinsViewCache

variable {view : CCoinsViewCache σ}

section

variable (coherent : view.Coherent)

include coherent

variable (outpoint : COutPoint)

theorem fetchCoin_spec :
    ∃ entry read, view.fetchCoin outpoint = (entry, read) ∧ read.own.cacheCoins.lookup outpoint = entry ∧
      entry.bind (fun found => found.coin.unspent) = view.coins outpoint ∧ read.Coherent ∧
      read.toView.levels = view.toView.levels :=
  fetchCoin_of_base coherent (CCoinsView.readsFaithfully coherent.2 outpoint)

theorem haveCoin_spec : ∃ read, view.haveCoin outpoint = ((view.coins outpoint).isSome, read) ∧ read.Coherent ∧
      read.toView.levels = view.toView.levels := by
  obtain ⟨entry, read, fetched, -, value, kept, sameLevels⟩ := fetchCoin_spec coherent outpoint
  refine ⟨read, ?_, kept, sameLevels⟩
  rw [haveCoin, fetched, ← value]
  cases entry with
  | none => rfl
  | some entry => simp

theorem addCoin_spec {outpoint : COutPoint} {coin : Coin} {possible_overwrite : Bool} (unspent : coin.isSpent = false)
    (absent : possible_overwrite = false → view.coins outpoint = none) :
    ∃ added, view.addCoin outpoint coin possible_overwrite = .ok added ∧ added.Coherent ∧ added.base = view.base ∧
      added.coins = if coin.out.scriptPubKey.isUnspendable then view.coins
        else Function.update view.coins outpoint (some coin) := by
  have accepted : (!possible_overwrite && !((view.own.cacheCoins.lookup outpoint).getD {}).coin.isSpent) = false := by
    cases possible_overwrite with
    | true => rfl
    | false => rw [CoinsCache.spent_of_overlay_none (absent rfl)]; rfl
  rw [addCoin, CoinsCache.addCoin, unspent, if_neg Bool.false_ne_true]
  split_ifs with unspendable
  · exact ⟨view, rfl, coherent, rfl, rfl⟩
  dsimp only
  rw [accepted, if_neg Bool.false_ne_true]
  refine ⟨⟨_, view.base⟩, rfl, ⟨?_, coherent.2⟩, rfl, ?_⟩
  · rw [CoinsCache.shown_store]
    apply coherent.1.update
    rintro entry ⟨⟩
    exact ⟨nofun, CoinsCache.below_none_of_fresh coherent.1 absent⟩
  · change overlay (CoinsCache.store _ _ _ 0).shown view.base.coins = _
    rw [CoinsCache.shown_store, overlay_update]
    exact congrArg _ (Coin.unspent_of_not_spent unspent)

theorem spendCoin_spec : ∃ moveout spent, view.spendCoin outpoint = ((view.coins outpoint).isSome, moveout, spent) ∧
      (∀ coin, view.coins outpoint = some coin → moveout = coin) ∧ spent.Coherent ∧
      spent.base.levels = view.base.levels ∧ spent.coins = Function.update view.coins outpoint none := by
  obtain ⟨entry, read, fetched, cached, value, kept, sameLevels⟩ := fetchCoin_spec coherent outpoint
  obtain ⟨sameCoins, sameBase⟩ := List.cons.inj sameLevels
  have sameCoins : read.coins = view.coins := sameCoins
  rw [spendCoin, fetched, ← value, ← sameCoins]
  cases entry with
  | none =>
    refine ⟨{}, read, rfl, nofun, kept, sameBase, ?_⟩
    rw [← Function.update_eq_self outpoint read.coins, sameCoins, ← value, Function.update_idem]
    rfl
  | some entry =>
    obtain ⟨clearedCoherent, cleared⟩ := CoinsCache.clearEntry_spec kept.1 cached
    refine ⟨entry.coin, ⟨read.own.clearEntry outpoint entry, read.base⟩, ?_, ?_, ⟨clearedCoherent, kept.2⟩, sameBase,
      cleared⟩
    · rw [Option.bind_some, Coin.unspent_isSome]
    · intro coin found
      exact (Coin.unspent_eq_some_iff.mp found).2

end

end CCoinsViewCache

/-! ## Flush -/

variable [LawfulBackingView σ]

theorem CCoinsView.batchWrite_spec {view : CCoinsView σ} (coherent : view.Coherent) {mapCoins : CCoinsMap}
    (childCoherent : WriteBack.Coherent mapCoins.shown view.coins) (hashBlock : Uint256)
    (nBestCoinHeight usage : UInt64) :
    ∃ written left leftUsage,
      view.batchWrite mapCoins hashBlock nBestCoinHeight usage = .ok (written, left, leftUsage) ∧
      written.Coherent ∧ Flushed mapCoins.shown view.coins left.shown written.coins ∧
      written.levels = written.coins :: view.levels.tail := by
  cases view with
  | backing view =>
    exact ⟨_, _, _, rfl, trivial,
      LawfulBackingView.batchWrite_flushed view mapCoins hashBlock nBestCoinHeight usage childCoherent, rfl⟩
  | cache own base =>
    obtain ⟨written, left, leftUsage, wrote, kept, flushing⟩ := CoinsCache.writeEntries_spec usage (.start mapCoins)
      coherent.1 (CCoinsMap.flushing_start childCoherent)
    refine ⟨.cache { written with hashBlock, nBestCoinHeight := max written.nBestCoinHeight nBestCoinHeight } base,
      left,
      leftUsage, ?_, ⟨kept, coherent.2⟩, flushing.flushed, rfl⟩
    rw [batchWrite, CoinsCache.batchWrite, wrote]
    rfl

theorem CCoinsViewCache.flush_spec {view : CCoinsViewCache σ} (coherent : view.Coherent) :
    ∃ flushed, view.flush = .ok flushed ∧ flushed.Coherent ∧
      flushed.toView.levels = view.coins :: view.coins :: view.base.levels.tail := by
  obtain ⟨base, left, leftUsage, wrote, kept, flushed, levels⟩ :=
    CCoinsView.batchWrite_spec coherent.2 coherent.1 view.own.hashBlock view.own.nBestCoinHeight
      view.own.cachedCoinsUsage
  refine ⟨⟨{ view.own with cacheCoins := left, cachedCoinsUsage := leftUsage }, base⟩, ?_, ⟨flushed.coherent, kept⟩, ?_⟩
  · rw [flush, wrote]
    rfl
  · change overlay left.shown base.coins :: base.levels = _
    rw [flushed.overlay_eq, levels, flushed.base_eq]
    rfl

end

end Nexa
