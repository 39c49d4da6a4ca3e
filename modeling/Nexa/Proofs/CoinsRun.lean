import Nexa.Proofs.CoinsStack

/-! # Runs of operations on a stack of caches

The operations of a run either change the coins, and then work on the cache on top, or they are
upkeep: queries, `Uncache`, `Trim` and `Flush` of any view of the stack. The abstract machine keeps
one map of coins for each view. It knows neither entries nor flags, and its flush copies a map down.
-/

namespace Nexa

open WriteBack

/-- Operations that are free at every level of the stack. -/
inductive Upkeep where
  | getCoin (outpoint : COutPoint)
  | haveCoin (outpoint : COutPoint)
  | uncache (outpoint : COutPoint)
  | trim (tableUsage : CCoinsMap → ℕ) (nTrimSize : ℕ)
  | flush
  /-- an operation on the view that backs this cache -/
  | ofBase (op : Upkeep)

inductive CoinsOp where
  /-- a new cache over the current view -/
  | create
  /-- the cache on top goes out of scope, with what it has not flushed -/
  | destroy
  | addCoin (outpoint : COutPoint) (coin : Coin) (possible_overwrite : Bool)
  | spendCoin (outpoint : COutPoint)
  | upkeep (op : Upkeep)

inductive Reply where
  | done
  | coin (found : Option Coin)
  | held (found : Bool)
  | spent (found : Bool) (moveout : Coin)
deriving DecidableEq, Repr

/-! ## The operations on a stack -/

variable {σ : Type} [BackingView σ]

namespace CCoinsView

/-- A backing view has no methods of a cache. -/
def upkeep : Upkeep → CCoinsView σ → Validation (Reply × CCoinsView σ)
  | .getCoin outpoint, view => pure (.coin (view.getCoin outpoint).1, (view.getCoin outpoint).2)
  | .haveCoin outpoint, .cache own base =>
    match CCoinsViewCache.haveCoin ⟨own, base⟩ outpoint with
    | (found, view) => pure (.held found, view.toView)
  | .uncache outpoint, .cache own base => pure (.done, .cache (own.uncache outpoint) base)
  | .trim tableUsage nTrimSize, .cache own base => pure (.done, .cache (own.trim tableUsage nTrimSize) base)
  | .flush, .cache own base => do
    let view ← CCoinsViewCache.flush ⟨own, base⟩
    pure (.done, view.toView)
  | .ofBase op, .cache own base => do
    let (reply, base) ← base.upkeep op
    pure (reply, .cache own base)
  | _, .backing _ => crash

def step : CoinsOp → CCoinsView σ → Validation (Reply × CCoinsView σ)
  | .create, view => pure (.done, .cache {} view)
  | .destroy, .cache _ base => pure (.done, base)
  | .addCoin outpoint coin possible_overwrite, .cache own base => do
    let view ← CCoinsViewCache.addCoin ⟨own, base⟩ outpoint coin possible_overwrite
    pure (.done, view.toView)
  | .spendCoin outpoint, .cache own base =>
    match CCoinsViewCache.spendCoin ⟨own, base⟩ outpoint with
    | (found, moveout, view) => pure (.spent found moveout, view.toView)
  | .upkeep op, view => view.upkeep op
  | _, .backing _ => crash

def run : List CoinsOp → CCoinsView σ → Validation (List Reply × CCoinsView σ)
  | [], view => pure ([], view)
  | op :: ops, view => do
    let (reply, view) ← view.step op
    let (replies, view) ← view.run ops
    pure (reply :: replies, view)

theorem exists_cache {view : CCoinsView σ} (deep : 2 ≤ view.levels.length) : ∃ own base, view = .cache own base := by
  cases view with
  | backing view => cases Nat.not_succ_le_self 1 deep
  | cache own base => exact ⟨own, base, rfl⟩

end CCoinsView

/-! ## The abstract machine -/

namespace Upkeep

/-- The operation is one of the view it is applied to. -/
def Permitted : Upkeep → List Utxo → Prop
  | .getCoin _, levels => levels ≠ []
  | .ofBase op, levels => levels ≠ [] ∧ op.Permitted levels.tail
  | _, levels => 2 ≤ levels.length

def apply : Upkeep → List Utxo → List Utxo
  | .flush, top :: _ :: rest => top :: top :: rest
  | .ofBase op, top :: rest => top :: op.apply rest
  | _, levels => levels

/-- What the reply has to be. `GetCoin` may return a spent coin where there is none. -/
def Answers : Upkeep → List Utxo → Reply → Prop
  | .getCoin outpoint, top :: _, .coin found => found.bind Coin.unspent = top outpoint
  | .haveCoin outpoint, top :: _, .held found => found = (top outpoint).isSome
  | .ofBase op, _ :: rest, reply => op.Answers rest reply
  | .uncache _, _, .done => True
  | .trim _ _, _, .done => True
  | .flush, _, .done => True
  | _, _, _ => False

theorem head?_apply (op : Upkeep) (levels : List Utxo) : (op.apply levels).head? = levels.head? := by
  fun_cases apply op levels <;> rfl

end Upkeep

namespace CoinsOp

/-- Adding needs an unspent coin, and without `possible_overwrite` an outpoint without a coin. -/
def Permitted : CoinsOp → List Utxo → Prop
  | .create, levels => levels ≠ []
  | .addCoin outpoint coin possible_overwrite, levels =>
    2 ≤ levels.length ∧ coin.isSpent = false ∧ (possible_overwrite = false → ∀ top ∈ levels.head?, top outpoint = none)
  | .upkeep op, levels => op.Permitted levels
  | .destroy, levels => 2 ≤ levels.length
  | .spendCoin _, levels => 2 ≤ levels.length

/-- Unspendable coins are not kept. -/
def apply : CoinsOp → List Utxo → List Utxo
  | .create, top :: rest => top :: top :: rest
  | .destroy, _ :: rest => rest
  | .addCoin outpoint coin _, top :: rest =>
    (if coin.out.scriptPubKey.isUnspendable then top else Function.update top outpoint (some coin)) :: rest
  | .spendCoin outpoint, top :: rest => Function.update top outpoint none :: rest
  | .upkeep op, levels => op.apply levels
  | _, [] => []

def Answers : CoinsOp → List Utxo → Reply → Prop
  | .create, _, .done => True
  | .destroy, _, .done => True
  | .addCoin _ _ _, _, .done => True
  | .spendCoin outpoint, top :: _, .spent found moveout =>
    found = (top outpoint).isSome ∧ ∀ coin, top outpoint = some coin → moveout = coin
  | .upkeep op, levels, reply => op.Answers levels reply
  | _, _, _ => False

/-- Every operation of the run is permitted when its turn comes. -/
def AllPermitted : List CoinsOp → List Utxo → Prop
  | [], _ => True
  | op :: ops, levels => op.Permitted levels ∧ AllPermitted ops (op.apply levels)

def AllAnswered : List CoinsOp → List Utxo → List Reply → Prop
  | [], _, [] => True
  | op :: ops, levels, reply :: replies => op.Answers levels reply ∧ AllAnswered ops (op.apply levels) replies
  | _, _, _ => False

def applyAll (ops : List CoinsOp) (levels : List Utxo) : List Utxo :=
  ops.foldl (fun levels op => op.apply levels) levels

end CoinsOp

/-! ## Refinement -/

variable {σ : Type} [BackingView σ] [LawfulBackingView σ]

namespace CCoinsView

theorem upkeep_spec (op : Upkeep) {view : CCoinsView σ} (coherent : view.Coherent)
    (permitted : op.Permitted view.levels) :
    ∃ reply after, view.upkeep op = .ok (reply, after) ∧ after.Coherent ∧ after.levels = op.apply view.levels ∧
      op.Answers view.levels reply := by
  induction op generalizing view with
  | getCoin outpoint =>
    obtain ⟨found, read, answer, shows, kept, same⟩ := readsFaithfully coherent outpoint
    refine ⟨.coin found, read, ?_, kept, same, ?_⟩
    · rw [upkeep, answer]
      rfl
    · cases view with
      | backing view => exact shows
      | cache own base => exact shows
  | haveCoin outpoint =>
    obtain ⟨own, base, rfl⟩ := exists_cache permitted
    obtain ⟨read, answer, kept, same⟩ := @CCoinsViewCache.haveCoin_spec _ _ ⟨own, base⟩ coherent outpoint
    refine ⟨.held (overlay own.shown base.coins outpoint).isSome, read.toView, ?_, kept, same, rfl⟩
    rw [upkeep, answer]
    rfl
  | uncache outpoint =>
    obtain ⟨own, base, rfl⟩ := exists_cache permitted
    obtain ⟨kept, same⟩ := CoinsCache.uncache_spec coherent.1 outpoint
    exact ⟨.done, _, rfl, ⟨kept, coherent.2⟩, congrArg (· :: base.levels) same, trivial⟩
  | trim tableUsage nTrimSize =>
    obtain ⟨own, base, rfl⟩ := exists_cache permitted
    obtain ⟨kept, same⟩ := CoinsCache.trimLoop_spec tableUsage nTrimSize own.cacheCoins.keys coherent.1
    exact ⟨.done, _, rfl, ⟨kept, coherent.2⟩, congrArg (· :: base.levels) same, trivial⟩
  | flush =>
    obtain ⟨own, base, rfl⟩ := exists_cache permitted
    obtain ⟨flushed, wrote, kept, levels⟩ := @CCoinsViewCache.flush_spec _ _ _ ⟨own, base⟩ coherent
    refine ⟨.done, flushed.toView, ?_, kept, ?_, trivial⟩
    · rw [upkeep, wrote]
      rfl
    · rw [levels]
      cases base with
      | backing view => rfl
      | cache own base => rfl
  | ofBase op ih =>
    cases view with
    | backing view =>
      cases op with
      | getCoin outpoint => exact absurd rfl permitted.2
      | ofBase op => exact absurd rfl permitted.2.1
      | _ => cases Nat.not_succ_le_zero 1 permitted.2
    | cache own base =>
      obtain ⟨reply, after, ran, kept, levels, answers⟩ := ih coherent.2 permitted.2
      have sameCoins : after.coins = base.coins := by
        have heads := congrArg List.head? levels
        rwa [Upkeep.head?_apply, head?_levels, head?_levels, Option.some_inj] at heads
      refine ⟨reply, .cache own after, ?_, ⟨?_, kept⟩, ?_, answers⟩
      · rw [upkeep, ran]
        rfl
      · rw [sameCoins]
        exact coherent.1
      · rw [CCoinsView.levels, sameCoins, levels]
        rfl

theorem step_spec (op : CoinsOp) {view : CCoinsView σ} (coherent : view.Coherent)
    (permitted : op.Permitted view.levels) :
    ∃ reply after, view.step op = .ok (reply, after) ∧ after.Coherent ∧ after.levels = op.apply view.levels ∧
      op.Answers view.levels reply := by
  cases op with
  | upkeep op => exact upkeep_spec op coherent permitted
  | create =>
    refine ⟨.done, .cache {} view, rfl, ⟨Coherent.empty view.coins, coherent⟩, ?_, trivial⟩
    cases view with
    | backing view => rfl
    | cache own base => rfl
  | destroy =>
    obtain ⟨own, base, rfl⟩ := exists_cache permitted
    exact ⟨.done, base, rfl, coherent.2, rfl, trivial⟩
  | addCoin outpoint coin possible_overwrite =>
    obtain ⟨own, base, rfl⟩ := exists_cache permitted.1
    obtain ⟨added, ran, kept, sameBase, sees⟩ := @CCoinsViewCache.addCoin_spec _ _ ⟨own, base⟩ coherent outpoint
      coin possible_overwrite permitted.2.1 fun guarded => permitted.2.2 guarded _ rfl
    refine ⟨.done, added.toView, ?_, kept, ?_, trivial⟩
    · rw [step, ran]
      rfl
    · change added.coins :: added.base.levels = _
      rw [sees, sameBase]
      rfl
  | spendCoin outpoint =>
    obtain ⟨own, base, rfl⟩ := exists_cache permitted
    obtain ⟨moveout, spent, ran, moved, kept, sameBase, sees⟩ :=
      @CCoinsViewCache.spendCoin_spec _ _ ⟨own, base⟩ coherent outpoint
    refine ⟨.spent (overlay own.shown base.coins outpoint).isSome moveout, spent.toView, ?_, kept, ?_, rfl, moved⟩
    · rw [step, ran]
      rfl
    · change spent.coins :: spent.base.levels = _
      rw [sees, sameBase]
      rfl

theorem run_spec (ops : List CoinsOp) {view : CCoinsView σ} (coherent : view.Coherent)
    (permitted : CoinsOp.AllPermitted ops view.levels) :
    ∃ replies after, view.run ops = .ok (replies, after) ∧ after.Coherent ∧
      after.levels = CoinsOp.applyAll ops view.levels ∧ CoinsOp.AllAnswered ops view.levels replies := by
  induction ops generalizing view with
  | nil => exact ⟨[], view, rfl, coherent, rfl, trivial⟩
  | cons op ops ih =>
    obtain ⟨reply, next, stepped, kept, levels, answers⟩ := step_spec op coherent permitted.1
    have remaining : CoinsOp.AllPermitted ops next.levels := by
      rw [levels]
      exact permitted.2
    obtain ⟨replies, after, ran, coherentAfter, levelsAfter, answered⟩ := ih kept remaining
    rw [levels] at levelsAfter answered
    refine ⟨reply :: replies, after, ?_, coherentAfter, levelsAfter, answers, answered⟩
    rw [run, stepped]
    simp only [bind, Except.bind, ran]
    rfl

end CCoinsView

/-- Caches over any lawful backing view refine the maps of coins, over every run of operations. -/
theorem coinsRun_refines_overlay (view : σ) (ops : List CoinsOp)
    (permitted : CoinsOp.AllPermitted ops [BackingView.coins view]) :
    ∃ replies after, (CCoinsView.backing view).run ops = .ok (replies, after) ∧
      CoinsOp.AllAnswered ops [BackingView.coins view] replies ∧
      after.levels = CoinsOp.applyAll ops [BackingView.coins view] := by
  obtain ⟨replies, after, ran, -, levels, answered⟩ := @CCoinsView.run_spec _ _ _ ops (.backing view) trivial permitted
  exact ⟨replies, after, ran, answered, levels⟩

def sampleCoin : Coin := Coin.ofTxOut ⟨0, 7, [0x51]⟩ 5 false

def sampleDataCoin : Coin := Coin.ofTxOut ⟨0, 0, [0x6a]⟩ 5 false

def sampleDB : CCoinsViewDB := { coins := AList.singleton ⟨1⟩ sampleCoin }

def sampleOps : List CoinsOp :=
  [.create, .create, .spendCoin ⟨1⟩, .addCoin ⟨2⟩ sampleCoin false, .upkeep .flush, .upkeep (.ofBase .flush),
    .upkeep (.getCoin ⟨1⟩), .upkeep (.ofBase (.haveCoin ⟨2⟩)), .destroy, .upkeep (.uncache ⟨2⟩)]

theorem coinsRun_refines_overlay_sample : CoinsOp.AllPermitted sampleOps [BackingView.coins sampleDB] ∧
    ∃ replies after, (CCoinsView.backing sampleDB).run sampleOps = .ok (replies, after) ∧
      CoinsOp.AllAnswered sampleOps [BackingView.coins sampleDB] replies ∧
      after.levels = CoinsOp.applyAll sampleOps [BackingView.coins sampleDB] := by
  have permitted : CoinsOp.AllPermitted sampleOps [BackingView.coins sampleDB] := by
    simp [sampleOps, CoinsOp.AllPermitted, CoinsOp.Permitted, Upkeep.Permitted]
    decide
  exact ⟨permitted, coinsRun_refines_overlay sampleDB sampleOps permitted⟩

/-- After a spend the map has no coin, and yet `GetCoin` finds a spent one. After an unspendable coin
was added the map with it has a coin, and yet `HaveCoin` denies it. -/
theorem coinsRun_reply_differs :
    (((CCoinsView.backing sampleDB).run [.create, .spendCoin ⟨1⟩, .upkeep (.getCoin ⟨1⟩)]).map Prod.fst =
        .ok [.done, .spent true sampleCoin, .coin (some {})] ∧
      Function.update (BackingView.coins sampleDB) ⟨1⟩ none ⟨1⟩ = none) ∧
    (((CCoinsView.backing sampleDB).run [.create, .addCoin ⟨2⟩ sampleDataCoin false,
          .upkeep (.haveCoin ⟨2⟩)]).map Prod.fst = .ok [.done, .done, .held false] ∧
      Function.update (BackingView.coins sampleDB) ⟨2⟩ (some sampleDataCoin) ⟨2⟩ = some sampleDataCoin) :=
  ⟨⟨rfl, by simp⟩, rfl, by simp⟩

end Nexa
