import Slucore.Pos.Kernel
import Slucore.Validation.TxVerify
/-!
# Proof of stake — the cache of kernels

`CreateCoinStake` notes for each of its coins the time of the block the coin
is from and its value, and `CheckKernel` tests a note before it looks for the
coin. A note is never renewed. One that passes is followed by the test of the
coin itself; one that fails is the verdict. So the cache changes a verdict
exactly where the first note of the outpoint fails and the coin, moved by a
reorganisation to another block, passes (`checkKernel_cached_iff`).
-/

namespace Slucore

/-- What is read of `pindexPrev`: the stake modifier, the height, and the times
of its chain from the genesis block up. -/
structure StakeTip where
  nHeight : ℕ
  nStakeModifier : UInt256
  times : List ℕ
  length_times : times.length = nHeight + 1

/-- `CStakeCache`. -/
structure CStakeCache where
  blockFromTime : ℕ
  amount : ℤ
deriving DecidableEq

/-- `std::map<COutPoint, CStakeCache>`. -/
abbrev StakeCache := COutPoint → Option CStakeCache

/-- The time of the block that a coin is from, by `GetAncestor`, and the value
of the coin, if it has matured. -/
def StakeTip.maturedStake (pindexPrev : StakeTip) (coinPrev : Coin) : Option CStakeCache :=
  if (pindexPrev.nHeight : ℤ) + 1 - coinPrev.nHeight < coinbaseMaturity then none
  else pindexPrev.times[coinPrev.nHeight]?.map fun nTime => ⟨nTime, coinPrev.out.nValue⟩

/-- A call of `CacheKernel`. -/
structure CacheCall where
  prevout : COutPoint
  pindexPrev : StakeTip
  view : CCoinsViewCache

/-- What the call has to note. -/
def CacheCall.note (call : CacheCall) : Option CStakeCache :=
  (call.view.getCoin call.prevout).bind call.pindexPrev.maturedStake

/-- `CacheKernel`. -/
def cacheKernel (cache : StakeCache) (call : CacheCall) : StakeCache :=
  match cache call.prevout with
  | some _ => cache
  | none =>
    match call.note with
    | none => cache
    | some c => Function.update cache call.prevout (some c)

/-- The cache after a history of calls. -/
def cacheAll (history : List CacheCall) : StakeCache :=
  history.foldl cacheKernel fun _ => none

/-- The arguments of `CheckKernel`, but for the cache. -/
structure KernelQuery where
  pindexPrev : StakeTip
  nBits : UInt32
  nTimeBlock : ℕ
  prevout : COutPoint
  view : CCoinsViewCache

namespace KernelQuery

variable (hash : StakeKernel → Fin (2 ^ 256))
variable (getSpentCoinFromMainChain : StakeTip → COutPoint → Option Coin) (q : KernelQuery)

/-- `CheckStakeKernelHash` for a stake of this time and amount. -/
def passes (stake : CStakeCache) : Bool :=
  (checkStakeKernelHash hash ⟨q.pindexPrev.nStakeModifier, stake.blockFromTime, q.prevout,
    q.nTimeBlock⟩ q.nBits stake.amount).1

/-- The stake that is found without a cache: of a coin of the view, or else of
one that the main chain has spent since the fork. -/
def stake : Option CStakeCache :=
  ((q.view.getCoin q.prevout).or (getSpentCoinFromMainChain q.pindexPrev q.prevout)).bind
    fun coinPrev => if coinPrev.isSpent then none else q.pindexPrev.maturedStake coinPrev

/-- `CheckKernel` where the outpoint is not in the cache. -/
def checkCoin : Bool := (q.stake getSpentCoinFromMainChain).any (q.passes hash)

/-- `CheckKernel`. -/
def checkKernel (cache : StakeCache) : Bool :=
  match cache q.prevout with
  | none => q.checkCoin hash getSpentCoinFromMainChain
  | some note => q.passes hash note && q.checkCoin hash getSpentCoinFromMainChain

end KernelQuery

/-! ## The first note stays -/

/-- The note of an outpoint: that of the first call which has one. -/
def firstNote (history : List CacheCall) (o : COutPoint) : Option CStakeCache :=
  history.findSome? fun call => if call.prevout = o then call.note else none

theorem cacheKernel_apply (cache : StakeCache) (call : CacheCall) (o : COutPoint) :
    cacheKernel cache call o =
      (cache o).or (if call.prevout = o then call.note else none) := by
  unfold cacheKernel
  by_cases ho : call.prevout = o
  · subst ho
    cases hold : cache call.prevout with
    | some note => simp [hold]
    | none => cases hnote : call.note <;> simp [hold]
  · have hother : ∀ c, Function.update cache call.prevout c o = cache o :=
      fun c => Function.update_of_ne (Ne.symm ho) c cache
    cases cache call.prevout <;> cases call.note <;> simp [ho, hother]

/-- **The cache holds the first notes.** -/
theorem cacheAll_apply (history : List CacheCall) (o : COutPoint) :
    cacheAll history o = firstNote history o := by
  have hrun : ∀ cache : StakeCache,
      history.foldl cacheKernel cache o = (cache o).or (firstNote history o) := by
    induction history with
    | nil => simp [firstNote]
    | cons call history ih =>
      intro cache
      rw [List.foldl_cons, ih, cacheKernel_apply, Option.or_assoc, firstNote,
        firstNote, List.findSome?_cons]
      cases (if call.prevout = o then call.note else none) <;> rfl
  rw [cacheAll, hrun, Option.none_or]

variable {hash : StakeKernel → Fin (2 ^ 256)}
variable {getSpentCoinFromMainChain : StakeTip → COutPoint → Option Coin}

/-- A note has to pass before the coin is looked at. -/
theorem KernelQuery.checkKernel_cacheAll (history : List CacheCall) (q : KernelQuery) :
    q.checkKernel hash getSpentCoinFromMainChain (cacheAll history) =
      ((firstNote history q.prevout).all (q.passes hash) &&
        q.checkCoin hash getSpentCoinFromMainChain) := by
  rw [KernelQuery.checkKernel, cacheAll_apply]
  cases firstNote history q.prevout <;> simp

/-- **When the cache is not seen.** For every history of `CacheKernel` calls and
every query, the verdict is that of the empty cache if and only if the first
note of the outpoint passes the test whenever the stake that is found now
does. -/
theorem checkKernel_cached_iff (history : List CacheCall) (q : KernelQuery) :
    q.checkKernel hash getSpentCoinFromMainChain (cacheAll history) =
        q.checkKernel hash getSpentCoinFromMainChain (fun _ => none) ↔
      ∀ note now, firstNote history q.prevout = some note →
        q.stake getSpentCoinFromMainChain = some now →
        q.passes hash now = true → q.passes hash note = true := by
  rw [KernelQuery.checkKernel_cacheAll]
  cases firstNote history q.prevout with
  | none => simp [KernelQuery.checkKernel]
  | some note =>
    cases hnow : q.stake getSpentCoinFromMainChain with
    | none => simp [KernelQuery.checkKernel, KernelQuery.checkCoin, hnow]
    | some now => simp [KernelQuery.checkKernel, KernelQuery.checkCoin, hnow]

/-- So it is not where the coin was noted as it is found now, as on a chain that
was not reorganised below it. -/
theorem KernelQuery.checkKernel_cached_of_eq {history : List CacheCall} {q : KernelQuery}
    (h : ∀ note now, firstNote history q.prevout = some note →
      q.stake getSpentCoinFromMainChain = some now → note = now) :
    q.checkKernel hash getSpentCoinFromMainChain (cacheAll history) =
      q.checkKernel hash getSpentCoinFromMainChain (fun _ => none) := by
  rw [checkKernel_cacheAll]
  change _ = q.checkCoin hash getSpentCoinFromMainChain
  cases hnote : firstNote history q.prevout with
  | none => rfl
  | some note =>
    rw [checkCoin]
    cases hnow : q.stake getSpentCoinFromMainChain with
    | none => exact Bool.and_false _
    | some now =>
      rw [h note now hnote hnow]
      exact Bool.and_self _

/-- A chain of 200 blocks with a block every 16 seconds, which from a height on
come 16 seconds later. -/
def forkedTip (height : ℕ) : StakeTip where
  nHeight := 199
  nStakeModifier := 0
  times := (List.range 200).map fun n => 1600 + 16 * if n < height then n else n + 1
  length_times := by simp

/-- **A note outlives the block it is from.** A coin of height 1 is noted with
the time of its block; the chain is replaced and the coin is then in a block
of another time, with which its kernel passes. The cache rejects it. -/
theorem moved_coin_rejected :
    ¬ ∀ (hash : StakeKernel → Fin (2 ^ 256))
      (getSpentCoinFromMainChain : StakeTip → COutPoint → Option Coin)
      (history : List CacheCall) (q : KernelQuery),
      q.checkKernel hash getSpentCoinFromMainChain (cacheAll history) =
        q.checkKernel hash getSpentCoinFromMainChain (fun _ => none) := by
  intro h
  let view : CCoinsViewCache :=
    .ofBase ⟨fun _ => some ⟨⟨5000, []⟩, false, false, 1⟩, 0, by rintro _ _ ⟨⟩; rfl⟩
  have heq := h (fun kernel => if kernel.blockFromTime = 1632 then 0 else ⟨2 ^ 256 - 1, by decide⟩)
    (fun _ _ => none) [⟨⟨100, 0⟩, forkedTip 200, view⟩]
    ⟨forkedTip 1, 0x1d00ffff, 6400, ⟨100, 0⟩, view⟩
  exact absurd heq (by decide)

end Slucore
