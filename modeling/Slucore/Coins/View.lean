import Slucore.Primitives.Block
import Slucore.Primitives.Failure
/-!
# Coins — the cache over a coin view

`CCoinsViewCache` as the source has it: a map of entries with a DIRTY
and a FRESH flag over a base view. Reading a coin of the base puts it in
the cache unflagged; that copy is observable only as memory, so reads
are functions of the view here and leave it as it is. What a view means
is the function `getCoin`; that the flags never distort it is the
subject of the next file.
-/


namespace Slucore

/-- `Coin`: an unspent output, with the height and the kind of the
transaction that created it. A spent coin has a null output. -/
structure Coin where
  out : CTxOut
  fCoinBase : Bool
  fCoinStake : Bool
  nHeight : ℕ
deriving DecidableEq, Repr

namespace Coin

/-- The constructor; the height is a field of 30 bits. -/
def make (out : CTxOut) (nHeight : ℕ) (fCoinBase fCoinStake : Bool) : Coin :=
  ⟨out, fCoinBase, fCoinStake, nHeight % 2 ^ 30⟩

/-- `Coin::Clear`, and the default-constructed coin. -/
def cleared : Coin := ⟨CTxOut.null, false, false, 0⟩

/-- `Coin::IsSpent`. -/
def isSpent (c : Coin) : Bool := c.out.isNull

end Coin

/-- What a cache reads of the view below it: `GetCoin`, which answers
with unspent coins only, and `GetBestBlock`. -/
structure CCoinsView where
  getCoin : COutPoint → Option Coin
  bestBlock : UInt256
  unspent : ∀ o c, getCoin o = some c → c.isSpent = false

theorem CCoinsView.unspent_none (o : COutPoint) (c : Coin)
    (h : (fun _ : COutPoint => none) o = some c) : c.isSpent = false := by
  cases h

/-- `CCoinsCacheEntry`. -/
structure CCoinsCacheEntry where
  coin : Coin
  dirty : Bool
  fresh : Bool
deriving DecidableEq, Repr

/-- `CCoinsViewCache`. -/
structure CCoinsViewCache where
  base : CCoinsView
  cacheCoins : COutPoint → Option CCoinsCacheEntry
  hashBlock : UInt256

namespace CCoinsViewCache

variable (H : Hashes) (view : CCoinsViewCache)

/-- A cache just constructed over `base`. -/
def ofBase (base : CCoinsView) : CCoinsViewCache := ⟨base, fun _ => none, 0⟩

/-- `CCoinsViewCache::FetchCoin`. -/
def fetchCoin (o : COutPoint) : Option CCoinsCacheEntry :=
  match view.cacheCoins o with
  | some e => some e
  | none => (view.base.getCoin o).map fun c => ⟨c, false, c.isSpent⟩

/-- `CCoinsViewCache::GetCoin`. -/
def getCoin (o : COutPoint) : Option Coin :=
  match view.fetchCoin o with
  | some e => if e.coin.isSpent then none else some e.coin
  | none => none

/-- `CCoinsViewCache::AccessCoin`, with the empty coin for a missing one. -/
def accessCoin (o : COutPoint) : Coin :=
  match view.fetchCoin o with
  | some e => e.coin
  | none => Coin.cleared

/-- `CCoinsViewCache::HaveCoin`. -/
def haveCoin (o : COutPoint) : Bool :=
  match view.fetchCoin o with
  | some e => !e.coin.isSpent
  | none => false

/-- `CCoinsViewCache::GetBestBlock`. -/
def getBestBlock : UInt256 := if view.hashBlock = 0 then view.base.bestBlock else view.hashBlock

/-- `CCoinsViewCache::SetBestBlock`. -/
def setBestBlock (hash : UInt256) : CCoinsViewCache := { view with hashBlock := hash }

/-- The view with the cache entry of `o` replaced, or erased. -/
def setEntry (o : COutPoint) (entry : Option CCoinsCacheEntry) : CCoinsViewCache :=
  { view with cacheCoins := Function.update view.cacheCoins o entry }

/-- `CCoinsViewCache::AddCoin`. An entry made on the spot holds a spent
coin and no flag. -/
def addCoin (o : COutPoint) (coin : Coin) (possibleOverwrite : Bool) :
    Except Failure CCoinsViewCache :=
  if coin.isSpent then .error (.fatal "assert(!coin.IsSpent())")
  else if coin.out.scriptPubKey.isUnspendable then .ok view
  else
    let old := (view.cacheCoins o).getD ⟨Coin.cleared, false, false⟩
    if !possibleOverwrite && !old.coin.isSpent then
      .error (.fatal "Adding new coin that replaces non-pruned entry")
    else
      let fresh := !possibleOverwrite && !old.dirty
      .ok (view.setEntry o (some ⟨coin, true, old.fresh || fresh⟩))

/-- `CCoinsViewCache::SpendCoin`: the coin moved out and the view without
it; `none` is the answer `false`. An entry that is there but spent is
moved out as it is. -/
def spendCoin (o : COutPoint) : Option (Coin × CCoinsViewCache) :=
  match view.fetchCoin o with
  | none => none
  | some e =>
    some (e.coin, view.setEntry o (if e.fresh then none else some ⟨Coin.cleared, true, false⟩))

/-- `CCoinsViewCache::GetValueIn`. -/
def getValueIn (tx : CTransaction) : ℤ :=
  if tx.isCoinBase then 0
  else tx.vin.foldl (fun nResult i => wrap64 (nResult + (view.accessCoin i.prevout).out.nValue)) 0

/-- `CCoinsViewCache::HaveInputs`. -/
def haveInputs (tx : CTransaction) : Bool :=
  tx.isCoinBase || tx.vin.all fun i => view.haveCoin i.prevout

/-- One turn of the loop of `AddCoins`. -/
def addOutput (txid : UInt256) (nHeight : ℕ) (fCoinbase fCoinstake : Bool)
    (v : CCoinsViewCache) (p : CTxOut × ℕ) : Except Failure CCoinsViewCache :=
  v.addCoin ⟨txid, p.2⟩ (Coin.make p.1 nHeight fCoinbase fCoinstake) fCoinbase

/-- `AddCoins`, in the form block connection calls it (`check` false). -/
def addCoins (tx : CTransaction) (nHeight : ℕ) : Except Failure CCoinsViewCache :=
  tx.vout.zipIdx.foldlM
    (addOutput (tx.getHash H) nHeight tx.isCoinBase tx.isCoinStake) view

/-- One turn of the loop of `UpdateCoins` over the inputs; the undo record
grows at its end. -/
def spendInput (s : CCoinsViewCache × List Coin) (i : CTxIn) :
    Except Failure (CCoinsViewCache × List Coin) :=
  match s.1.spendCoin i.prevout with
  | none => .error (.fatal "assert(is_spent)")
  | some (c, v) => .ok (v, s.2 ++ [c])

/-- The inputs' part of `UpdateCoins`: the view without the spent coins,
and the coins moved to the undo record (`CTxUndo::vprevout`). -/
def spendInputs (tx : CTransaction) : Except Failure (CCoinsViewCache × List Coin) :=
  if tx.isCoinBase then .ok (view, [])
  else tx.vin.foldlM spendInput (view, [])

/-- `UpdateCoins`. -/
def updateCoins (tx : CTransaction) (nHeight : ℕ) :
    Except Failure (CCoinsViewCache × List Coin) := do
  let (v, vprevout) ← view.spendInputs tx
  let v' ← v.addCoins H tx nHeight
  return (v', vprevout)

end CCoinsViewCache

end Slucore
