import Slucore.Validation.ConnectBlock
/-!
# Validation — undo records and disconnecting a block

The undo record of a block as it is written to disk and read back, and
`DisconnectBlock`, which takes the outputs of a block out of a view and
puts the coins it spent back, last transaction first.
-/


namespace Slucore

/-- A coin in an undo record (`TxInUndoSerializer`): the height and the two
flags share one number, and a dummy version stands beside a height that
is not zero. The output's compression is lossless and left out. -/
structure TxInUndo where
  nCode : ℕ
  version : Option ℕ
  out : CTxOut
deriving DecidableEq, Repr

/-- `TxInUndoSerializer::Serialize`, in 32-bit arithmetic. -/
def Coin.toUndo (c : Coin) : TxInUndo where
  nCode := (4 * c.nHeight + (if c.fCoinStake then 2 else 0) + (if c.fCoinBase then 1 else 0)) %
    2 ^ 32
  version := if 0 < c.nHeight then some 0 else none
  out := c.out

/-- `TxInUndoDeserializer::Unserialize`. -/
def TxInUndo.toCoin (u : TxInUndo) : Coin where
  out := u.out
  fCoinBase := u.nCode % 2 == 1
  fCoinStake := u.nCode / 2 % 2 == 1
  nHeight := u.nCode / 4

/-- **A coin read back is the coin written**, for heights of 30 bits. -/
theorem Coin.toCoin_toUndo {c : Coin} (h : c.nHeight < 2 ^ 30) : c.toUndo.toCoin = c := by
  obtain ⟨out, cb, cs, height⟩ := c
  simp only at h
  cases cb <;> cases cs <;>
    simp only [Coin.toUndo, TxInUndo.toCoin, Bool.false_eq_true, if_false, if_true, add_zero,
      Coin.mk.injEq, true_and]
  · refine ⟨?_, ?_, by omega⟩ <;> simp <;> omega
  · refine ⟨?_, ?_, by omega⟩ <;> simp <;> omega
  · refine ⟨?_, ?_, by omega⟩ <;> simp <;> omega
  · refine ⟨?_, ?_, by omega⟩ <;> simp <;> omega

/-- The undo record of a block, as `WriteUndoDataForBlock` stores it. -/
def writeUndo (vtxundo : List (List Coin)) : List (List TxInUndo) :=
  vtxundo.map fun vprevout => vprevout.map Coin.toUndo

/-- `MAX_INPUTS_PER_BLOCK`, from the weight limit at start-up and the 41 bytes of
an empty input. -/
def maxInputsPerBlock : ℕ := 8000000 / (4 * 41)

/-- The undo record of a block, as `UndoReadFromDisk` returns it; `none` for
"Too many input undo records". -/
def readUndo (stored : List (List TxInUndo)) : Option (List (List Coin)) :=
  if stored.all (·.length ≤ maxInputsPerBlock) then
    some (stored.map fun vprevout => vprevout.map TxInUndo.toCoin)
  else none

/-- `DisconnectResult`. -/
inductive DisconnectResult where
  | ok | unclean | failed
deriving DecidableEq, Repr

namespace CCoinsViewCache

variable (view : CCoinsViewCache)

/-- `MAX_OUTPUTS_PER_BLOCK`. -/
def maxOutputsPerBlock : ℕ := 8000000 / 36

/-- `AccessByTxid`: the first unspent output of a transaction. -/
def accessByTxid (txid : UInt256) : Coin :=
  (((List.range maxOutputsPerBlock).find? fun n => !(view.accessCoin ⟨txid, n⟩).isSpent).map
    fun n => view.accessCoin ⟨txid, n⟩).getD Coin.cleared

/-- The coin `ApplyTxInUndo` restores. A record without height takes it from
another output of the transaction; `none` when there is none. -/
def undoCoin (undo : Coin) (o : COutPoint) : Option Coin :=
  if undo.nHeight = 0 then
    let alternate := view.accessByTxid o.hash
    if alternate.isSpent then none
    else some { undo with nHeight := alternate.nHeight, fCoinBase := alternate.fCoinBase }
  else some undo

/-- `ApplyTxInUndo`: the view and whether no coin was in the way. The result
`DISCONNECT_FAILED` is the error. -/
def applyTxInUndo (undo : Coin) (o : COutPoint) : Except Failure (CCoinsViewCache × Bool) := do
  let fClean := !view.haveCoin o
  let coin ← orThrow (view.undoCoin undo o) (.error "DISCONNECT_FAILED")
  let v ← view.addCoin o coin (!fClean)
  return (v, fClean)

end CCoinsViewCache

/-- One turn of the loop of `DisconnectBlock` over the outputs of a
transaction: the output is spent, and `fClean` stays only when it is the
coin the transaction created. -/
def takeOutput (txid : UInt256) (nHeight : ℕ) (isCoinbase isCoinstake : Bool)
    (s : CCoinsViewCache × Bool) (p : CTxOut × ℕ) : CCoinsViewCache × Bool :=
  if p.1.scriptPubKey.isUnspendable then s
  else
    match s.1.spendCoin ⟨txid, p.2⟩ with
    | none => (s.1, false)
    | some (coin, v) => (v, s.2 && p.1 == coin.out && nHeight == coin.nHeight &&
        isCoinbase == coin.fCoinBase && isCoinstake == coin.fCoinStake)

/-- One turn of the loop of `DisconnectBlock` over the inputs. -/
def restoreInput (s : CCoinsViewCache × Bool) (p : CTxIn × Coin) :
    Except Failure (CCoinsViewCache × Bool) := do
  let (v, clean) ← s.1.applyTxInUndo p.2 p.1.prevout
  return (v, s.2 && clean)

variable (H : Hashes) (N : Node)

/-- One turn of the loop of `DisconnectBlock`; the first transaction of a
block has no undo record. -/
def disconnectTx (nHeight : ℕ) (s : CCoinsViewCache × Bool)
    (p : CTransaction × Option (List Coin)) : Except Failure (CCoinsViewCache × Bool) :=
  let tx := p.1
  let s := tx.vout.zipIdx.foldl
    (takeOutput (tx.getHash H) nHeight tx.isCoinBase tx.isCoinStake) s
  match p.2 with
  | none => .ok s
  | some vprevout => do
    require (vprevout.length == tx.vin.length)
      (.error "DisconnectBlock(): transaction and undo data inconsistent")
    (tx.vin.zip vprevout).reverse.foldlM restoreInput s

/-- What a block that was disconnected leaves. -/
structure Disconnected where
  fClean : Bool
  view : CCoinsViewCache
  aal : AalState

/-- The value `DisconnectBlock` returns. -/
def Disconnected.result (d : Disconnected) : DisconnectResult :=
  if d.fClean then .ok else .unclean

/-- `DisconnectBlock`, with the undo record of the block as it is stored. -/
def disconnectBlock (block : CBlock) (pindex pprev : CBlockIndex)
    (stored : Option (List (List TxInUndo))) (view : CCoinsViewCache) (aal : AalState) :
    Except Failure Disconnected := do
  require (pindex.blockHash == view.getBestBlock)
    (.fatal "assert(pindex->GetBlockHash() == view.GetBestBlock())")
  let vtxundo ← orThrow (stored.bind readUndo)
    (.error "DisconnectBlock(): failure reading undo data")
  require (vtxundo.length + 1 == block.vtx.length)
    (.error "DisconnectBlock(): block and undo data inconsistent")
  let (view, fClean) ← (block.vtx.zip (none :: vtxundo.map some)).reverse.foldlM
    (disconnectTx H pindex.nHeight) (view, true)
  return ⟨fClean, view.setBestBlock pprev.blockHash,
    { aal with state := aal.state.setRoots N pprev.hashStateRoot pprev.hashUTXORoot }⟩

end Slucore
