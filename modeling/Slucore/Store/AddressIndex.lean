import Slucore.Common.Batch
import Slucore.Primitives.Destination
import Slucore.Validation.Undo
/-!
# Store — the address indexes

With `fAddressIndex` the node keeps three more indexes: what every address
received and spent, its unspent outputs, and for every outpoint the input
that spent it. `ConnectBlock` and `DisconnectBlock` gather their writes in
vectors while they go through the transactions and write them at the end;
the vectors are modelled beside the loops that were modelled before, over
the views these loops go through.
-/


namespace Slucore

/-! ## Keys and values -/

/-- The type of a destination and its bytes, filled up to 32. -/
structure IndexAddress where
  type : ℕ
  hashBytes : List UInt8
deriving DecidableEq, Repr

/-- `CAddressIndexKey`. -/
structure CAddressIndexKey extends IndexAddress where
  blockHeight : ℕ
  txindex : ℕ
  txhash : UInt256
  index : ℕ
  spending : Bool
deriving DecidableEq, Repr

/-- `CAddressUnspentKey`. -/
structure CAddressUnspentKey extends IndexAddress where
  txhash : UInt256
  index : ℕ
deriving DecidableEq, Repr

/-- `CAddressUnspentValue`. -/
structure CAddressUnspentValue where
  satoshis : ℤ
  script : CScript
  blockHeight : ℕ
  coinStake : Bool
deriving DecidableEq, Repr

/-- `CAddressUnspentValue::SetNull`. -/
def CAddressUnspentValue.null : CAddressUnspentValue := ⟨-1, [], 0, false⟩

/-- `CAddressUnspentValue::IsNull`. -/
def CAddressUnspentValue.isNull (v : CAddressUnspentValue) : Bool := v.satoshis == -1

/-- `CSpentIndexKey`. -/
structure CSpentIndexKey where
  txid : UInt256
  outputIndex : ℕ
deriving DecidableEq, Repr

/-- `CSpentIndexValue`. -/
structure CSpentIndexValue where
  txid : UInt256
  inputIndex : ℕ
  blockHeight : ℕ
  satoshis : ℤ
  addressType : ℕ
  addressHash : List UInt8
deriving DecidableEq, Repr

/-- `CSpentIndexValue::IsNull`. -/
def CSpentIndexValue.isNull (v : CSpentIndexValue) : Bool := v.txid == 0

/-- The address that a destination is indexed under; none without bytes. -/
def CTxDestination.indexAddress (dest : CTxDestination) : Option IndexAddress :=
  if dest.data.isEmpty then none
  else some ⟨dest.which, dest.data ++ List.replicate (32 - dest.data.length) 0⟩

/-! ## The database -/

/-- What is gathered in a loop. -/
structure AddressVectors where
  addressIndex : List (CAddressIndexKey × ℤ)
  addressUnspentIndex : List (CAddressUnspentKey × CAddressUnspentValue)
  spentIndex : List (CSpentIndexKey × CSpentIndexValue)

namespace AddressVectors

def empty : AddressVectors := ⟨[], [], []⟩

@[simps]
def append (v w : AddressVectors) : AddressVectors :=
  ⟨v.addressIndex ++ w.addressIndex, v.addressUnspentIndex ++ w.addressUnspentIndex,
    v.spentIndex ++ w.spentIndex⟩

@[simp] theorem append_empty (v : AddressVectors) : v.append empty = v := by
  simp [append, empty]

theorem append_assoc (u v w : AddressVectors) : (u.append v).append w = u.append (v.append w) := by
  simp [append]

end AddressVectors

/-- The three indexes, as `CBlockTreeDB` holds them. -/
@[ext]
structure AddressDB where
  addressIndex : CAddressIndexKey → Option ℤ
  addressUnspentIndex : CAddressUnspentKey → Option CAddressUnspentValue
  spentIndex : CSpentIndexKey → Option CSpentIndexValue

/-- A value as it is written: a null value erases. -/
def CAddressUnspentValue.written (v : CAddressUnspentValue) : Option CAddressUnspentValue :=
  if v.isNull then none else some v

def CSpentIndexValue.written (v : CSpentIndexValue) : Option CSpentIndexValue :=
  if v.isNull then none else some v

namespace AddressDB

variable (db : AddressDB)

/-- `CBlockTreeDB::WriteAddressIndex`. -/
def writeAddressIndex (vect : List (CAddressIndexKey × ℤ)) : AddressDB :=
  { db with addressIndex := applyBatch db.addressIndex (vect.map fun p => (p.1, some p.2)) }

/-- `CBlockTreeDB::EraseAddressIndex`. -/
def eraseAddressIndex (vect : List (CAddressIndexKey × ℤ)) : AddressDB :=
  { db with addressIndex := applyBatch db.addressIndex (vect.map fun p => (p.1, none)) }

/-- `CBlockTreeDB::UpdateAddressUnspentIndex`. -/
def updateAddressUnspentIndex (vect : List (CAddressUnspentKey × CAddressUnspentValue)) :
    AddressDB :=
  { db with addressUnspentIndex :=
      applyBatch db.addressUnspentIndex (vect.map fun p => (p.1, p.2.written)) }

/-- `CBlockTreeDB::UpdateSpentIndex`. -/
def updateSpentIndex (vect : List (CSpentIndexKey × CSpentIndexValue)) : AddressDB :=
  { db with spentIndex := applyBatch db.spentIndex (vect.map fun p => (p.1, p.2.written)) }

/-- The writes at the end of `ConnectBlock`. -/
def writeConnected (v : AddressVectors) : AddressDB :=
  ((db.writeAddressIndex v.addressIndex).updateAddressUnspentIndex
    v.addressUnspentIndex).updateSpentIndex v.spentIndex

/-- The writes at the end of `DisconnectBlock`. -/
def writeDisconnected (v : AddressVectors) : AddressDB :=
  (db.eraseAddressIndex v.addressIndex).updateAddressUnspentIndex v.addressUnspentIndex

end AddressDB

/-! ## What is gathered of a transaction -/

/-- An input of a transaction whose coin has an address. -/
structure InputEntry where
  prevout : COutPoint
  /-- Its place among the inputs. -/
  j : ℕ
  coin : Coin
  address : IndexAddress
deriving DecidableEq, Repr

/-- An output of a transaction that has an address. -/
structure OutputEntry where
  k : ℕ
  out : CTxOut
  address : IndexAddress
deriving DecidableEq, Repr

/-- A transaction in its block, with the hash it has. -/
structure IndexedTx where
  tx : CTransaction
  hash : UInt256
  nHeight : ℕ
  /-- Its place in the block. -/
  i : ℕ

/-- `ExtractDestination`, with the outpoint that the address of a created
contract is made of. -/
abbrev Extractor : Type := COutPoint → CScript → Option CTxDestination

def Extractor.address (X : Extractor) (o : COutPoint) (scriptPubKey : CScript) :
    Option IndexAddress :=
  (X o scriptPubKey).bind CTxDestination.indexAddress

def InputEntry.of (X : Extractor) (prevout : COutPoint) (coin : Coin) (j : ℕ) : Option InputEntry :=
  (X.address prevout coin.out.scriptPubKey).map fun address => ⟨prevout, j, coin, address⟩

namespace IndexedTx

variable (X : Extractor) (t : IndexedTx)

def outputs : List OutputEntry :=
  t.tx.vout.zipIdx.filterMap fun p =>
    (X.address ⟨t.hash, p.2⟩ p.1.scriptPubKey).map fun address => ⟨p.2, p.1, address⟩

/-- The key of an output received, or of an input spent. -/
def indexKey (address : IndexAddress) (index : ℕ) (spending : Bool) : CAddressIndexKey :=
  ⟨address, t.nHeight, t.i, t.hash, index, spending⟩

def outputKey (e : OutputEntry) : CAddressUnspentKey := ⟨e.address, t.hash, e.k⟩

/-- The inputs whose coins have an address. -/
def inputs (coins : List Coin) : List InputEntry :=
  (t.tx.vin.zip coins).zipIdx.filterMap fun p => InputEntry.of X p.1.1.prevout p.1.2 p.2

end IndexedTx

namespace InputEntry

variable (e : InputEntry)

def unspentKey : CAddressUnspentKey := ⟨e.address, e.prevout.hash, e.prevout.n⟩

def spentKey : CSpentIndexKey := ⟨e.prevout.hash, e.prevout.n⟩

/-- The value that the spent index gets. -/
def spentValue (t : IndexedTx) : CSpentIndexValue :=
  ⟨t.hash, e.j, t.nHeight, e.coin.out.nValue, e.address.type, e.address.hashBytes⟩

/-- The value that the unspent index gets back: the flag is that of the
transaction that spent the coin. -/
def restoredValue (t : IndexedTx) : CAddressUnspentValue :=
  ⟨e.coin.out.nValue, e.coin.out.scriptPubKey, e.coin.nHeight, t.tx.isCoinStake⟩

end InputEntry

namespace IndexedTx

variable (X : Extractor) (t : IndexedTx)

/-- What `ConnectBlock` gathers at the inputs. -/
@[simps]
def spending (e : InputEntry) : AddressVectors where
  addressIndex := [(t.indexKey e.address e.j true, -e.coin.out.nValue)]
  addressUnspentIndex := [(e.unspentKey, .null)]
  spentIndex := [(e.spentKey, e.spentValue t)]

/-- What `ConnectBlock` gathers at the outputs. -/
@[simps]
def receiving (e : OutputEntry) : AddressVectors where
  addressIndex := [(t.indexKey e.address e.k false, e.out.nValue)]
  addressUnspentIndex :=
    [(t.outputKey e, ⟨e.out.nValue, e.out.scriptPubKey, t.nHeight, t.tx.isCoinStake⟩)]
  spentIndex := []

/-- What `DisconnectBlock` gathers at the outputs. -/
@[simps]
def undoReceiving (e : OutputEntry) : AddressVectors where
  addressIndex := [(t.indexKey e.address e.k false, e.out.nValue)]
  addressUnspentIndex := [(t.outputKey e, .null)]
  spentIndex := []

/-- What `DisconnectBlock` gathers at the inputs. -/
@[simps]
def undoSpending (e : InputEntry) : AddressVectors where
  addressIndex := [(t.indexKey e.address e.j true, -e.coin.out.nValue)]
  addressUnspentIndex := [(e.unspentKey, e.restoredValue t)]
  spentIndex := []

end IndexedTx

/-- The vectors of a list of entries. -/
def gather {α : Type} (f : α → AddressVectors) (l : List α) : AddressVectors :=
  l.foldr (fun e v => (f e).append v) .empty

section Gather

variable {α β : Type} (f : α → AddressVectors)

theorem gather_cons (e : α) (l : List α) : gather f (e :: l) = (f e).append (gather f l) := rfl

theorem gather_map (g : β → α) (l : List β) : gather f (l.map g) = gather (fun b => f (g b)) l := by
  induction l with
  | nil => rfl
  | cons b l ih => rw [List.map_cons, gather_cons, gather_cons, ih]

theorem gather_filterMap (g : β → Option α) (l : List β) :
    gather f (l.filterMap g) = gather (fun b => gather f (g b).toList) l := by
  induction l with
  | nil => rfl
  | cons b l ih =>
    rw [List.filterMap_cons, gather_cons, ← ih]
    cases g b with
    | none => rfl
    | some a => simp [gather]

@[simp] theorem addressIndex_gather (l : List α) :
    (gather f l).addressIndex = l.flatMap fun e => (f e).addressIndex := by
  induction l with
  | nil => rfl
  | cons e l ih => rw [List.flatMap_cons, ← ih]; rfl

@[simp] theorem addressUnspentIndex_gather (l : List α) :
    (gather f l).addressUnspentIndex = l.flatMap fun e => (f e).addressUnspentIndex := by
  induction l with
  | nil => rfl
  | cons e l ih => rw [List.flatMap_cons, ← ih]; rfl

@[simp] theorem spentIndex_gather (l : List α) :
    (gather f l).spentIndex = l.flatMap fun e => (f e).spentIndex := by
  induction l with
  | nil => rfl
  | cons e l ih => rw [List.flatMap_cons, ← ih]; rfl

end Gather

/-! ## The loops -/

variable (H : Hashes) (X : Extractor) (N : Node)

/-- A transaction of a block with its inputs, from the coins it spends. -/
def indexedTx (nHeight : ℕ) (p : (CTransaction × List Coin) × ℕ) : IndexedTx × List InputEntry :=
  let t : IndexedTx := ⟨p.1.1, p.1.1.getHash H, nHeight, p.2⟩
  (t, t.inputs X p.1.2)

/-- The transactions of a block, as the loop of `ConnectBlock` meets them. -/
def indexedBlock (nHeight : ℕ) (view : CCoinsViewCache) (vtx : List CTransaction) (k : ℕ) :
    List (IndexedTx × List InputEntry) :=
  ((vtx.zip (spentCoins H nHeight view vtx)).zipIdx k).map (indexedTx H X nHeight)

/-- What a turn of the loop of `ConnectBlock` gathers. -/
def connectVectors (p : IndexedTx × List InputEntry) : AddressVectors :=
  (gather p.1.spending p.2).append (gather p.1.receiving (p.1.outputs X))

/-- `ConnectBlock` with the address indexes, of a block that is not the
genesis block. -/
def connectBlockIndexed (lim : BlockLimits) (block : CBlock) (pindex pprev : CBlockIndex)
    (view : CCoinsViewCache) (aal : AalState) (db : AddressDB) :
    Except Failure (Connected × AddressDB) := do
  let c ← connectBlock H N lim block pindex (some pprev) view aal false
  return (c, db.writeConnected
    (gather (connectVectors X) (indexedBlock H X pindex.nHeight view block.vtx 0)))

/-- One turn of the loop of `DisconnectBlock` over the inputs. The output is
read from the view after it was restored, the height from the record. -/
def restoreInputIndexed (t : IndexedTx) (s : (CCoinsViewCache × Bool) × AddressVectors)
    (p : (CTxIn × Coin) × ℕ) : Except Failure ((CCoinsViewCache × Bool) × AddressVectors) := do
  let o := p.1.1.prevout
  let s' ← restoreInput s.1 p.1
  let undoHeight := ((s.1.1.undoCoin p.1.2 o).map Coin.nHeight).getD 0
  let entry := InputEntry.of X o { s'.1.accessCoin o with nHeight := undoHeight } p.2
  return (s', s.2.append (gather t.undoSpending entry.toList))

/-- One turn of the loop of `DisconnectBlock`. -/
def disconnectTxIndexed (nHeight : ℕ) (s : (CCoinsViewCache × Bool) × AddressVectors)
    (p : (CTransaction × Option (List Coin)) × ℕ) :
    Except Failure ((CCoinsViewCache × Bool) × AddressVectors) :=
  let tx := p.1.1
  let t : IndexedTx := ⟨tx, tx.getHash H, nHeight, p.2⟩
  let s₁ := (tx.vout.zipIdx.foldl
      (takeOutput (tx.getHash H) nHeight tx.isCoinBase tx.isCoinStake) s.1,
    s.2.append (gather t.undoReceiving (t.outputs X).reverse))
  match p.1.2 with
  | none => .ok s₁
  | some vprevout => do
    require (vprevout.length == tx.vin.length)
      (.error "DisconnectBlock(): transaction and undo data inconsistent")
    (tx.vin.zip vprevout).zipIdx.reverse.foldlM (restoreInputIndexed X t) s₁

/-- `DisconnectBlock` with the address indexes, `pfClean` null. -/
def disconnectBlockIndexed (block : CBlock) (pindex pprev : CBlockIndex)
    (stored : Option (List (List TxInUndo))) (view : CCoinsViewCache) (aal : AalState)
    (db : AddressDB) : Except Failure (Disconnected × AddressDB) := do
  require (pindex.blockHash == view.getBestBlock)
    (.fatal "assert(pindex->GetBlockHash() == view.GetBestBlock())")
  let vtxundo ← orThrow (stored.bind readUndo)
    (.error "DisconnectBlock(): failure reading undo data")
  require (vtxundo.length + 1 == block.vtx.length)
    (.error "DisconnectBlock(): block and undo data inconsistent")
  let (s, v) ← (block.vtx.zip (none :: vtxundo.map some)).zipIdx.reverse.foldlM
    (disconnectTxIndexed H X pindex.nHeight) ((view, true), .empty)
  return (⟨s.2, s.1.setBestBlock pprev.blockHash,
    { aal with state := aal.state.setRoots N pprev.hashStateRoot pprev.hashUTXORoot }⟩,
    db.writeDisconnected v)

end Slucore
