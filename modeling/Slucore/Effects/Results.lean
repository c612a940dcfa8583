import Slucore.Validation.Node
/-!
# Effects — the store of receipts

`StorageResults` keeps the receipts of contract transactions: a database,
and a map in front of it. Receipts of a block are put into the map while
the block is connected and written when it is; queries leave copies in the
map. The encoding of the receipts in the database is lossless and left
out.
-/


namespace Slucore

/-- `dev::eth::LogEntry`. -/
structure LogEntry where
  address : Address
  topics : List UInt256
  data : List UInt8
deriving DecidableEq, Repr

/-- `TransactionReceiptInfo`. -/
structure TransactionReceiptInfo where
  blockHash : UInt256
  blockNumber : ℕ
  transactionHash : UInt256
  transactionIndex : ℕ
  sender : Address
  receiver : Address
  cumulativeGasUsed : ℕ
  gasUsed : ℕ
  contractAddress : Address
  logs : List LogEntry
  excepted : TransactionException
deriving DecidableEq, Repr

/-- `StorageResults`. -/
structure StorageResults where
  /-- `m_cache_result`. -/
  cache : UInt256 → Option (List TransactionReceiptInfo)
  db : UInt256 → Option (List TransactionReceiptInfo)

namespace StorageResults

variable (r : StorageResults)

/-- `addResult`: `insert`, which keeps an entry that is there. -/
def addResult (hashTx : UInt256) (result : List TransactionReceiptInfo) : StorageResults :=
  { r with cache := Function.update r.cache hashTx ((r.cache hashTx).or (some result)) }

/-- `clearCacheResult`. -/
def clearCacheResult : StorageResults := { r with cache := fun _ => none }

/-- `deleteResults`, for transactions with these hashes. -/
def deleteResults (hashes : List UInt256) : StorageResults where
  cache hash := if hash ∈ hashes then none else r.cache hash
  db hash := if hash ∈ hashes then none else r.db hash

/-- `getResult`: the receipts, empty if there are none, and the store with
what was read kept in the map. -/
def getResult (hashTx : UInt256) : StorageResults × List TransactionReceiptInfo :=
  match r.cache hashTx with
  | some result => (r, result)
  | none =>
    match r.db hashTx with
    | some result => ({ r with cache := Function.update r.cache hashTx (some result) }, result)
    | none => (r, [])

/-- `commitResults`: what is in the map and not yet in the database is
written, and the map is emptied. -/
def commitResults : StorageResults where
  cache _ := none
  db hash := (r.db hash).or (r.cache hash)

/-- What the store holds for a transaction, the map first. -/
def lookup (hashTx : UInt256) : Option (List TransactionReceiptInfo) :=
  (r.cache hashTx).or (r.db hashTx)

variable {r}

/-- **A query answers with what the store holds.** -/
theorem getResult_eq (hashTx : UInt256) : (r.getResult hashTx).2 = (r.lookup hashTx).getD [] := by
  unfold getResult lookup
  cases r.cache hashTx with
  | some result => rfl
  | none => cases r.db hashTx <;> rfl

end StorageResults

end Slucore
