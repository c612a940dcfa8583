import Slucore.Aal.ByteCodeExec
import Slucore.Coins.View
/-!
# Validation — the node around block validation

What the validation routines read besides the block and the coins: the
consensus parameters, the limits that follow the block size chosen by
the governance contract, the block index, and the parts of the node that
are not modelled (signatures, proof of work and of stake, serialized
sizes, clocks and disks), which are fields of `Node`. A `Node` is the
node at the moment of one call, so nothing is assumed to stay the same
from one call to the next.
-/


namespace Slucore

/-- `Consensus::Params`, as far as it is read. -/
structure ConsensusParams where
  hashGenesisBlock : UInt256
  bip34Height : ℤ
  bip65Height : ℤ
  bip66Height : ℤ
  nSubsidyHalvingInterval : ℤ
  nLastPOWBlock : ℤ
  nFirstMPoSBlock : ℤ
  nMPoSRewardRecipients : ℤ
  nEnableHeaderSignatureHeight : ℤ
  /-- The source divides by the interval. -/
  interval_pos : 0 < nSubsidyHalvingInterval

/-- The limits on blocks, which are global variables of the source. -/
structure BlockLimits where
  dgpMaxBlockSize : ℕ
  dgpMaxBlockWeight : ℕ
  dgpMaxBlockSigOps : ℕ
deriving DecidableEq, Repr

/-- `WITNESS_SCALE_FACTOR`. -/
def witnessScaleFactor : ℕ := 4

/-- `updateBlockSizeParams`, in 32-bit arithmetic. -/
def updateBlockSizeParams (newBlockSize : ℕ) : BlockLimits :=
  let newSizeForParams := witnessScaleFactor * newBlockSize % 2 ^ 32
  ⟨newBlockSize, newSizeForParams, newSizeForParams / 100⟩

/-- The block version that takes the paths of its own (`0x20000002`). -/
def swVersion : ℤ := 0x20000002

/-- `CBlockIndex`, as far as it is read; the parent is passed along with
an index. -/
structure CBlockIndex where
  nHeight : ℕ
  blockHash : UInt256
  hashStateRoot : UInt256
  hashUTXORoot : UInt256
  nMoneySupply : ℕ
  nTime : ℕ
  nChainWork : ℕ
  nTx : ℕ
  /-- `nStatus & BLOCK_HAVE_DATA`. -/
  haveData : Bool
  /-- `nStatus & BLOCK_FAILED_VALID`. -/
  failedValid : Bool
deriving DecidableEq, Repr

/-- `txnouttype`, as far as it is told apart. -/
inductive TxnOutType where
  | nonstandard | pubkey | pubkeyhash | other
deriving DecidableEq, Repr

/-- The values of the governance contracts at one height. -/
structure DgpValues where
  blockSize : ℕ
  minGasPrice : ℕ
  blockGasLimit : ℕ
deriving DecidableEq, Repr

/-- What `SilubiumTxConverter` extracts of a transaction: the contract
outputs, and the gas prices of the parsed parameters. -/
structure ExtractSilubiumTX where
  txs : List SilubiumTransaction
  gasPrices : List U256
deriving DecidableEq, Repr

/-- `COINBASE_MATURITY`. -/
def coinbaseMaturity : ℤ := 100

/-- What `AddMPoSScript` reads of the chain. -/
structure StakeIndex where
  /-- `chainActive[nHeight]`: whether the block is proof-of-stake. -/
  chainActive : ℤ → Option Bool
  readStakeIndex : ℤ → Option Address
  fPoSNoRetargeting : Bool

/-- `CScript() << OP_RETURN`. -/
def burnScript : CScript := [0x6a]

/-- `AddMPoSScript`, for one height. -/
def StakeIndex.addMPoSScript (S : StakeIndex) (nHeight : ℤ) : Option CScript := do
  let isProofOfStake ← S.chainActive nHeight
  let stakeAddress ← S.readStakeIndex nHeight
  if isProofOfStake then
    some (if stakeAddress = 0 then burnScript else payToPubkeyHash stakeAddress)
  else if S.fPoSNoRetargeting then some burnScript
  else none

/-- `GetMPoSOutputScripts`. -/
def StakeIndex.getMPoSOutputScripts (S : StakeIndex) (P : ConsensusParams) (nHeight : ℤ) :
    Option (List CScript) :=
  (List.range (P.nMPoSRewardRecipients - 1).toNat).mapM fun i : ℕ =>
    S.addMPoSScript (nHeight - coinbaseMaturity - i)

/-- The node at the moment of a call. -/
structure Node where
  consensus : ConsensusParams
  /-- The argument `-testnet` is set. -/
  testnet : Bool
  isInitialBlockDownload : Bool
  getAdjustedTime : ℕ
  /-- `chainActive.Height()`. -/
  tipHeight : ℕ
  /-- `fCheckpointsEnabled` is off, or `CheckHardened` passes. -/
  checkHardened : ℕ → UInt256 → Bool
  /-- `GetSerializeSize` without witness, of a transaction. -/
  txSerializeSize : CTransaction → ℕ
  /-- `GetSerializeSize` without witness, of a block. -/
  blockSerializeSize : CBlock → ℕ
  getBlockWeight : CBlock → ℕ
  checkHeaderPoW : CBlockHeader → Bool
  checkHeaderPoS : CBlockHeader → Bool
  /-- The signature part of `CheckBlockSignature`, for a proof-of-stake block. -/
  verifyBlockSig : CBlock → Bool
  /-- `Solver`, with contract consensus rules. -/
  solver : CScript → Bool
  /-- `CheckBlockInputPubKeyMatchesOutputPubKey`. -/
  inputPubKeyMatches : CBlock → CCoinsViewCache → Bool
  /-- `CheckCoinStakeTimestamp`, or its `SW` form for the block version. -/
  checkCoinStakeTimestamp : CBlock → Bool
  /-- `GetNextWorkRequired`, or its `SW` form for the block version. -/
  getNextWorkRequired : CBlock → ℕ
  checkProofOfStake : CBlock → CCoinsViewCache → Except Failure Unit
  sequenceLocks : CTransaction → List ℕ → Bool
  getTransactionSigOpCost : CTransaction → CCoinsViewCache → ℕ
  /-- `CheckInputs`: the scripts of a transaction, where they are run at once. -/
  checkInputs : CTransaction → CCoinsViewCache → Except Failure Unit
  /-- `control.Wait()`: the scripts that were queued. -/
  checkQueueWait : CBlock → Bool
  /-- `ExtractDestination`: the type of the script, if it succeeds. -/
  extractDestination : CScript → Option TxnOutType
  /-- `EthAddrFromScript`. -/
  ethAddrFromScript : CScript → Address
  /-- `extractionSilubiumTransactions`; the block's transactions are read to
  find the sender. -/
  extractSilubiumTX : CTransaction → CCoinsViewCache → List CTransaction →
    Option ExtractSilubiumTX
  /-- The chain and the stake index, for `GetMPoSOutputScripts`. -/
  stakes : StakeIndex
  /-- `SilubiumDGP` over the contract state, at a height. -/
  dgp : SilubiumState → ℕ → DgpValues
  /-- The contract machine with the gas schedule of a height. -/
  aalEnv : SilubiumState → ℕ → AalEnv
  vm : Vm
  /-- The account trie that the database stores under a root. -/
  accountsAt : UInt256 → Address → Option Account
  /-- The coin trie that the database stores under a root. -/
  vinsAt : UInt256 → Address → Option Vin
  /-- `sha3(rlp(""))`. -/
  emptyTrieRoot : UInt256
  writeUndoDataForBlock : CBlock → Bool
  /-- The writes of the indexes. -/
  writeIndexes : CBlock → Bool

/-- `GetMPoSOutputScripts` at a height. -/
def Node.getMPoSOutputScripts (N : Node) : ℤ → Option (List CScript) :=
  N.stakes.getMPoSOutputScripts N.consensus

namespace SilubiumState

/-- `State::setRoot` and `SilubiumState::setRootUTXO`. -/
def setRoots (N : Node) (s : SilubiumState) (root rootUTXO : UInt256) : SilubiumState :=
  { s with
    trie := ⟨root, N.accountsAt root⟩
    cache := fun _ => none
    stateUTXO := ⟨rootUTXO, N.vinsAt rootUTXO⟩
    cacheUTXO := fun _ => none }

end SilubiumState

/-- `GetBlockSubsidy`. -/
def getBlockSubsidy (nHeight : ℕ) (P : ConsensusParams) : ℤ :=
  if (nHeight : ℤ) ≤ P.nLastPOWBlock then 10000 * coin
  else
    let halvings := (nHeight - P.nLastPOWBlock - 1) / P.nSubsidyHalvingInterval
    if 7 ≤ halvings then 0 else coin / 2 ^ halvings.toNat

/-- The subsidy is an amount far inside the money range. -/
theorem getBlockSubsidy_mem (nHeight : ℕ) (P : ConsensusParams) :
    0 ≤ getBlockSubsidy nHeight P ∧ getBlockSubsidy nHeight P ≤ 10000 * coin := by
  unfold getBlockSubsidy
  have hcoin : coin = 100000000 := rfl
  split
  · omega
  dsimp only
  split
  · omega
  have hpow : (0 : ℤ) ≤ 2 ^ ((nHeight - P.nLastPOWBlock - 1) /
      P.nSubsidyHalvingInterval).toNat := by positivity
  refine ⟨Int.ediv_nonneg (by omega) hpow, ?_⟩
  calc coin / _ ≤ coin := Int.ediv_le_self _ (by omega)
    _ ≤ 10000 * coin := by omega

end Slucore
