import Slucore.Common.Failures
import Slucore.Primitives.Serialize
import Slucore.Validation.Dgp
import Slucore.Validation.Unique
/-!
# Net — compact blocks

A compact block is a header, short ids of the transactions and, here,
the coinbase in full. Writing one fails when it has more transactions
than an index of 16 bits can name, and reading one refuses more than the
limits on blocks allow. Both limits are meant for every block the node
accepts, but the first does not grow with the governed block size: a
block goes through exactly when it has at most 65535 transactions and
its header is not null (`relayed_iff`).
-/


namespace Slucore

open List Function CTransaction

/-! ## The message -/

/-- `PrefilledTransaction`. -/
structure PrefilledTransaction where
  index : UInt16
  tx : CTransaction

/-- `CBlockHeaderAndShortTxIDs`. The keys of the short ids are computed
from the header and the nonce. -/
structure CBlockHeaderAndShortTxIDs where
  header : CBlockHeader
  nonce : UInt64
  shorttxids : List ℕ
  prefilledtxn : List PrefilledTransaction

/-- The hash functions of short ids: the two keys, from the first words of
a SHA-256, and `SipHashUint256`. -/
structure ShortIdHashes where
  shorttxidkeys : List UInt8 → ℕ × ℕ
  sipHashUint256 : ℕ × ℕ → UInt256 → ℕ

/-- The largest `uint16_t`. -/
def maxUint16 : ℕ := 65535

def PrefilledTransaction.serialize (fAllowWitness : Bool) (p : PrefilledTransaction) :
    Except String (List UInt8) := do
  let idx := p.index.toNat
  require (decide (idx ≤ maxUint16)) "index overflowed 16-bits"
  return writeCompactSize idx ++ p.tx.serialize fAllowWitness

namespace CBlockHeaderAndShortTxIDs

variable (H : Hashes) (S : ShortIdHashes) (c : CBlockHeaderAndShortTxIDs)

/-- `GetShortID`, with the keys of `FillShortTxIDSelector`. -/
def getShortID (header : CBlockHeader) (nonce : UInt64) (txhash : UInt256) : ℕ :=
  S.sipHashUint256 (S.shorttxidkeys (header.serialize ++ writeLE 8 nonce.toNat)) txhash % 2 ^ 48

/-- The constructor, with the nonce it draws. Without transactions it asks
for a vector of `2 ^ 64 - 1` short ids, which throws. -/
def ofBlock (block : CBlock) (fUseWTXID : Bool) (nonce : UInt64) :
    Except String CBlockHeaderAndShortTxIDs :=
  match block.vtx with
  | [] => .error "vector::_M_default_append"
  | coinbase :: rest =>
    .ok ⟨block.toCBlockHeader, nonce, rest.map fun tx => getShortID S block.toCBlockHeader nonce
      (if fUseWTXID then tx.getWitnessHash H else tx.getHash H), [⟨0, coinbase⟩]⟩

def blockTxCount : ℕ := c.shorttxids.length + c.prefilledtxn.length

/-- `SerializationOp`, when it writes. The number of transactions is
checked last. -/
def serialize (fAllowWitness : Bool) : Except String (List UInt8) := do
  let prefilledtxn ← c.prefilledtxn.mapM (PrefilledTransaction.serialize fAllowWitness)
  let bytes := c.header.serialize ++ writeLE 8 c.nonce.toNat ++
    serializeVector (fun id => writeLE 4 (id % 2 ^ 32) ++ writeLE 2 (id / 2 ^ 32 % 2 ^ 16))
      c.shorttxids ++
    writeCompactSize c.prefilledtxn.length ++ prefilledtxn.flatten
  require (decide (c.blockTxCount ≤ maxUint16)) "indexes overflowed 16 bits"
  return bytes

end CBlockHeaderAndShortTxIDs

/-! ## Reading it -/

/-- `ReadStatus`. -/
inductive ReadStatus where
  | ok | invalid | failed | checkBlockFailed
deriving DecidableEq, Repr

/-- `PartiallyDownloadedBlock` after `InitData`, without its statistics. -/
structure PartiallyDownloadedBlock where
  header : CBlockHeader
  txnAvailable : List (Option CTransaction)

/-- What `InitData` reads of the peer: the limit, the memory pool in the
order of `vTxHashes`, the extra transactions, and the size of the bucket
of a key in an unordered map with the given keys. -/
structure ReceivingPeer where
  dgpMaxBlockSize : ℕ
  vTxHashes : List (UInt256 × CTransaction)
  extraTxn : List (UInt256 × CTransaction)
  bucketSize : List ℕ → ℕ → ℕ

/-- `MIN_SERIALIZABLE_TRANSACTION_WEIGHT`. -/
def minSerializableTransactionWeight : ℕ := witnessScaleFactor * 10

namespace PartiallyDownloadedBlock

/-- One turn of the loop over the prefilled transactions, at position `i`:
the last index used, and the transactions placed so far. -/
def placePrefilled (nShort : ℕ) (s : ℤ × List (Option CTransaction))
    (q : PrefilledTransaction × ℕ) : Except ReadStatus (ℤ × List (Option CTransaction)) := do
  require (!q.1.tx.isNull) .invalid
  let lastprefilledindex := s.1 + (q.1.index.toNat + 1)
  require (decide (lastprefilledindex ≤ maxUint16)) .invalid
  require (decide (lastprefilledindex ≤ (nShort + q.2 : ℕ))) .invalid
  return (lastprefilledindex, s.2.set lastprefilledindex.toNat (some q.1.tx))

/-- `while (txn_available[i + index_offset]) index_offset++;` -/
def skipAvailable (txnAvailable : List (Option CTransaction)) (i : ℕ) : ℕ → ℕ → ℕ
  | 0, indexOffset => indexOffset
  | fuel + 1, indexOffset =>
    if (txnAvailable[i + indexOffset]?.join).isSome then
      skipAvailable txnAvailable i fuel ((indexOffset + 1) % 2 ^ 16)
    else indexOffset

/-- The map from short ids to positions: an entry replaces the one of its
key. -/
def insertId (id position : ℕ) (shorttxids : List (ℕ × ℕ)) : List (ℕ × ℕ) :=
  (id, position) :: shorttxids.filter fun e => e.1 != id

/-- One turn of the loop over the short ids. -/
def placeId (bucketSize : List ℕ → ℕ → ℕ) (txnAvailable : List (Option CTransaction))
    (s : ℕ × List (ℕ × ℕ)) (q : ℕ × ℕ) : Except ReadStatus (ℕ × List (ℕ × ℕ)) := do
  let indexOffset := skipAvailable txnAvailable q.2 (txnAvailable.length + 1) s.1
  let shorttxids := insertId q.1 ((q.2 + indexOffset) % 2 ^ 16) s.2
  require (decide (bucketSize (shorttxids.map Prod.fst) q.1 ≤ 12)) .failed
  return (indexOffset, shorttxids)

/-- The transactions found so far. -/
structure Matches where
  txnAvailable : List (Option CTransaction)
  haveTxn : List Bool
  mempoolCount : ℕ

/-- A transaction that fits a short id takes its place; a second one that
`differs` from the first clears it again. -/
def matchOne (differs : CTransaction → CTransaction → Bool) (position : ℕ) (tx : CTransaction)
    (m : Matches) : Matches :=
  if m.haveTxn[position]?.getD false then
    match m.txnAvailable[position]?.join with
    | none => m
    | some first =>
      if differs first tx then
        { m with txnAvailable := m.txnAvailable.set position none
                 mempoolCount := m.mempoolCount - 1 }
      else m
  else ⟨m.txnAvailable.set position (some tx), m.haveTxn.set position true, m.mempoolCount + 1⟩

/-- The loop over the memory pool, and the one over the extra transactions:
it stops once every short id has its transaction. -/
def matchAll (shortID : UInt256 → ℕ) (shorttxids : List (ℕ × ℕ))
    (differs : CTransaction → CTransaction → Bool) :
    Matches → List (UInt256 × CTransaction) → Matches
  | m, [] => m
  | m, (hash, tx) :: rest =>
    let m := match shorttxids.lookup (shortID hash) with
      | none => m
      | some position => matchOne differs position tx m
    if m.mempoolCount = shorttxids.length then m
    else matchAll shortID shorttxids differs m rest

/-- `InitData` of a new `PartiallyDownloadedBlock`; an answer other than
`READ_STATUS_OK` is the error. -/
def initData (H : Hashes) (S : ShortIdHashes) (peer : ReceivingPeer)
    (cmpctblock : CBlockHeaderAndShortTxIDs) : Except ReadStatus PartiallyDownloadedBlock := do
  require (!(cmpctblock.header.isNull ||
    (cmpctblock.shorttxids.isEmpty && cmpctblock.prefilledtxn.isEmpty))) .invalid
  require (decide (cmpctblock.shorttxids.length + cmpctblock.prefilledtxn.length ≤
    peer.dgpMaxBlockSize * witnessScaleFactor % 2 ^ 32 / minSerializableTransactionWeight))
    .invalid
  let (_, txnAvailable) ← cmpctblock.prefilledtxn.zipIdx.foldlM
    (placePrefilled cmpctblock.shorttxids.length)
    (-1, List.replicate cmpctblock.blockTxCount none)
  let (_, shorttxids) ← cmpctblock.shorttxids.zipIdx.foldlM
    (placeId peer.bucketSize txnAvailable) (0, [])
  require (shorttxids.length == cmpctblock.shorttxids.length) .failed
  let shortID := CBlockHeaderAndShortTxIDs.getShortID S cmpctblock.header cmpctblock.nonce
  let m := matchAll shortID shorttxids (fun _ _ => true)
    ⟨txnAvailable, List.replicate txnAvailable.length false, 0⟩ peer.vTxHashes
  let m := matchAll shortID shorttxids
    (fun first tx => first.getWitnessHash H != tx.getWitnessHash H) m peer.extraTxn
  return ⟨cmpctblock.header, m.txnAvailable⟩

end PartiallyDownloadedBlock

/-! ## Which blocks go through -/

namespace CBlockHeaderAndShortTxIDs

variable {H : Hashes} {S : ShortIdHashes} {block : CBlock} {c : CBlockHeaderAndShortTxIDs}
variable {fUseWTXID fAllowWitness : Bool} {nonce : UInt64}

/-- What is made of a block: one short id for each transaction after the
coinbase, which is there in full. -/
theorem ofBlock_eq_ok (h : ofBlock H S block fUseWTXID nonce = .ok c) :
    c.header = block.toCBlockHeader ∧ c.blockTxCount = block.vtx.length ∧
      ∃ coinbase, coinbase ∈ block.vtx ∧ c.prefilledtxn = [⟨0, coinbase⟩] := by
  unfold ofBlock at h
  cases hvtx : block.vtx with
  | nil => simp [hvtx] at h
  | cons coinbase rest =>
    simp only [hvtx, Except.ok.injEq] at h
    subst h
    exact ⟨rfl, by simp [blockTxCount], coinbase, mem_cons_self, rfl⟩

theorem exists_ofBlock (hne : block.vtx ≠ []) :
    ∃ c, ofBlock H S block fUseWTXID nonce = .ok c := by
  unfold ofBlock
  cases hvtx : block.vtx with
  | nil => exact absurd hvtx hne
  | cons coinbase rest => exact ⟨_, rfl⟩

/-- The index of a prefilled transaction is one of 16 bits. -/
theorem exists_serialize_prefilled (fAllowWitness : Bool) (p : PrefilledTransaction) :
    ∃ bytes, p.serialize fAllowWitness = .ok bytes := by
  have hle : p.index.toNat ≤ maxUint16 := by
    have hlt := p.index.toNat_lt
    unfold maxUint16
    omega
  refine ⟨writeCompactSize p.index.toNat ++ p.tx.serialize fAllowWitness, ?_⟩
  simp [PrefilledTransaction.serialize, require, hle]

theorem exists_serialize_prefilledtxn (fAllowWitness : Bool) (l : List PrefilledTransaction) :
    ∃ txs, l.mapM (PrefilledTransaction.serialize fAllowWitness) = .ok txs := by
  induction l with
  | nil => exact ⟨[], rfl⟩
  | cons p l ih =>
    obtain ⟨bytes, hp⟩ := exists_serialize_prefilled fAllowWitness p
    obtain ⟨txs, hl⟩ := ih
    exact ⟨bytes :: txs, by simp [hp, hl]⟩

/-- **Writing fails when there are too many transactions.** -/
theorem serialize_of_lt {c : CBlockHeaderAndShortTxIDs} (h : maxUint16 < c.blockTxCount) :
    c.serialize fAllowWitness = .error "indexes overflowed 16 bits" := by
  obtain ⟨txs, htxs⟩ := exists_serialize_prefilledtxn fAllowWitness c.prefilledtxn
  simp [serialize, htxs, require, Nat.not_le.2 h]

/-- There is no other way for it to fail. -/
theorem exists_serialize_iff (fAllowWitness : Bool) (c : CBlockHeaderAndShortTxIDs) :
    (∃ bytes, c.serialize fAllowWitness = .ok bytes) ↔ c.blockTxCount ≤ maxUint16 := by
  constructor
  · rintro ⟨bytes, h⟩
    by_contra hlt
    rw [serialize_of_lt (Nat.not_le.1 hlt)] at h
    cases h
  · intro hle
    obtain ⟨txs, htxs⟩ := exists_serialize_prefilledtxn fAllowWitness c.prefilledtxn
    simp [serialize, htxs, require, hle]

end CBlockHeaderAndShortTxIDs

namespace PartiallyDownloadedBlock

open CBlockHeaderAndShortTxIDs

variable {c : CBlockHeaderAndShortTxIDs}

/-- **When a compact block with the coinbase alone prefilled is refused as
invalid:** when its header is null, or it has too many transactions for
the limits of the peer. -/
theorem initData_ne_invalid_iff (H : Hashes) (S : ShortIdHashes) (peer : ReceivingPeer)
    {coinbase : CTransaction} (hpre : c.prefilledtxn = [⟨0, coinbase⟩])
    (hnull : coinbase.isNull = false) :
    initData H S peer c ≠ .error .invalid ↔ c.header.isNull = false ∧
      c.blockTxCount ≤
        peer.dgpMaxBlockSize * witnessScaleFactor % 2 ^ 32 / minSerializableTransactionWeight := by
  have hfails : initData H S peer c ≠ .error .invalid ↔
      FailsOnly (· ≠ ReadStatus.invalid) (initData H S peer c) := by
    exact ⟨fun h e he heq => h (heq ▸ he), fun h he => h _ he rfl⟩
  -- placing the coinbase succeeds, and a bad short id is no reason for this answer
  have hplace : FailsOnly (· ≠ ReadStatus.invalid) (c.prefilledtxn.zipIdx.foldlM
      (placePrefilled c.shorttxids.length) (-1, List.replicate c.blockTxCount none)) := by
    simp [hpre, placePrefilled, hnull]
  have hids : ∀ txs, FailsOnly (· ≠ ReadStatus.invalid)
      (c.shorttxids.zipIdx.foldlM (placeId peer.bucketSize txs) (0, [])) := by
    intro txs
    refine failsOnly_foldlM (fun s q _ => ?_) _
    simp [placeId]
  rw [hfails]
  unfold initData
  simp only [failsOnly_bind, failsOnly_require, failsOnly_pure, require_eq_ok, hplace, hids, ne_eq,
    not_true_eq_false, imp_false, Bool.not_eq_false, reduceCtorEq, not_false_eq_true,
    implies_true, and_true, forall_const]
  simp only [hpre, isEmpty_cons, Bool.and_false, Bool.or_false, Bool.not_eq_true',
    decide_eq_true_eq, blockTxCount]
  exact ⟨fun h => ⟨h.1, h.2 h.1⟩, fun h => ⟨h.1, fun _ => h.2⟩⟩

end PartiallyDownloadedBlock

/-- The sizes a node computes are lengths of what it would write. -/
structure Node.MeasuresBytes (N : Node) : Prop where
  txSerializeSize : ∀ tx, N.txSerializeSize tx = (tx.serialize false).length
  blockSerializeSize : ∀ block, N.blockSerializeSize block = (block.serialize false).length
  getBlockWeight : ∀ block, N.getBlockWeight block = block.weight

/-- The limits of `ConnectBlock` on the size and the weight of a block. -/
structure FitsLimits (N : Node) (lim : BlockLimits) (block : CBlock) : Prop where
  vtx_ne_nil : block.vtx ≠ []
  count : block.vtx.length ≤ lim.dgpMaxBlockSize
  size : N.blockSerializeSize block ≤ lim.dgpMaxBlockSize
  weight : N.getBlockWeight block ≤ lim.dgpMaxBlockWeight

/-- A block that is connected is within the limits. -/
theorem fitsLimits_of_connectPrelude {H : Hashes} {N : Node} {lim : BlockLimits} {block : CBlock}
    {pindex : CBlockIndex} {pprev : Option CBlockIndex} {view : CCoinsViewCache} {fJustCheck : Bool}
    (h : connectPrelude H N lim block pindex pprev view fJustCheck = .ok ()) :
    FitsLimits N lim block := by
  simp only [connectPrelude, bind_eq_ok, require_eq_ok, Bool.and_eq_true, Bool.not_eq_true',
    isEmpty_eq_false_iff, decide_eq_true_eq] at h
  obtain ⟨-, -, -, -, -, ⟨⟨hne, hcount⟩, hsize⟩, -, hweight, -⟩ := h
  exact ⟨hne, hcount, hsize, hweight⟩

/-- The block sizes that the governance contract can set. -/
theorem SilubiumDGP.getBlockSize_mem {D : SilubiumDGP} {blockHeight blockSize : ℕ}
    (h : D.getBlockSize blockHeight = some blockSize) :
    8000000 ≤ blockSize ∧ blockSize ≤ 32000000 := by
  obtain ⟨l, -, rfl⟩ := Option.map_eq_some_iff.1 h
  unfold SilubiumDGP.blockSizeAt
  dsimp only
  split_ifs <;> omega

section Relay

open CBlockHeaderAndShortTxIDs PartiallyDownloadedBlock

variable {H : Hashes} {S : ShortIdHashes} {N : Node} {lim : BlockLimits} {block : CBlock}

/-- The limit of a peer on the number of transactions is met by every block
within the limit on its size. -/
theorem FitsLimits.count_le (h : FitsLimits N lim block) (hN : N.MeasuresBytes)
    (hlim : lim.dgpMaxBlockSize ≤ 32000000) : block.vtx.length ≤
      lim.dgpMaxBlockSize * witnessScaleFactor % 2 ^ 32 / minSerializableTransactionWeight := by
  have hlen := block.length_vtx_le false
  have hsize := h.size
  rw [hN.blockSerializeSize] at hsize
  unfold minSerializableTransactionWeight witnessScaleFactor
  omega

/-- The block is built into a compact block and written, and a peer does
not answer that it is invalid. -/
def Relayed (H : Hashes) (S : ShortIdHashes) (peer : ReceivingPeer) (block : CBlock)
    (fUseWTXID fAllowWitness : Bool) (nonce : UInt64) : Prop :=
  ∃ c bytes, ofBlock H S block fUseWTXID nonce = .ok c ∧ c.serialize fAllowWitness = .ok bytes ∧
    initData H S peer c ≠ .error .invalid

/-- **Which blocks can be relayed as compact blocks.** Of the blocks that
pass `CheckBlock` and the limits, under any governed block size, and
between peers with the same limits: those with at most 65535
transactions, unless the header is null. -/
theorem relayed_iff {D : SilubiumDGP} {blockHeight blockSize : ℕ}
    (hgov : D.getBlockSize blockHeight = some blockSize) (hN : N.MeasuresBytes)
    (hv : block.Vouched H) {block' : CBlock}
    (hcheck : checkBlock H N (updateBlockSizeParams blockSize) block true true true = .ok block')
    (hfits : FitsLimits N (updateBlockSizeParams blockSize) block)
    (peer : ReceivingPeer) (hpeer : peer.dgpMaxBlockSize = blockSize)
    (fUseWTXID fAllowWitness : Bool) (nonce : UInt64) :
    Relayed H S peer block fUseWTXID fAllowWitness nonce ↔
      block.vtx.length ≤ 65535 ∧ block.nBits ≠ 0 := by
  obtain ⟨hshape, -⟩ := shape_of_checkBlockWith hv hcheck
  obtain ⟨c, hc⟩ : ∃ c, ofBlock H S block fUseWTXID nonce = .ok c :=
    exists_ofBlock hfits.vtx_ne_nil
  obtain ⟨hheader, hcount, coinbase, hmem, hpre⟩ := ofBlock_eq_ok hc
  have hnull : coinbase.isNull = false := by
    have hvin := (hshape.checked coinbase hmem).vin_ne_nil
    simp [isNull, hvin]
  have hlimit : block.vtx.length ≤
      blockSize * witnessScaleFactor % 2 ^ 32 / minSerializableTransactionWeight :=
    hfits.count_le hN (SilubiumDGP.getBlockSize_mem hgov).2
  have hread := initData_ne_invalid_iff H S peer hpre hnull
  rw [hheader, hcount, hpeer, and_iff_left hlimit] at hread
  have hwrite := exists_serialize_iff fAllowWitness c
  rw [hcount] at hwrite
  have hbits : block.toCBlockHeader.isNull = false ↔ block.nBits ≠ 0 := by
    simp [CBlockHeader.isNull]
  constructor
  · rintro ⟨c', bytes, hc', hbytes, hinit⟩
    obtain rfl := Except.ok.inj (hc.symm.trans hc')
    exact ⟨hwrite.1 ⟨bytes, hbytes⟩, hbits.1 (hread.1 hinit)⟩
  · rintro ⟨hle, hne⟩
    obtain ⟨bytes, hbytes⟩ := hwrite.2 hle
    exact ⟨c, bytes, hc, hbytes, hread.2 (hbits.2 hne)⟩

end Relay

/-! ## A block of 65536 transactions -/

/-- The sample node, with the sizes of the network format. -/
def measuringNode : Node :=
  { sampleNode with
    txSerializeSize := fun tx => (tx.serialize false).length
    blockSerializeSize := fun block => (block.serialize false).length
    getBlockWeight := CBlock.weight }

theorem measuringNode_measuresBytes : measuringNode.MeasuresBytes :=
  ⟨fun _ => rfl, fun _ => rfl, fun _ => rfl⟩

/-- Hashes under which the transactions of a crowd are in order. -/
def orderedHashes : Hashes where
  serializeHash tx := (tx.vin.map fun i => i.prevout.hash).sum
  headerHash h := h.nTime
  sha256D64 _ b := b

/-- A transaction of 60 bytes. -/
def smallTx (i : ℕ) : CTransaction where
  vin := [{ prevout := ⟨i + 1, 0⟩, scriptSig := [] }]
  vout := [⟨1, []⟩]

/-- A coinbase and `n` small transactions. -/
def crowd (n : ℕ) : List CTransaction := sampleCoinbase 0 :: (List.range n).map smallTx

def crowdedBlock (n : ℕ) : CBlock :=
  { sampleBlock .null (crowd n) with
    hashMerkleRoot := (blockMerkleRoot orderedHashes (crowd n)).1 }

theorem length_serialize_smallTx (fAllowWitness : Bool) (i : ℕ) :
    ((smallTx i).serialize fAllowWitness).length = 60 := by
  simp [serialize, smallTx, hasWitness, serializeVector,
    writeCompactSize, CTxIn.serialize, CTxOut.serialize, COutPoint.serialize, serializeBytes]

theorem length_serialize_crowdedBlock (fAllowWitness : Bool) (n : ℕ) :
    ((crowdedBlock n).serialize fAllowWitness).length ≤ 253 + 60 * n := by
  have hcount := length_writeCompactSize_le (n + 1)
  have hcoinbase : ((sampleCoinbase 0).serialize fAllowWitness).length = 63 := by
    cases fAllowWitness <;> decide
  have hheader : (crowdedBlock n).toCBlockHeader.serialize.length = 181 := by
    simp [CBlockHeader.serialize, crowdedBlock, sampleBlock, COutPoint.serialize, serializeBytes,
      writeCompactSize]
  have hvtx : (crowdedBlock n).vtx = crowd n := rfl
  rw [CBlock.serialize, length_append, length_serializeVector, hvtx, crowd, length_cons, length_map,
    map_cons, sum_cons, List.map_map]
  simp only [comp_def, length_serialize_smallTx, map_const', length_range,
    sum_replicate, smul_eq_mul]
  omega

/-- Levels of hashes in order are in order, and pair no hash with itself. -/
theorem orderedHashes_not_mutated {fuel : ℕ} {l : List UInt256} (h : l.Pairwise (· < ·)) :
    (merkleLoop orderedHashes fuel false l).2 = false := by
  have hpair : ∀ l : List UInt256, l.Pairwise (· < ·) → hasEqualPair l = false := by
    intro l h
    induction l using hasEqualPair.induct with
    | case1 a b rest ih =>
      obtain ⟨ha, hrest⟩ := pairwise_cons.1 h
      have hab := ha b mem_cons_self
      simp [hasEqualPair, hab.ne, ih (pairwise_cons.1 hrest).2]
    | case2 l hl => simp [hasEqualPair]
  have hsub : ∀ l : List UInt256, (merkleLevel orderedHashes l).Sublist l := by
    intro l
    induction l using merkleLevel.induct with
    | case1 a b rest ih => exact (ih.cons_cons b).cons a
    | case2 a => exact List.Sublist.refl _
    | case3 => exact List.Sublist.refl _
  induction fuel generalizing l with
  | zero => cases l <;> rfl
  | succ fuel ih =>
    match l, h with
    | [], _ => rfl
    | [a], _ => rfl
    | a :: b :: rest, h =>
      rw [merkleLoop, hpair _ h]
      exact ih (h.sublist (hsub _))

theorem pairwise_crowd (n : ℕ) :
    ((crowd n).map fun tx => tx.getHash orderedHashes).Pairwise (· < ·) := by
  rw [crowd, map_cons, List.map_map, pairwise_cons]
  refine ⟨fun a ha => ?_, pairwise_map.2 ?_⟩
  · obtain ⟨i, -, rfl⟩ := List.mem_map.1 ha
    exact Nat.succ_pos i
  · refine pairwise_lt_range.imp fun hij => ?_
    exact Nat.succ_lt_succ hij

theorem smallTx_checks (i : ℕ) :
    checkBlockTransaction measuringNode (updateBlockSizeParams 8000000) false (smallTx i) =
      .ok false := by
  have hsize : measuringNode.txSerializeSize (smallTx i) = 60 := length_serialize_smallTx false i
  have hspend : hasOpSpend (smallTx i) = false := by
    simp [hasOpSpend, smallTx, CScript.hasOpSpend]
  have hcontract : hasCreateOrCall (smallTx i) = false := by
    simp [hasCreateOrCall, smallTx, CScript.hasOpCreate, CScript.hasOpCall, CScript.find, findFrom]
  have hcoinbase : isCoinBase (smallTx i) = false := by
    simp [isCoinBase, smallTx, COutPoint.isNull, COutPoint.null]
  have htx : checkTransaction measuringNode (updateBlockSizeParams 8000000) (smallTx i) = .ok () := by
    simp only [checkTransaction, bind_eq_ok, hsize]
    refine ⟨(), rfl, (), rfl, (), by decide, 1, rfl, (), by simp [smallTx], ?_⟩
    rw [checkPrevouts, if_neg (by simp [hcoinbase])]
    simp [smallTx, COutPoint.isNull, COutPoint.null]
  simp [checkBlockTransaction, htx, hspend, hcontract, require]

/-- **A block of up to 65536 transactions passes the checks.** -/
theorem crowdedBlock_checks {n : ℕ} (hn : n ≤ 65535) :
    (∃ block', checkBlock orderedHashes measuringNode (updateBlockSizeParams 8000000)
      (crowdedBlock n) true true true = .ok block') ∧
    FitsLimits measuringNode (updateBlockSizeParams 8000000) (crowdedBlock n) := by
  have hvtx : (crowdedBlock n).vtx = crowd n := rfl
  constructor
  · have hloop : (crowd n).foldlM
        (checkBlockTransaction measuringNode (updateBlockSizeParams 8000000)) false =
          .ok false := by
      have hrest : ∀ l : List ℕ, (l.map smallTx).foldlM
          (checkBlockTransaction measuringNode (updateBlockSizeParams 8000000)) false =
            .ok false := by
        intro l
        induction l with
        | nil => rfl
        | cons i l ih => rw [map_cons, foldlM_cons, smallTx_checks, ok_bind, ih]
      have hcoinbase : checkBlockTransaction measuringNode (updateBlockSizeParams 8000000) false
          (sampleCoinbase 0) = .ok false := by decide
      rw [crowd, foldlM_cons, hcoinbase, ok_bind, hrest]
    have hroot : checkMerkleRoot orderedHashes (crowdedBlock n) = .ok () := by
      have hmut : (blockMerkleRoot orderedHashes (crowd n)).2 = false :=
        orderedHashes_not_mutated (pairwise_crowd n)
      simp only [checkMerkleRoot, bind_eq_ok, hvtx, hmut]
      exact ⟨(), by simp [crowdedBlock], rfl⟩
    have hfirst : checkCoinbase (crowd n) = .ok () := by
      simp only [checkCoinbase, crowd, bind_eq_ok]
      refine ⟨(), by decide, (), ?_, by decide⟩
      simp [smallTx, isCoinBase, COutPoint.isNull, COutPoint.null]
    have hsigops : ((crowd n).map getLegacySigOpCount).sum = 0 := by
      refine sum_eq_zero fun x hx => ?_
      obtain ⟨tx, htx, rfl⟩ := List.mem_map.1 hx
      rcases mem_cons.1 htx with rfl | htx
      · decide
      · obtain ⟨i, -, rfl⟩ := List.mem_map.1 htx
        rfl
    have hbody : checkBlockBody orderedHashes measuringNode (updateBlockSizeParams 8000000) false
        (crowdedBlock n) true true true = .ok () := by
      simp only [checkBlockBody, bind_eq_ok, checkWhen_eq_ok, hvtx, hfirst, hroot, hloop, hsigops]
      exact ⟨(), rfl, (), rfl, (), fun _ => trivial, (), trivial, (), fun h => (by cases h), (), rfl,
        false, rfl, rfl⟩
    exact ⟨{ crowdedBlock n with fChecked := true }, by
      rw [checkBlock, checkBlockWith, hbody]; rfl⟩
  · have hsize := length_serialize_crowdedBlock false n
    have htotal := length_serialize_crowdedBlock true n
    have hweight : (crowdedBlock n).weight ≤ 32000000 := by
      unfold CBlock.weight
      omega
    refine ⟨by simp [hvtx, crowd], ?_, ?_, hweight⟩
    · rw [hvtx, crowd, length_cons, length_map, length_range]
      show n + 1 ≤ 8000000
      omega
    · show ((crowdedBlock n).serialize false).length ≤ 8000000
      omega

/-- **A block that passes the checks is not relayed:** with 65536
transactions, of less than four million bytes, it cannot be written. -/
theorem crowdedBlock_not_written :
    (∃ block', checkBlock orderedHashes measuringNode (updateBlockSizeParams 8000000)
      (crowdedBlock 65535) true true true = .ok block') ∧
    FitsLimits measuringNode (updateBlockSizeParams 8000000) (crowdedBlock 65535) ∧
    ((crowdedBlock 65535).serialize true).length ≤ 4000000 ∧
    ∀ (S : ShortIdHashes) (fUseWTXID fAllowWitness : Bool) (nonce : UInt64) c,
      CBlockHeaderAndShortTxIDs.ofBlock orderedHashes S (crowdedBlock 65535) fUseWTXID nonce =
        .ok c → c.serialize fAllowWitness = .error "indexes overflowed 16 bits" := by
  obtain ⟨hcheck, hfits⟩ := crowdedBlock_checks le_rfl
  have hsize := length_serialize_crowdedBlock true 65535
  refine ⟨hcheck, hfits, by omega, fun S fUseWTXID fAllowWitness nonce c hc => ?_⟩
  obtain ⟨-, hcount, -⟩ := CBlockHeaderAndShortTxIDs.ofBlock_eq_ok hc
  refine CBlockHeaderAndShortTxIDs.serialize_of_lt ?_
  rw [hcount, show (crowdedBlock 65535).vtx = crowd 65535 from rfl, crowd, length_cons,
    length_map, length_range]
  decide

/-- Governance contracts that were never set. -/
def unsetDgp : SilubiumDGP := ⟨true, id, fun _ _ => none, fun _ _ => []⟩

/-- A peer with nothing in its memory pool. -/
def emptyPeer : ReceivingPeer := ⟨8000000, [], [], fun _ _ => 1⟩

theorem twoTransactions_relayed :
    Relayed orderedHashes ⟨fun _ => (0, 0), fun _ hash => hash⟩ emptyPeer (crowdedBlock 1) false true
      0 := by
  obtain ⟨⟨block', hcheck⟩, hfits⟩ := crowdedBlock_checks (show 1 ≤ 65535 by decide)
  exact (relayed_iff (D := unsetDgp) (show unsetDgp.getBlockSize 0 = some 8000000 by decide)
    measuringNode_measuresBytes (fun h => by cases h) hcheck hfits emptyPeer rfl false true 0).2
    ⟨by decide, by decide⟩

end Slucore
