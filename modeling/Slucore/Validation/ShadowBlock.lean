import Slucore.Aal.TopFrame
import Slucore.Script.Converter
import Slucore.Validation.Turns
/-!
# Validation — the shadow block, and who spends contract coins

While it connects a block, `ConnectBlock` rebuilds it: transactions
without `OP_SPEND` are copied and the transfers of every contract
execution follow the transaction that caused it. `executions` and
`weave` say what is rebuilt without reference to the loop; that the loop
builds it is an induction over the turns. At the end only the header
hashes are compared, so that the block is the rebuilt one rests on the
hash functions.
-/


namespace Slucore

open List

namespace BlockContext

variable (H : Hashes) (N : Node) (C : BlockContext)

/-- The transfers made by each transaction of a list, executed one after
the other; `none` when an execution fails. -/
def executions : List CTransaction → CCoinsViewCache → AalState →
    Option (List (List CTransaction))
  | [], _, _ => some []
  | tx :: vtx, view, w => do
    let (w', transfers) ← produce H N C tx view w
    let rest ← executions vtx (view.afterTx H C.nHeight tx) w'
    return transfers :: rest

/-- The transactions of a list without an `OP_SPEND` input, in order, each
followed by the transfers it makes. -/
def weave (vtx : List CTransaction) (produced : List (List CTransaction)) : List CTransaction :=
  (vtx.zip produced).flatMap fun p => entry p.1 p.2

variable {H N C} {vtx : List CTransaction} {s s' : ConnectState} {k : ℕ}

variable {tx : CTransaction} {produced : List (List CTransaction)}

theorem executions_cons_eq_some {view : CCoinsViewCache} {w : AalState} :
    executions H N C (tx :: vtx) view w = some produced ↔ ∃ w' transfers rest,
      produce H N C tx view w = some (w', transfers) ∧
      executions H N C vtx (view.afterTx H C.nHeight tx) w' = some rest ∧
      transfers :: rest = produced := by
  simp [executions, Option.bind_eq_some_iff]

/-- **The loop builds the shadow block.** -/
theorem Turns.checkVtx_eq (h : Turns H N C k vtx s s') :
    ∃ produced, executions H N C vtx s.view s.aal = some produced ∧
      s'.checkVtx = s.checkVtx ++ weave vtx produced := by
  induction h with
  | nil => exact ⟨[], rfl, by simp [weave]⟩
  | cons head tail ih =>
    obtain ⟨transfers, hprod, hvtx⟩ := head.rebuilds
    obtain ⟨rest, hrest, hvtx'⟩ := ih
    rw [head.view_eq] at hrest
    refine ⟨transfers :: rest, executions_cons_eq_some.2 ⟨_, _, _, hprod, hrest, rfl⟩, ?_⟩
    rw [hvtx', hvtx, List.append_assoc]
    rfl

/-- A transaction with an `OP_SPEND` input that is part of what is woven
was made by an execution. -/
theorem mem_flatten_of_mem_weave
    (hspend : tx.hasOpSpend = true) (h : tx ∈ weave vtx produced) : tx ∈ produced.flatten := by
  obtain ⟨⟨t, transfers⟩, hp, hmem⟩ := mem_flatMap.1 h
  rcases mem_append.1 hmem with hmem | hmem
  · -- a transaction copied has no such input
    split at hmem
    · cases hmem
    · rename_i ht
      obtain rfl := mem_singleton.1 hmem
      exact absurd hspend ht
  · exact mem_flatten.2 ⟨transfers, (of_mem_zip hp).2, hmem⟩

/-- A transaction that no execution follows and that has no `OP_SPEND`
input weaves to itself. -/
theorem executions_of_plain (view : CCoinsViewCache) (w : AalState)
    (h : ∀ tx ∈ vtx, tx.hasOpSpend = false ∧ tx.hasCreateOrCall = false) :
    ∃ produced, executions H N C vtx view w = some produced ∧ weave vtx produced = vtx := by
  induction vtx generalizing view with
  | nil => exact ⟨[], rfl, rfl⟩
  | cons tx vtx ih =>
    obtain ⟨hspend, hcall⟩ := h tx mem_cons_self
    obtain ⟨rest, hrest, hweave⟩ := ih (view.afterTx H C.nHeight tx)
      fun t ht => h t (mem_cons_of_mem tx ht)
    refine ⟨[] :: rest, executions_cons_eq_some.2 ⟨w, [], rest, ?_, hrest, rfl⟩, ?_⟩
    · simp [produce, hcall]
    · simp only [weave, zip_cons_cons, flatMap_cons, entry, hspend, Bool.false_eq_true, if_false,
        singleton_append] at hweave ⊢
      rw [hweave]

/-- The script of a coin that a contract owns or that pays for a contract
execution. -/
def isContractScript (script : CScript) : Bool := script.hasOpCreate || script.hasOpCall

/-- **An input of a contract coin has `OP_SPEND` as its script**, and so
its transaction counts as an `OP_SPEND` one. -/
theorem Turn.hasOpSpend {i : ℕ} (h : Turn H N C tx i s s')
    (hcb : tx.isCoinBase = false) {j : CTxIn} (hj : j ∈ tx.vin) {coin : Coin}
    (hcoin : s.view.getCoin j.prevout = some coin)
    (hscript : isContractScript coin.out.scriptPubKey = true) : tx.hasOpSpend = true := by
  have hall := List.all_eq_true.1 (h.contractCoins hcb) j hj
  rw [CCoinsViewCache.accessCoin_of_getCoin hcoin] at hall
  unfold isContractScript at hscript
  rw [hscript, Bool.not_true, Bool.or_false] at hall
  exact List.any_eq_true.2 ⟨j, hj, hall⟩

end BlockContext

open BlockContext

variable {H : Hashes} {N : Node} {lim : BlockLimits} {block : CBlock} {pindex p : CBlockIndex}
variable {pprev : Option CBlockIndex} {view : CCoinsViewCache} {aal : AalState} {c : Connected}

/-- The shadow block of a block that was connected is the block, when the
hash functions tell the two apart. -/
theorem Accepted.checkVtx_eq {s : ConnectState}
    (h : Accepted H N lim block pindex p view aal false c s)
    (hroot : block.RootCommits H)
    (hheader : ∀ header, H.headerHash header = block.getHash H → header = block.toCBlockHeader)
    (hmerkle : (blockMerkleRoot H s.checkVtx).1 = (blockMerkleRoot H block.vtx).1 →
      s.checkVtx = block.vtx) : s.checkVtx = block.vtx := by
  have heq : (checkHeader H block s).hashMerkleRoot = block.hashMerkleRoot :=
    congrArg CBlockHeader.hashMerkleRoot (hheader _ (h.header rfl))
  exact hmerkle (heq.trans hroot.1)

/-- What the loop of `ConnectBlock` reads, for a block with parent `p`. -/
def contextOf (N : Node) (lim : BlockLimits) (block : CBlock) (pindex p : CBlockIndex)
    (aal : AalState) : BlockContext :=
  blockContext N (nextLimits lim (N.dgp aal.state (pindex.nHeight + 1))) block pindex.nHeight p aal

/-- **Contract coins are spent only by the contract layer.** A block that
`ConnectBlock` connects is its own transactions without `OP_SPEND` with
the transfers of the executions inserted, and every transaction that
spends a contract coin is one of those transfers. The hash functions are
assumed to tell apart headers from the block's header and the rebuilt
transactions from the block's; the genesis block is never executed and
has its coinbase only. -/
theorem contract_coins_spent_by_executions (hv : block.Vouched H)
    (hparent : ∀ q, pprev = some q → q = p)
    (hgenesis : block.getHash H = N.consensus.hashGenesisBlock → ∀ tx ∈ block.vtx,
      tx.isCoinBase = true ∧ tx.hasOpSpend = false ∧ tx.hasCreateOrCall = false)
    (hheader : ∀ header, H.headerHash header = block.getHash H → header = block.toCBlockHeader)
    (hmerkle : ∀ produced,
      executions H N (contextOf N lim block pindex p aal) block.vtx view aal = some produced →
      (blockMerkleRoot H (weave block.vtx produced)).1 = (blockMerkleRoot H block.vtx).1 →
      weave block.vtx produced = block.vtx)
    (h : connectBlock H N lim block pindex pprev view aal false = .ok c) :
    ∃ produced,
      executions H N (contextOf N lim block pindex p aal) block.vtx view aal = some produced ∧
      block.vtx = weave block.vtx produced ∧
      ∀ pre tx post, block.vtx = pre ++ tx :: post → tx.isCoinBase = false →
        ∀ j ∈ tx.vin, ∀ coin,
          (view.afterTxs H pindex.nHeight pre).getCoin j.prevout = some coin →
          isContractScript coin.out.scriptPubKey = true → tx ∈ produced.flatten := by
  obtain ⟨-, hroot, -, hgen | ⟨q, s, hq, hacc⟩⟩ := connectBlock_eq_ok hv h
  · obtain ⟨produced, hexec, hweave⟩ := executions_of_plain (H := H) (N := N)
      (C := contextOf N lim block pindex p aal) view aal fun tx htx => (hgenesis hgen tx htx).2
    refine ⟨produced, hexec, hweave.symm, fun pre tx post hvtx hcb => ?_⟩
    have htx : tx ∈ block.vtx := by simp [hvtx]
    rw [(hgenesis hgen tx htx).1] at hcb
    cases hcb
  · obtain rfl := hparent q hq
    obtain ⟨produced, hexec, hcheck⟩ := hacc.turns.checkVtx_eq
    rw [ConnectState.start, nil_append] at hcheck
    have hvtx := hacc.checkVtx_eq (hroot rfl) hheader (hcheck ▸ hmerkle produced hexec)
    rw [hcheck] at hvtx
    refine ⟨produced, hexec, hvtx.symm, fun pre tx post hsplit hcb j hj coin hcoin hscript => ?_⟩
    obtain ⟨t, t', hturn, hview⟩ := Turns.exists_turn (hsplit ▸ hacc.turns)
    have hspend := hturn.hasOpSpend hcb hj (hview ▸ hcoin) hscript
    have hmem : tx ∈ weave block.vtx produced := by
      rw [hvtx, hsplit]
      simp
    exact mem_flatten_of_mem_weave hspend hmem

/-! ## A block with a refused call -/

/-- The parameters of the main network; blocks are told from the genesis
block by hash 0. -/
def sampleParams : ConsensusParams where
  hashGenesisBlock := 0
  bip34Height := 0
  bip65Height := 0
  bip66Height := 0
  nSubsidyHalvingInterval := 985500
  nLastPOWBlock := 10000
  nFirstMPoSBlock := 10105
  nMPoSRewardRecipients := 5
  nEnableHeaderSignatureHeight := 399100
  interval_pos := by decide

/-- Hashes that single out one header. -/
def singlingHashes (header : CBlockHeader) : Hashes where
  serializeHash tx := 1 + tx.valueOut.toNat
  headerHash h := if h = header then 1 else 2
  sha256D64 a b := 1000 * a + b

/-- Scripts are recognised by their form. -/
def destinationOf (s : CScript) : Option TxnOutType :=
  if BlockContext.isPayToPubkey s then some .pubkey
  else if BlockContext.isPayToPubkeyHash s then some .pubkeyhash
  else none

/-- Every block is proof-of-stake, staked by address 9. -/
def stakingIndex : StakeIndex := ⟨fun _ => some true, fun _ => some 9, false⟩

/-- A node of the main network at height 9, with the values of the
governance contracts before any vote. What is outside the model passes,
and byte code uses 30000 gas. -/
def sampleNode : Node where
  consensus := sampleParams
  testnet := false
  isInitialBlockDownload := false
  getAdjustedTime := 1000
  tipHeight := 9
  checkHardened _ _ := true
  txSerializeSize _ := 100
  blockSerializeSize _ := 1000
  getBlockWeight _ := 4000
  checkHeaderPoW _ := true
  checkHeaderPoS _ := true
  verifyBlockSig _ := true
  solver _ := true
  inputPubKeyMatches _ _ := true
  checkCoinStakeTimestamp _ := true
  getNextWorkRequired _ := 0x1f00ffff
  checkProofOfStake _ _ := .ok ()
  sequenceLocks _ _ := true
  getTransactionSigOpCost _ _ := 0
  checkInputs _ _ := .ok ()
  checkQueueWait _ := true
  extractDestination := destinationOf
  ethAddrFromScript _ := 2
  extractSilubiumTX := extractSilubiumTX (singlingHashes ⟨0, 0, 0, 0, 0, 0, 0, 0, .null, []⟩)
    ⟨id, id, id, id, id⟩ fun script => addressOfBytes ((script.drop 3).take 20)
  stakes := stakingIndex
  dgp _ _ := ⟨8000000, 10, 40000000⟩
  aalEnv _ _ := SilubiumState.sampleEnv
  vm _ _ t := ⟨false, [], .ret [], if 30000 ≤ t.gas then t.gas - 30000 else 0⟩
  accountsAt _ _ := none
  vinsAt _ _ := none
  emptyTrieRoot := 0
  writeUndoDataForBlock _ := true
  writeIndexes _ := true

/-- A view that holds one coin, of value `nValue`, at outpoint `(100, 0)`. -/
def sampleView (nValue : ℕ) : CCoinsViewCache :=
  .ofBase ⟨fun o => if o = ⟨100, 0⟩ then
      some ⟨⟨nValue, payToPubkeyHash 1⟩, false, false, 1⟩
    else none, 7, by
      intro o c hc
      split at hc
      · obtain ⟨⟩ := hc
        simp [Coin.isSpent, CTxOut.isNull]
      · cases hc⟩

/-- The parent of the sample blocks, at height 9. -/
def sampleParent : CBlockIndex := ⟨9, 7, 0, 0, 0, 0, 0, 1, true, false⟩

/-- The index of a sample block. -/
def sampleIndex (nHeight : ℕ) : CBlockIndex := ⟨nHeight, 1, 0, 0, 0, 0, 1, 0, false, false⟩

/-- A coinbase that pays `nValue`. -/
def sampleCoinbase (nValue : ℤ) : CTransaction where
  vin := [{ prevout := .null, scriptSig := [0x5a, 0] }]
  vout := [⟨nValue, [0x51]⟩]

/-- A call of `a` with 100000 gas at price 10, and one byte of data. -/
def callScript (a : Address) : CScript :=
  [1, 4, 3, 0xa0, 0x86, 1, 1, 10, 1, 0] ++ pushData (addressBytes a) ++ [0xc2]

/-- A call, with value 5, of an address that is not in use. -/
def refusedCall : CTransaction where
  vin := [{ prevout := ⟨100, 0⟩, scriptSig := [] }]
  vout := [⟨5, callScript 500⟩, ⟨2, [0x51]⟩]

/-- The transfer that sends the 5 back. -/
def refusedCallRefund : CTransaction where
  vin := [{ prevout := ⟨8, 0⟩, scriptSig := spendScript }]
  vout := [⟨5, payToPubkeyHash 1⟩]

/-- A block of these transactions, with proof of stake by `prevoutStake`, or
with proof of work where that is null. -/
def sampleBlock (prevoutStake : COutPoint) (vtx : List CTransaction) : CBlock where
  nVersion := 0x20000000
  hashPrevBlock := 7
  hashMerkleRoot := (blockMerkleRoot (singlingHashes ⟨0, 0, 0, 0, 0, 0, 0, 0, .null, []⟩) vtx).1
  nTime := 900
  nBits := 0x1f00ffff
  nNonce := 0
  hashStateRoot := 0
  hashUTXORoot := 0
  prevoutStake := prevoutStake
  vchBlockSig := []
  vtx := vtx

def refusedCallBlock : CBlock :=
  sampleBlock .null [sampleCoinbase 0, refusedCall, refusedCallRefund]

/-- The contract state before the sample blocks. -/
def idleWorld : AalState := SilubiumState.sampleWorld

/-- The limits a node starts with. -/
def sampleLimits : BlockLimits := updateBlockSizeParams 2000000

theorem refusedCallBlock_connects : (connectBlock (singlingHashes refusedCallBlock.toCBlockHeader)
    sampleNode sampleLimits refusedCallBlock (sampleIndex 10) (some sampleParent)
    (sampleView 20000000) idleWorld false).toOption.isSome = true := by
  decide

/-- What is woven for the block with the refused call is that block. -/
theorem refusedCallBlock_woven :
    (executions (singlingHashes refusedCallBlock.toCBlockHeader) sampleNode
      (contextOf sampleNode sampleLimits refusedCallBlock (sampleIndex 10) sampleParent idleWorld)
      refusedCallBlock.vtx (sampleView 20000000) idleWorld).map (weave refusedCallBlock.vtx) =
        some refusedCallBlock.vtx := by
  decide +kernel

theorem refund_spends_contract_coin : ∃ produced,
    executions (singlingHashes refusedCallBlock.toCBlockHeader) sampleNode
      (contextOf sampleNode sampleLimits refusedCallBlock (sampleIndex 10) sampleParent idleWorld)
      refusedCallBlock.vtx (sampleView 20000000) idleWorld = some produced ∧
    refusedCallBlock.vtx = weave refusedCallBlock.vtx produced ∧
      refusedCallRefund ∈ produced.flatten := by
  obtain ⟨c, hc⟩ := exists_ok_of_isSome refusedCallBlock_connects
  obtain ⟨produced, hexec, hweave, hcoins⟩ := contract_coins_spent_by_executions
    (p := sampleParent) (fun h => by cases h) (fun q hq => (Option.some.inj hq).symm)
    (fun h => absurd h (by decide))
    (fun header hheader => by
      by_contra hne
      simp [singlingHashes, CBlock.getHash, hne] at hheader)
    (fun produced hp _ => by
      have := refusedCallBlock_woven
      rw [hp] at this
      exact Option.some.inj this) hc
  refine ⟨produced, hexec, hweave, hcoins [sampleCoinbase 0, refusedCall] _ [] rfl (by decide)
    _ (mem_singleton_self _) ⟨⟨5, callScript 500⟩, false, false, 10⟩ (by decide) (by decide)⟩

end Slucore
