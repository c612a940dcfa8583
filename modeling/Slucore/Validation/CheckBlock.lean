import Slucore.Validation.TxVerify
/-!
# Validation — the context-free checks of a block

`CheckBlock` and `CheckBlockSW` have one body; they differ in whether the
header's proof of stake is checked again. A block that passes carries
the flag `fChecked`, and the flag makes later calls return at once, so
what a call guarantees of a block that has the flag is what an earlier
call guaranteed (`Vouched`). `Shape` collects what the checks establish.
-/


namespace Slucore

variable (H : Hashes) (N : Node) (lim : BlockLimits)

/-- Whether a script is a witness commitment. -/
def isWitnessCommitment (s : CScript) : Bool :=
  decide (38 ≤ s.length) && s.take 6 == [0x6a, 0x24, 0xaa, 0x21, 0xa9, 0xed]

/-- `GetWitnessCommitmentIndex`: the last such output of the coinbase;
`none` is `-1`. -/
def getWitnessCommitmentIndex (block : CBlock) : Option ℕ :=
  (((block.vtx.head?.map CTransaction.vout).getD []).zipIdx.filter fun p =>
    isWitnessCommitment p.1.scriptPubKey).getLast?.map Prod.snd

/-- `CheckFirstCoinstakeOutput`: the coinbase of a proof-of-stake block has
an empty output and, beside it, at most the commitment. -/
def checkFirstCoinstakeOutput (block : CBlock) (coinbase : CTransaction) : Bool :=
  match getWitnessCommitmentIndex block, coinbase.vout with
  | none, [out] => out.isEmpty
  | some _, [out, commitment] => out.isEmpty && commitment.nValue == 0
  | _, _ => false

/-- `CheckBlockSignature`. -/
def checkBlockSignature (block : CBlock) : Bool :=
  if block.isProofOfWork then block.vchBlockSig.isEmpty else N.verifyBlockSig block

/-- `CheckBlockHeader`. -/
def checkBlockHeader (block : CBlockHeader) (fCheckPOW fCheckPOS : Bool) :
    Except Failure Unit := do
  require (!(fCheckPOW && block.isProofOfWork && !N.checkHeaderPoW block))
    (.dos 50 "high-hash")
  require (!(fCheckPOS && !N.isInitialBlockDownload && block.isProofOfStake &&
    !N.checkHeaderPoS block && decide (block.nVersion ≠ swVersion))) (.dos 50 "bad-cb-header")

/-- `FutureDrift`, in 32-bit arithmetic. -/
def futureDrift (nTime : ℕ) : ℕ := (nTime + 15) % 2 ^ 32

/-- The check of the Merkle root. -/
def checkMerkleRoot (block : CBlock) : Except Failure Unit := do
  let (hashMerkleRoot2, mutation) := blockMerkleRoot H block.vtx
  require (block.hashMerkleRoot == hashMerkleRoot2) (.dos 100 "bad-txnmrklroot" true)
  require (!mutation) (.dos 100 "bad-txns-duplicate" true)

/-- The first transaction is a coinbase without contract opcodes, and the
only coinbase. -/
def checkCoinbase (vtx : List CTransaction) : Except Failure Unit :=
  match vtx with
  | [] => .error (.dos 100 "bad-cb-missing")
  | coinbase :: rest => do
    require coinbase.isCoinBase (.dos 100 "bad-cb-missing")
    require (rest.all fun tx => !tx.isCoinBase) (.dos 100 "bad-cb-multiple")
    require (!(coinbase.hasOpSpend || coinbase.hasCreateOrCall)) (.dos 100 "bad-cb-contract")

/-- The rules on the coinstake, for a proof-of-stake block. -/
def checkCoinstake (block : CBlock) : Except Failure Unit :=
  match block.vtx with
  | [] => .error (.fatal "block.vtx[0]")
  | coinbase :: rest => do
    require (checkFirstCoinstakeOutput block coinbase) (.dos 100 "bad-cb-missing")
    match rest with
    | [] => .error (.dos 100 "bad-cs-missing")
    | coinstake :: others =>
      require coinstake.isCoinStake (.dos 100 "bad-cs-missing")
      require (coinstake.vin.head?.map CTxIn.prevout == some block.prevoutStake)
        (.dos 100 "bad-cs-invalid")
      require (others.all fun tx => !tx.isCoinStake) (.dos 100 "bad-cs-multiple")
      require (!(coinstake.hasOpSpend || coinstake.hasCreateOrCall)) (.dos 100 "bad-cs-contract")

/-- One turn of the loop over the transactions: an `OP_SPEND` transaction
stands right after a contract transaction or after another one. -/
def checkBlockTransaction (lastWasContract : Bool) (tx : CTransaction) : Except Failure Bool := do
  checkTransaction N lim tx
  require (!tx.hasOpSpend || lastWasContract) (.dos 100 "bad-opspend-tx")
  return tx.hasCreateOrCall || tx.hasOpSpend

/-- `GetLegacySigOpCount`. -/
def getLegacySigOpCount (tx : CTransaction) : ℕ :=
  (tx.vin.map fun i => i.scriptSig.getSigOpCount).sum +
    (tx.vout.map fun o => o.scriptPubKey.getSigOpCount).sum

/-- The common body of `CheckBlock` and `CheckBlockSW`, without the flag. -/
def checkBlockBody (fCheckPOS : Bool) (block : CBlock)
    (fCheckPOW fCheckMerkleRoot fCheckSig : Bool) : Except Failure Unit := do
  checkBlockHeader N block.toCBlockHeader fCheckPOW fCheckPOS
  require (!(block.isProofOfStake && decide (futureDrift N.getAdjustedTime < block.nTime)))
    (.error "CheckBlock() : block timestamp too far in the future")
  checkWhen fCheckMerkleRoot (checkMerkleRoot H block)
  checkCoinbase block.vtx
  checkWhen block.isProofOfStake (checkCoinstake block)
  require (!(fCheckSig && !checkBlockSignature N block)) (.dos 100 "bad-blk-signature")
  let _ ← block.vtx.foldlM (checkBlockTransaction N lim) false
  require (decide ((block.vtx.map getLegacySigOpCount).sum * witnessScaleFactor % 2 ^ 32 ≤
    lim.dgpMaxBlockSigOps)) (.dos 100 "bad-blk-sigops")

/-- `CheckBlock`, and `CheckBlockSW` with `fCheckPOS`: the block, with its
flag set when everything was checked. -/
def checkBlockWith (fCheckPOS : Bool) (block : CBlock)
    (fCheckPOW fCheckMerkleRoot fCheckSig : Bool) : Except Failure CBlock :=
  if block.fChecked then .ok block
  else do
    checkBlockBody H N lim fCheckPOS block fCheckPOW fCheckMerkleRoot fCheckSig
    return { block with fChecked := fCheckPOW && fCheckMerkleRoot }

/-- `CheckBlock`. -/
def checkBlock (block : CBlock) (fCheckPOW fCheckMerkleRoot fCheckSig : Bool) :
    Except Failure CBlock :=
  checkBlockWith H N lim false block fCheckPOW fCheckMerkleRoot fCheckSig

/-- `CheckBlockSW`. -/
def checkBlockSW (block : CBlock) (fCheckPOW fCheckMerkleRoot fCheckSig : Bool) :
    Except Failure CBlock :=
  checkBlockWith H N lim true block fCheckPOW fCheckMerkleRoot fCheckSig

/-- The flag of a block was set by a check that passed: by either routine,
at an earlier moment of the node, with the proof of work and the Merkle
root checked. -/
def CBlock.Vouched (block : CBlock) : Prop :=
  block.fChecked = true → ∃ (N : Node) (lim : BlockLimits) (fCheckPOS fCheckSig : Bool),
    checkBlockBody H N lim fCheckPOS block true true fCheckSig = .ok ()

/-! ## What a block that passes is like -/

/-- The Merkle root of the header commits to the transactions. -/
def CBlock.RootCommits (block : CBlock) : Prop :=
  block.hashMerkleRoot = (blockMerkleRoot H block.vtx).1 ∧ (blockMerkleRoot H block.vtx).2 = false

variable {H N lim}

variable {block : CBlock}

theorem rootCommits_of_checkMerkleRoot
    (h : checkMerkleRoot H block = .ok ()) : block.RootCommits H := by
  simp only [checkMerkleRoot, bind_eq_ok, require_eq_ok, beq_iff_eq, Bool.not_eq_true'] at h
  obtain ⟨-, hroot, hmut⟩ := h
  exact ⟨hroot, hmut⟩

/-- The coinbase of a block and the transactions after it. -/
structure CoinbaseFirst (vtx : List CTransaction) (coinbase : CTransaction)
    (rest : List CTransaction) : Prop where
  vtx_eq : vtx = coinbase :: rest
  isCoinBase : coinbase.isCoinBase = true
  others : ∀ tx ∈ rest, tx.isCoinBase = false
  plain : coinbase.hasOpSpend = false ∧ coinbase.hasCreateOrCall = false

variable {vtx : List CTransaction}

theorem coinbaseFirst_of_checkCoinbase
    (h : checkCoinbase vtx = .ok ()) : ∃ coinbase rest, CoinbaseFirst vtx coinbase rest := by
  unfold checkCoinbase at h
  split at h
  · cases h
  rename_i coinbase rest
  simp only [bind_eq_ok, require_eq_ok, List.all_eq_true, Bool.not_eq_true',
    Bool.or_eq_false_iff] at h
  obtain ⟨-, hcb, -, hrest, hplain⟩ := h
  exact ⟨coinbase, rest, rfl, hcb, hrest, hplain⟩

/-- The coinstake of a proof-of-stake block: the second transaction, the
only one of its shape, beside a coinbase that creates no value. -/
structure CoinstakeSecond (coinbase : CTransaction) (rest : List CTransaction)
    (coinstake : CTransaction) (others : List CTransaction) : Prop where
  rest_eq : rest = coinstake :: others
  isCoinStake : coinstake.isCoinStake = true
  others : ∀ tx ∈ others, tx.isCoinStake = false
  coinbase_valueOut : coinbase.valueOut = 0

variable {coinbase : CTransaction}

/-- A coinbase that `CheckFirstCoinstakeOutput` accepts creates no value. -/
theorem valueOut_of_checkFirstCoinstakeOutput
    (h : checkFirstCoinstakeOutput block coinbase = true) : coinbase.valueOut = 0 := by
  unfold checkFirstCoinstakeOutput at h
  unfold CTransaction.valueOut
  split at h
  · rename_i out _ hout
    have : out.nValue = 0 := by simpa using (Bool.and_eq_true_iff.1 h).1
    simp [hout, this]
  · rename_i out commitment _ hout
    obtain ⟨he, hc⟩ := Bool.and_eq_true_iff.1 h
    have : out.nValue = 0 := by simpa using (Bool.and_eq_true_iff.1 he).1
    have hc' : commitment.nValue = 0 := by simpa using hc
    simp [hout, this, hc']
  · cases h

theorem coinstakeSecond_of_checkCoinstake
    {rest : List CTransaction} (hvtx : block.vtx = coinbase :: rest)
    (h : checkCoinstake block = .ok ()) :
    ∃ coinstake others, CoinstakeSecond coinbase rest coinstake others := by
  simp only [checkCoinstake, hvtx, bind_eq_ok, require_eq_ok] at h
  obtain ⟨-, hfirst, h⟩ := h
  split at h
  · cases h
  rename_i coinstake others
  simp only [bind_eq_ok, require_eq_ok, List.all_eq_true, Bool.not_eq_true'] at h
  obtain ⟨-, hcs, -, -, -, hothers, -⟩ := h
  exact ⟨coinstake, others, rfl, hcs, hothers, valueOut_of_checkFirstCoinstakeOutput hfirst⟩

/-- The loop over the transactions checks each of them. -/
theorem checked_of_foldlM {b b' : Bool}
    (h : vtx.foldlM (checkBlockTransaction N lim) b = .ok b') : ∀ tx ∈ vtx, Checked tx := by
  refine foldlM_induct (motive := fun done _ => ∀ tx ∈ done, Checked tx) h (by simp) ?_
  intro done tx t t' _ hdone hstep
  simp only [checkBlockTransaction, bind_eq_ok] at hstep
  obtain ⟨⟨⟩, hcheck, -⟩ := hstep
  intro tx' hmem
  rcases List.mem_append.1 hmem with hmem | hmem
  · exact hdone tx' hmem
  · obtain rfl := List.mem_singleton.1 hmem
    exact checked_of_checkTransaction hcheck

/-- **What the context-free checks establish of a block**, apart from the
Merkle root. -/
structure Shape (block : CBlock) : Prop where
  coinbase : ∃ coinbase rest, CoinbaseFirst block.vtx coinbase rest ∧
    (block.isProofOfStake = true →
      ∃ coinstake others, CoinstakeSecond coinbase rest coinstake others)
  checked : ∀ tx ∈ block.vtx, Checked tx

/-- The shape is one of the header and the transactions. -/
theorem Shape.congr {block' : CBlock} (h : Shape block)
    (hheader : block'.toCBlockHeader = block.toCBlockHeader) (hvtx : block'.vtx = block.vtx) :
    Shape block' := by
  obtain ⟨hcoinbase, hchecked⟩ := h
  refine ⟨?_, by rwa [hvtx]⟩
  rwa [hvtx, hheader]

variable {fCheckMerkleRoot : Bool}

theorem shape_of_checkBlockBody {fCheckPOS fCheckPOW fCheckSig : Bool}
    (h : checkBlockBody H N lim fCheckPOS block fCheckPOW fCheckMerkleRoot fCheckSig = .ok ()) :
    Shape block ∧ (fCheckMerkleRoot = true → block.RootCommits H) := by
  simp only [checkBlockBody, bind_eq_ok, checkWhen_eq_ok] at h
  obtain ⟨-, -, -, -, -, hroot, ⟨⟩, hcb, -, hcs, -, -, _, hloop, -⟩ := h
  obtain ⟨coinbase, rest, hfirst⟩ := coinbaseFirst_of_checkCoinbase hcb
  exact ⟨⟨⟨coinbase, rest, hfirst, fun hpos =>
    coinstakeSecond_of_checkCoinstake hfirst.vtx_eq (hcs hpos)⟩, checked_of_foldlM hloop⟩,
    fun hm => rootCommits_of_checkMerkleRoot (hroot hm)⟩

/-- **A check that passes establishes the shape of a block**, at once or
through the flag. -/
theorem shape_of_checkBlockWith {fCheckPOS fCheckPOW fCheckSig : Bool}
    {block' : CBlock} (hv : block.Vouched H)
    (h : checkBlockWith H N lim fCheckPOS block fCheckPOW fCheckMerkleRoot fCheckSig
      = .ok block') :
    Shape block ∧ (fCheckMerkleRoot = true → block.RootCommits H) := by
  unfold checkBlockWith at h
  split at h
  · rename_i hflag
    obtain ⟨N', lim', pos, sig, hbody⟩ := hv hflag
    obtain ⟨hshape, hroot⟩ := shape_of_checkBlockBody hbody
    exact ⟨hshape, fun _ => hroot rfl⟩
  · simp only [bind_eq_ok] at h
    obtain ⟨⟨⟩, hbody, -⟩ := h
    exact shape_of_checkBlockBody hbody

end Slucore
