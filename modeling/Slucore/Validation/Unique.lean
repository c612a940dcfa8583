import Slucore.Primitives.ScriptNum
import Slucore.Validation.AcceptBlock
import Slucore.Validation.Undo
/-!
# Validation — no coin is written over

Without the rule of BIP30 a block may contain a transaction that is
already in the chain only if the chain's other rules let it. They do
not: a coinbase starts with the height of its block, so coinbases of
different blocks differ, and any other transaction spends a coin that
is gone once it has been connected. `Tracked` is the invariant that
carries this through a block and through a chain of blocks: every coin
comes from a transaction that was connected, all of those have different
ids, and what they spent is not there.
-/


namespace Slucore

open List Option CTransaction

/-! ## What the id of a transaction determines -/

namespace CTransaction

variable {t t' : CTransaction}

theorem prevouts_eq_of_stripWitness (h : t.stripWitness = t'.stripWitness) :
    t.vin.map CTxIn.prevout = t'.vin.map CTxIn.prevout := by
  have := congrArg (fun t => t.vin.map CTxIn.prevout) h
  simpa [stripWitness, Function.comp_def] using this

theorem scriptSigs_eq_of_stripWitness (h : t.stripWitness = t'.stripWitness) :
    t.vin.map CTxIn.scriptSig = t'.vin.map CTxIn.scriptSig := by
  have := congrArg (fun t => t.vin.map CTxIn.scriptSig) h
  simpa [stripWitness, Function.comp_def] using this

theorem isCoinBase_stripWitness : t.stripWitness.isCoinBase = t.isCoinBase := by
  unfold isCoinBase stripWitness
  cases hvin : t.vin with
  | nil => rfl
  | cons i is => cases is <;> rfl

theorem isCoinBase_eq_of_stripWitness (h : t.stripWitness = t'.stripWitness) :
    t.isCoinBase = t'.isCoinBase := by
  rw [← isCoinBase_stripWitness, h, isCoinBase_stripWitness]

/-- The first input of a transaction starts with this height. -/
def StatesHeight (t : CTransaction) (nHeight : ℕ) : Prop :=
  ∃ scriptSig, (t.vin.map CTxIn.scriptSig).head? = some scriptSig ∧
    pushInt64 nHeight <+: scriptSig

/-- **A coinbase states one height.** -/
theorem StatesHeight.unique (hid : t.stripWitness = t'.stripWitness) {m n : ℕ}
    (h : t.StatesHeight m) (h' : t'.StatesHeight n) (hm : m < 2 ^ 63) (hn : n < 2 ^ 63) :
    m = n := by
  obtain ⟨s, hs, hp⟩ := h
  obtain ⟨s', hs', hp'⟩ := h'
  rw [scriptSigs_eq_of_stripWitness hid, hs'] at hs
  obtain ⟨⟩ := hs
  exact eq_of_pushInt64_starts hm hn hp hp'

end CTransaction

/-- The rule on coinbases, where it is enforced from the start. -/
theorem statesHeight_of_checkCoinbaseHeight {P : ConsensusParams} {block : CBlock} {nHeight : ℕ}
    {coinbase : CTransaction} {rest : List CTransaction} (hvtx : block.vtx = coinbase :: rest)
    (hP : P.bip34Height = 0) (h : checkCoinbaseHeight P block nHeight = .ok ()) :
    coinbase.StatesHeight nHeight := by
  simp only [checkCoinbaseHeight, checkWhen_eq_ok, decide_eq_true_eq, hP, Nat.cast_nonneg,
    bind_eq_ok, orThrow_eq_ok, require_eq_ok, forall_const, hvtx] at h
  obtain ⟨scriptSig, hhead, hp⟩ := h
  exact ⟨scriptSig, by rw [List.head?_map]; exact hhead, hp⟩

/-! ## The invariant -/

/-- The ids of a list of transactions. -/
def txids (H : Hashes) (txs : List CTransaction) : List UInt256 :=
  txs.map fun tx => tx.getHash H

theorem txids_subset_append {H : Hashes} (l l' : List CTransaction) :
    txids H l ⊆ txids H (l ++ l') := by
  rw [txids, txids, map_append]
  exact subset_append_left _ _

/-- What holds of a view once the transactions of `done` have been
connected, all below height `nHeight`. -/
structure Tracked (H : Hashes) (nHeight : ℕ) (done : List CTransaction)
    (view : CCoinsViewCache) : Prop where
  coherent : view.Coherent
  /-- Every coin comes from a transaction that was connected. -/
  origin : ∀ o c, view.getCoin o = some c → o.hash ∈ txids H done
  /-- What was spent is gone, and came from a transaction that was connected. -/
  spent : ∀ tx ∈ done, tx.isCoinBase = false → ∀ o ∈ tx.vin.map CTxIn.prevout,
    view.getCoin o = none ∧ o.hash ∈ txids H done
  /-- Every coinbase states the height of its block. -/
  height : ∀ tx ∈ done, tx.isCoinBase = true → ∃ h < nHeight, tx.StatesHeight h

/-- Distinct transactions of a list have distinct ids, witnesses apart. -/
def DistinctIds (H : Hashes) (txs : List CTransaction) : Prop :=
  ∀ t ∈ txs, ∀ t' ∈ txs, t.getHash H = t'.getHash H → t.stripWitness = t'.stripWitness

variable {H : Hashes} {nHeight : ℕ} {done : List CTransaction} {view : CCoinsViewCache}

theorem DistinctIds.mono {txs txs' : List CTransaction} (h : DistinctIds H txs)
    (hsub : ∀ t ∈ txs', t ∈ txs) : DistinctIds H txs' :=
  fun t ht t' ht' => h t (hsub t ht) t' (hsub t' ht')

/-- Where no transaction that was connected has an id, no coin has it. -/
theorem Tracked.getCoin_eq_none (h : Tracked H nHeight done view) {txid : UInt256}
    (hnew : txid ∉ txids H done) (n : ℕ) : view.getCoin ⟨txid, n⟩ = none := by
  cases hg : view.getCoin ⟨txid, n⟩ with
  | none => rfl
  | some c => exact absurd (h.origin _ c hg) hnew

variable {tx : CTransaction}

/-- **A coinbase of the next height is new.** -/
theorem Tracked.coinbase_new (h : Tracked H nHeight done view)
    (hids : DistinctIds H (tx :: done)) (hcb : tx.isCoinBase = true)
    (hheight : tx.StatesHeight nHeight) (hlt : nHeight < 2 ^ 63) :
    tx.getHash H ∉ txids H done := by
  intro hmem
  obtain ⟨t, ht, heq⟩ := List.mem_map.1 hmem
  have hstrip := hids tx mem_cons_self t (mem_cons_of_mem tx ht) heq.symm
  obtain ⟨h', hlt', hstates⟩ := h.height t ht
    ((isCoinBase_eq_of_stripWitness hstrip).symm.trans hcb)
  have := CTransaction.StatesHeight.unique hstrip hheight hstates hlt (by omega)
  omega

/-- **A transaction that spends a coin is new:** had it been connected
before, the coin would be gone. -/
theorem spender_new
    (hgone : ∀ t ∈ done, t.isCoinBase = false → ∀ o ∈ t.vin.map CTxIn.prevout,
      view.getCoin o = none)
    (hids : DistinctIds H (tx :: done)) (hcb : tx.isCoinBase = false) (hvin : tx.vin ≠ [])
    (hhave : ∀ i ∈ tx.vin, view.haveCoin i.prevout = true) : tx.getHash H ∉ txids H done := by
  intro hmem
  obtain ⟨t, ht, heq⟩ := List.mem_map.1 hmem
  have hstrip := hids tx mem_cons_self t (mem_cons_of_mem tx ht) heq.symm
  obtain ⟨i, hi⟩ := exists_mem_of_ne_nil _ hvin
  have hprev : i.prevout ∈ t.vin.map CTxIn.prevout := by
    rw [← prevouts_eq_of_stripWitness hstrip]
    exact List.mem_map_of_mem hi
  have hnone := hgone t ht
    ((isCoinBase_eq_of_stripWitness hstrip).symm.trans hcb) _ hprev
  have := hhave i hi
  rw [CCoinsViewCache.haveCoin_eq, hnone] at this
  cases this

open CCoinsViewCache

variable {v : CCoinsViewCache}

/-- **Connecting a new transaction keeps the invariant.** -/
theorem Tracked.connect (h : Tracked H nHeight done view)
    {m k : ℕ} (hnew : tx.getHash H ∉ txids H done) (hup : Updated H tx k view v)
    (hhave : tx.isCoinBase = false → ∀ i ∈ tx.vin, view.haveCoin i.prevout = true)
    (hle : nHeight ≤ m) (hheight : tx.isCoinBase = true → ∃ h < m, tx.StatesHeight h) :
    Tracked H m (done ++ [tx]) v := by
  have hmem : ∀ {x : UInt256}, x ∈ txids H done → x ∈ txids H (done ++ [tx]) :=
    fun hx => txids_subset_append _ _ hx
  -- what is spent had a coin, so it came from an earlier transaction
  have hgone := hup.gone h.spent
    (fun o ho => eq_none_iff_forall_ne_some.2 fun c hc =>
      hnew ((CoinSet.created_eq_some.1 hc).1 ▸ ho))
    fun hcb i hi => have ⟨c, hc⟩ := isSome_iff_exists.1 (haveCoin_eq ▸ hhave hcb i hi)
      h.origin _ c hc
  refine ⟨hup.coherent, fun o c hc => ?_, fun t ht hcb o ho => ?_, fun t ht hcb => ?_⟩
  · rcases hup.cases hc with hold | hcr
    · exact hmem (h.origin o c hold)
    · rw [(CoinSet.created_eq_some.1 hcr).1, txids, map_append]
      exact mem_append_right _ (mem_singleton_self _)
  · exact (hgone t ht hcb o ho).imp_right hmem
  · rcases mem_append.1 ht with ht | ht
    · obtain ⟨h', hlt, hstates⟩ := h.height t ht hcb
      exact ⟨h', by omega, hstates⟩
    · obtain rfl := mem_singleton.1 ht
      exact hheight hcb

/-! ## Through a block -/

/-- No transaction of the list creates an outpoint that is unspent when its
turn comes. -/
def NoOverwrite (H : Hashes) (nHeight : ℕ) (view : CCoinsViewCache) (vtx : List CTransaction) :
    Prop :=
  ∀ before tx after, vtx = before ++ tx :: after →
    ∀ n, (view.afterTxs H nHeight before).getCoin ⟨tx.getHash H, n⟩ = none

theorem noOverwrite_nil : NoOverwrite H nHeight view [] := by
  intro before tx after h
  cases before <;> cases h

theorem NoOverwrite.cons {vtx : List CTransaction}
    (hhead : ∀ n, view.getCoin ⟨tx.getHash H, n⟩ = none)
    (htail : NoOverwrite H nHeight (view.afterTx H nHeight tx) vtx) :
    NoOverwrite H nHeight view (tx :: vtx) := by
  intro before t after h
  cases before with
  | nil =>
    obtain ⟨rfl, -⟩ := List.cons.inj h
    exact hhead
  | cons b before =>
    obtain ⟨rfl, hrest⟩ := List.cons.inj h
    exact htail before t after hrest

namespace BlockContext

variable {N : Node} {C : BlockContext} {tx : CTransaction} {vtx : List CTransaction}
variable {s s' : ConnectState} {k m : ℕ}

/-- A turn of a new transaction keeps the invariant. -/
theorem Turn.tracked (h : Turn H N C tx k s s') (ht : Tracked H nHeight done s.view)
    (hnew : tx.getHash H ∉ txids H done) (hle : nHeight ≤ m)
    (hheight : tx.isCoinBase = true → ∃ h < m, tx.StatesHeight h) :
    Tracked H m (done ++ [tx]) s'.view := by
  obtain ⟨vprevout, hupd, -⟩ := h.coins
  have hup := updateCoins_spec ht.coherent
    (fun _ n => shielded_of_getCoin (ht.getCoin_eq_none hnew n)) hupd
  refine ht.connect hnew hup (fun hcb => ?_) hle hheight
  obtain ⟨txfee, hpays, -⟩ := h.fee hcb
  exact hpays.have_inputs

/-- **The turns after the coinbase write over nothing.** -/
theorem Turns.tracked (h : Turns H N C k vtx s s') (ht : Tracked H nHeight done s.view)
    (hids : DistinctIds H (done ++ vtx)) (hcb : ∀ tx ∈ vtx, tx.isCoinBase = false)
    (hch : ∀ tx ∈ vtx, Checked tx) :
    Tracked H nHeight (done ++ vtx) s'.view ∧ NoOverwrite H C.nHeight s.view vtx := by
  induction h generalizing done with
  | nil => exact ⟨by rwa [append_nil], noOverwrite_nil⟩
  | @cons k tx vtx s t s' head tail ih =>
    have hcbt := hcb tx mem_cons_self
    obtain ⟨txfee, hpays, -⟩ := head.fee hcbt
    have hnew := spender_new (fun t h hcb o ho => (ht.spent t h hcb o ho).1) (hids.mono fun t ht => by
        rcases mem_cons.1 ht with rfl | ht <;> simp [*]) hcbt
      (hch tx mem_cons_self).vin_ne_nil hpays.have_inputs
    have ht' := head.tracked ht hnew le_rfl fun hn => absurd hn (by simp [hcbt])
    rw [← singleton_append, ← List.append_assoc] at hids ⊢
    obtain ⟨hend, hno⟩ := ih ht' hids (fun t ht => hcb t (mem_cons_of_mem tx ht))
      fun t ht => hch t (mem_cons_of_mem tx ht)
    rw [head.view_eq] at hno
    exact ⟨hend, hno.cons (ht.getCoin_eq_none hnew)⟩

end BlockContext

/-! ## Through a chain -/

/-- A call of `ConnectBlock`, with the node and the state it finds. -/
structure ConnectCall where
  N : Node
  lim : BlockLimits
  block : CBlock
  pindex : CBlockIndex
  pprev : Option CBlockIndex
  view : CCoinsViewCache
  aal : AalState

/-- `ConnectBlock` with the arguments of a call. -/
def ConnectCall.run (H : Hashes) (call : ConnectCall) : Except Failure Connected :=
  connectBlock H call.N call.lim call.block call.pindex call.pprev call.view call.aal false

/-- The call connects the next block of a chain: a block above the genesis
block that passed the rule on coinbases, at height `nHeight`, on a view
that holds the coins `coins`. -/
structure ConnectCall.Connects (H : Hashes) (nHeight : ℕ) (coins : CoinSet) (call : ConnectCall)
    (c : Connected) : Prop where
  coherent : call.view.Coherent
  coins : call.view.getCoin = coins
  vouched : call.block.Vouched H
  above_genesis : call.block.getHash H ≠ call.N.consensus.hashGenesisBlock
  nHeight : call.pindex.nHeight = nHeight
  bip34Height : call.N.consensus.bip34Height = 0
  coinbaseHeight : checkCoinbaseHeight call.N.consensus call.block call.pindex.nHeight = .ok ()
  connected : call.run H = .ok c

/-- The blocks of a chain connected in order, from the view the genesis
block leaves, which holds no coin. Between two calls the view may be
flushed; what it holds stays. -/
inductive ConnectedChain (H : Hashes) : List ConnectCall → CCoinsViewCache → Prop
  | genesis {view : CCoinsViewCache} (coherent : view.Coherent)
      (empty : ∀ o, view.getCoin o = none) : ConnectedChain H [] view
  | connect {calls : List ConnectCall} {view : CCoinsViewCache} {call : ConnectCall}
      {c : Connected} (chain : ConnectedChain H calls view)
      (next : call.Connects H (calls.length + 1) view.getCoin c) :
      ConnectedChain H (calls ++ [call]) c.view

/-- The transactions of a chain. -/
def chainTxs (calls : List ConnectCall) : List CTransaction :=
  calls.flatMap fun call => call.block.vtx

/-- The invariant is about what a view holds. -/
theorem Tracked.of_getCoin (h : Tracked H nHeight done view)
    (hc : v.Coherent) (heq : v.getCoin = view.getCoin) : Tracked H nHeight done v :=
  ⟨hc, fun o c ho => h.origin o c (heq ▸ ho), fun t ht hcb o ho => heq ▸ h.spent t ht hcb o ho,
    h.height⟩

/-- **A block connected at the next height writes over nothing.** -/
theorem ConnectCall.Connects.tracked {call : ConnectCall} {c : Connected}
    (h : call.Connects H nHeight view.getCoin c) (ht : Tracked H nHeight done view)
    (hlt : nHeight < 2 ^ 63) (hids : DistinctIds H (done ++ call.block.vtx)) :
    Tracked H (nHeight + 1) (done ++ call.block.vtx) c.view ∧
      NoOverwrite H nHeight call.view call.block.vtx := by
  have hheight := h.nHeight
  obtain ⟨hshape, -, -, hgen | ⟨p, s, -, hacc⟩⟩ := connectBlock_eq_ok h.vouched h.connected
  · exact absurd hgen h.above_genesis
  obtain ⟨⟨coinbase, rest, hfirst, -⟩, hchecked⟩ := hshape
  have hstates := statesHeight_of_checkCoinbaseHeight hfirst.vtx_eq h.bip34Height h.coinbaseHeight
  obtain ⟨hview, -, -⟩ := hacc.connected rfl
  have hturns := hacc.turns
  rw [hfirst.vtx_eq] at hturns hids hchecked ⊢
  rw [hheight] at hturns hstates
  have ht₀ : Tracked H nHeight done call.view := ht.of_getCoin h.coherent h.coins
  cases hturns with
  | @cons _ _ _ _ t _ head tail =>
    have hnew := ht₀.coinbase_new (hids.mono fun t ht => by
      rcases mem_cons.1 ht with rfl | ht <;> simp [*]) hfirst.isCoinBase hstates hlt
    have ht₁ : Tracked H (nHeight + 1) (done ++ [coinbase]) t.view :=
      head.tracked ht₀ hnew (Nat.le_succ _) fun _ => ⟨nHeight, Nat.lt_succ_self _, hstates⟩
    rw [← singleton_append, ← List.append_assoc] at hids ⊢
    obtain ⟨hend, hno⟩ := tail.tracked ht₁ hids hfirst.others
      fun tx htx => hchecked tx (mem_cons_of_mem coinbase htx)
    rw [head.view_eq] at hno
    refine ⟨?_, hno.cons (ht₀.getCoin_eq_none hnew)⟩
    -- the best block plays no part in what the view holds
    rw [hview]
    exact hend.of_getCoin ⟨hend.coherent.fresh, hend.coherent.clean⟩ rfl

/-- The run lemma: the invariant along a chain. -/
theorem ConnectedChain.tracked {calls : List ConnectCall} (h : ConnectedChain H calls view)
    (hlt : calls.length < 2 ^ 63) (hids : DistinctIds H (chainTxs calls)) :
    Tracked H (calls.length + 1) (chainTxs calls) view ∧
      ∀ call ∈ calls, NoOverwrite H call.pindex.nHeight call.view call.block.vtx := by
  induction h with
  | genesis coherent empty =>
    exact ⟨⟨coherent, fun o c hc => by simp [empty] at hc, by simp [chainTxs],
      by simp [chainTxs]⟩, by simp⟩
  | @connect calls view call c chain next ih =>
    rw [length_append] at hlt
    have htxs : chainTxs (calls ++ [call]) = chainTxs calls ++ call.block.vtx := by
      simp [chainTxs]
    rw [htxs] at hids ⊢
    obtain ⟨ht, hall⟩ := ih (by omega) (hids.mono fun t ht => mem_append_left _ ht)
    obtain ⟨hend, hno⟩ := next.tracked ht (by omega) hids
    refine ⟨by simpa using hend, fun call' hmem => ?_⟩
    rcases mem_append.1 hmem with hmem | hmem
    · exact hall call' hmem
    · obtain rfl := mem_singleton.1 hmem
      rw [next.nHeight]
      exact hno

/-- **No coin is written over below the height where BIP30 is enforced.**
Where distinct transactions of a chain have distinct ids, no transaction
of any of its blocks creates an outpoint that is still unspent. -/
theorem chain_overwrites_no_coin {calls : List ConnectCall} (h : ConnectedChain H calls view)
    (hlt : calls.length < bip34ImpliesBip30Limit) (hids : DistinctIds H (chainTxs calls)) :
    ∀ call ∈ calls, NoOverwrite H call.pindex.nHeight call.view call.block.vtx :=
  (h.tracked (by unfold bip34ImpliesBip30Limit at hlt; omega) hids).2

/-- The call connects the genesis block: on a view without coins, with an
index as it is created. -/
structure ConnectCall.Founds (H : Hashes) (call : ConnectCall) (c : Connected) : Prop where
  coherent : call.view.Coherent
  empty : ∀ o, call.view.getCoin o = none
  new : call.pindex.nMoneySupply = 0
  genesis : call.block.getHash H = call.N.consensus.hashGenesisBlock
  connected : call.run H = .ok c

/-- The genesis block leaves no coin and no supply. -/
theorem ConnectCall.Founds.leaves {call : ConnectCall} {c : Connected}
    (h : call.Founds H c) :
    c.view.Coherent ∧ (c.view.getCoin = fun _ => none) ∧ c.nMoneySupply = 0 := by
  have hrun := h.connected
  simp only [ConnectCall.run, connectBlock, if_pos h.genesis, bind_eq_ok, pure_eq_ok] at hrun
  obtain ⟨⟨⟩, -, rfl⟩ := hrun
  exact ⟨⟨h.coherent.fresh, h.coherent.clean⟩, funext h.empty, h.new⟩

/-! ## A chain whose last block spends the coinbase of its first -/

/-- Hashes that tell coinbases apart by their scripts, and headers by their
times. -/
def coinbaseHashes : Hashes where
  serializeHash tx := 1 + (tx.vin.flatMap CTxIn.scriptSig).foldl (fun n b => 256 * n + b.toNat) 0
  headerHash h := h.nTime
  sha256D64 a b := 1000 * a + b

/-- The coinbase of the block at a height, which pays nothing. -/
def coinbaseAt (nHeight : ℕ) : CTransaction where
  vin := [{ prevout := .null, scriptSig := pushInt64 nHeight ++ [0] }]
  vout := [⟨0, [0x51]⟩]

/-- A block with a coinbase only, of hash `hash`. -/
def coinbaseBlock (nHeight hash : ℕ) (hashPrevBlock : UInt256) : CBlock :=
  { sampleBlock .null [coinbaseAt nHeight] with
    hashPrevBlock := hashPrevBlock
    hashMerkleRoot := (coinbaseAt nHeight).getHash coinbaseHashes
    nTime := hash }

/-- The call for the genesis block. -/
def foundingCall : ConnectCall :=
  ⟨sampleNode, sampleLimits, coinbaseBlock 0 sampleParams.hashGenesisBlock 0,
    { sampleIndex 0 with blockHash := sampleParams.hashGenesisBlock }, none,
    .ofBase ⟨fun _ => none, 0, CCoinsView.unspent_none⟩, idleWorld⟩

/-- The coinbase output of the first block. -/
def maturingOutput : COutPoint := ⟨(coinbaseAt 1).getHash coinbaseHashes, 0⟩

/-- Each coinbase pays 5. At height 101, where the first has matured, it is spent
with a fee of 3, and the coinbase burns 3 more. -/
def maturingTxs (nHeight : ℕ) : List CTransaction :=
  if nHeight ≤ 100 then [{ coinbaseAt nHeight with vout := [⟨5, [0x51]⟩] }]
  else [{ coinbaseAt nHeight with vout := [⟨5, [0x51]⟩, ⟨3, [0x6a]⟩] },
    { vin := [{ prevout := maturingOutput, scriptSig := [] }], vout := [⟨2, [0x51]⟩] }]

/-- The block at a height, which is also its hash. -/
def maturingBlock (nHeight : ℕ) : CBlock :=
  { sampleBlock .null (maturingTxs nHeight) with
    hashPrevBlock := nHeight - 1
    hashMerkleRoot := (blockMerkleRoot coinbaseHashes (maturingTxs nHeight)).1
    nTime := nHeight }

/-- The call for the block over height `n`, on what the blocks up to there leave. -/
def maturingCall (n : ℕ) (c : Connected) : ConnectCall :=
  ⟨sampleNode, sampleLimits, maturingBlock (n + 1),
    { sampleIndex (n + 1) with blockHash := n + 1 },
    some { sampleParent with nHeight := n, blockHash := n, nMoneySupply := c.nMoneySupply },
    c.view, c.aal⟩

/-- The calls up to a height, and what they leave. -/
def maturingChain : ℕ → Option (List ConnectCall × Connected)
  | 0 => (foundingCall.run coinbaseHashes).toOption.map fun c => ([], c)
  | n + 1 => (maturingChain n).bind fun r =>
    ((maturingCall n r.2).run coinbaseHashes).toOption.map fun c =>
      (r.1 ++ [maturingCall n r.2], c)

theorem foundingCall_founds {c : Connected} (h : foundingCall.run coinbaseHashes = .ok c) :
    foundingCall.Founds coinbaseHashes c :=
  ⟨coherent_ofBase _, fun _ => rfl, rfl, rfl, h⟩

/-- What holds after the genesis block and is kept by each block holds of the
chain. -/
theorem maturingChain_induction {P : ℕ → List ConnectCall → Connected → Prop}
    (founds : ∀ {c}, foundingCall.run coinbaseHashes = .ok c → P 0 [] c)
    (next : ∀ {n calls c c'}, n < 101 → maturingChain n = some (calls, c) → P n calls c →
      (maturingCall n c).run coinbaseHashes = .ok c' → P (n + 1) (calls ++ [maturingCall n c]) c')
    {n : ℕ} {calls : List ConnectCall} {c : Connected} (hn : n ≤ 101)
    (h : maturingChain n = some (calls, c)) : P n calls c := by
  induction n generalizing calls c with
  | zero =>
    obtain ⟨c', hrun, heq⟩ := map_eq_some_iff.1 h
    obtain ⟨rfl, rfl⟩ := Prod.mk.inj heq
    exact founds (eq_ok_of_toOption hrun)
  | succ n ih =>
    obtain ⟨⟨calls', c'⟩, hbelow, hlast⟩ := bind_eq_some_iff.1 h
    obtain ⟨c'', hrun, heq⟩ := map_eq_some_iff.1 hlast
    obtain ⟨rfl, rfl⟩ := Prod.mk.inj heq
    exact next hn hbelow (ih (Nat.le_of_succ_le hn) hbelow) (eq_ok_of_toOption hrun)

theorem maturingTxs_distinct :
    DistinctIds coinbaseHashes ((range 101).flatMap fun n => maturingTxs (n + 1)) := by
  unfold DistinctIds
  decide +kernel

theorem maturingBlock_coinbaseHeight : ∀ n < 101,
    (checkCoinbaseHeight sampleParams (maturingBlock (n + 1)) (n + 1)).toOption.isSome = true := by
  decide

/-- The calls connect the blocks up to a height. -/
structure MaturedTo (n : ℕ) (calls : List ConnectCall) (c : Connected) : Prop where
  chain : ConnectedChain coinbaseHashes calls c.view
  blocks : calls.map ConnectCall.block = (range n).map fun k => maturingBlock (k + 1)
  indexed : ∀ call ∈ calls, maturingBlock call.pindex.nHeight = call.block

namespace MaturedTo

variable {n : ℕ} {calls : List ConnectCall} {c : Connected}

theorem length_eq (h : MaturedTo n calls c) : calls.length = n := by
  simpa using congrArg length h.blocks

theorem chainTxs_eq (h : MaturedTo n calls c) :
    chainTxs calls = (range n).flatMap fun k => maturingTxs (k + 1) := by
  rw [chainTxs, ← flatMap_map ConnectCall.block CBlock.vtx, h.blocks, flatMap_map]
  rfl

theorem distinct (h : MaturedTo n calls c) (hn : n ≤ 101) :
    DistinctIds coinbaseHashes (chainTxs calls) := by
  refine maturingTxs_distinct.mono fun t ht => ?_
  rw [h.chainTxs_eq, mem_flatMap] at ht
  obtain ⟨k, hk, ht⟩ := ht
  exact mem_flatMap.2 ⟨k, range_subset.2 hn hk, ht⟩

theorem tracked (h : MaturedTo n calls c) (hn : n ≤ 101) :
    Tracked coinbaseHashes (calls.length + 1) (chainTxs calls) c.view ∧
      ∀ call ∈ calls, NoOverwrite coinbaseHashes call.pindex.nHeight call.view call.block.vtx :=
  h.chain.tracked (by rw [h.length_eq]; omega) (h.distinct hn)

/-- One more block. -/
theorem connect {c' : Connected} (h : MaturedTo n calls c) (hn : n < 101)
    (hrun : (maturingCall n c).run coinbaseHashes = .ok c') :
    MaturedTo (n + 1) (calls ++ [maturingCall n c]) c' := by
  obtain ⟨⟨⟩, hheight⟩ := exists_ok_of_isSome (maturingBlock_coinbaseHeight n hn)
  refine ⟨.connect h.chain ⟨(h.tracked hn.le).1.coherent, rfl, (fun h => by cases h), Nat.succ_ne_zero n,
    congrArg (· + 1) h.length_eq.symm, rfl, hheight, hrun⟩, ?_, ?_⟩
  · rw [map_append, h.blocks, range_succ, map_append]
    rfl
  · intro call hmem
    rcases mem_append.1 hmem with hmem | hmem
    · exact h.indexed call hmem
    · rw [mem_singleton.1 hmem]
      rfl

end MaturedTo

theorem maturedTo {n : ℕ} {calls : List ConnectCall} {c : Connected} (hn : n ≤ 101)
    (h : maturingChain n = some (calls, c)) : MaturedTo n calls c :=
  maturingChain_induction
    (fun hrun =>
      have hleaves := (foundingCall_founds hrun).leaves
      ⟨.genesis hleaves.1 (congrFun hleaves.2.1), rfl, by simp⟩)
    (fun hlt _ ih hrun => ih.connect hlt hrun) hn h

/-- All of them connect. -/
theorem maturingChain_connects : (maturingChain 101).map (fun r =>
    (r.2.nMoneySupply, r.2.view.getCoin maturingOutput)) = some (505, none) := by
  decide +kernel

theorem maturedSpend_overwrites_no_coin : ∃ calls c, maturingChain 101 = some (calls, c) ∧
    ∀ call ∈ calls, NoOverwrite coinbaseHashes call.pindex.nHeight call.view call.block.vtx := by
  obtain ⟨⟨calls, c⟩, hruns, -⟩ := map_eq_some_iff.1 maturingChain_connects
  have hmatured := maturedTo le_rfl hruns
  exact ⟨calls, c, hruns, chain_overwrites_no_coin hmatured.chain
    (by rw [hmatured.length_eq]; decide) (hmatured.distinct le_rfl)⟩

end Slucore
