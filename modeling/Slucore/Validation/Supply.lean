import Slucore.Validation.Unique
/-!
# Validation — the money supply

A block index records the supply of its parent, plus the outputs of the
block, less the coins it spends, in unsigned 64-bit arithmetic. The
coins of a view have a total of their own (`CoinSet.total`). A
transaction moves that total by what it issues, less the outputs that
`AddCoin` skips because they can never be spent; so along a chain the
record and the total differ by what was skipped, and by multiples of
`2 ^ 64`.
-/


namespace Slucore

open List Option CoinSet

/-! ## The total of a set of coins -/

namespace CoinSet

variable {H : Hashes} {tx : CTransaction} {nHeight : ℕ} {C : CoinSet}

/-- The value of all coins together. -/
noncomputable def total (C : CoinSet) : ℤ := ∑ᶠ o, C.valueAt o

/-- There are finitely many coins. -/
def Bounded (C : CoinSet) : Prop := {o | (C o).isSome}.Finite

theorem bounded_empty : Bounded fun _ => none := by
  simp [Bounded]

theorem total_empty : total (fun _ => none) = 0 := by
  simp [total, valueAt]

/-- A place with a value has a coin. -/
theorem support_valueAt_subset : Function.support C.valueAt ⊆ {o | (C o).isSome} := by
  intro o ho
  by_contra hn
  simp only [Set.mem_ofPred_eq, Bool.not_eq_true, isSome_eq_false_iff,
    isNone_iff_eq_none] at hn
  exact ho (by simp [valueAt, hn])

theorem Bounded.finite_support (h : C.Bounded) : (Function.support C.valueAt).Finite :=
  h.subset support_valueAt_subset

/-! ### Spending -/

theorem Bounded.spend (h : C.Bounded) (tx : CTransaction) : (spend tx C).Bounded := by
  refine h.subset fun o ho => ?_
  obtain ⟨c, hc⟩ := isSome_iff_exists.1 ho
  exact isSome_iff_exists.2 ⟨c, of_spend_eq_some hc⟩

/-- **Spending distinct coins takes their value out of the total.** -/
theorem total_spend (h : C.Bounded) (hnd : (tx.vin.map CTxIn.prevout).Nodup) :
    total (spend tx C) = total C - valueIn C tx := by
  have hleft := (h.spend tx).finite_support
  unfold valueIn
  unfold spend at hleft ⊢
  split at hleft
  · rename_i hcb
    rw [if_pos hcb, if_pos hcb, sub_zero]
  rename_i hcb
  rw [if_neg hcb, if_neg hcb]
  -- what is held is what is left, and what the inputs spend
  have hsplit : ∀ o, C.valueAt o = (eraseInputs C tx.vin).valueAt o +
      if o ∈ (tx.vin.map CTxIn.prevout).toFinset then C.valueAt o else 0 := by
    intro o
    by_cases ho : o ∈ tx.vin.map CTxIn.prevout
    · simp [valueAt, eraseInputs, ho]
    · simp [valueAt, eraseInputs, ho]
  have hspent : ∑ᶠ o, (if o ∈ (tx.vin.map CTxIn.prevout).toFinset then C.valueAt o else 0) =
      (tx.vin.map fun i => C.valueAt i.prevout).sum := by
    rw [finsum_eq_sum_of_support_subset (s := (tx.vin.map CTxIn.prevout).toFinset)]
    · rw [Finset.sum_congr rfl fun o ho => if_pos ho, sum_toFinset _ hnd, List.map_map]
      rfl
    · intro o ho
      by_contra hn
      exact ho (if_neg hn)
  rw [total, total, finsum_congr hsplit, finsum_add_distrib hleft, hspent]
  · ring
  · exact (Finset.finite_toSet _).subset fun o ho => by
      by_contra hn
      exact ho (if_neg hn)

/-! ### Creating -/

end CoinSet

/-- The value of an output that can be spent, and zero for any other. -/
def CTxOut.spendableValue (out : CTxOut) : ℤ :=
  if out.scriptPubKey.isUnspendable then 0 else out.nValue

/-- The value of the outputs that `AddCoin` skips. -/
def CTransaction.skippedValue (tx : CTransaction) : ℤ :=
  ((tx.vout.filter fun out => out.scriptPubKey.isUnspendable).map CTxOut.nValue).sum

namespace CTransaction

/-- An output can be spent or is skipped. -/
theorem valueOut_eq (tx : CTransaction) :
    tx.valueOut = (tx.vout.map CTxOut.spendableValue).sum + tx.skippedValue := by
  unfold valueOut skippedValue
  induction tx.vout with
  | nil => rfl
  | cons out vout ih =>
    rw [map_cons, sum_cons, map_cons, sum_cons, ih]
    by_cases hu : out.scriptPubKey.isUnspendable = true
    · simp only [CTxOut.spendableValue, hu, if_true, filter_cons, map_cons, sum_cons]
      ring
    · simp only [CTxOut.spendableValue, hu, filter_cons, Bool.false_eq_true, if_false]
      ring

end CTransaction

namespace CoinSet

variable {H : Hashes} {tx : CTransaction} {nHeight : ℕ} {C : CoinSet}

/-- The outpoints of a transaction. -/
def outpoints (H : Hashes) (tx : CTransaction) : Finset COutPoint :=
  (Finset.range tx.vout.length).image fun n => ⟨tx.getHash H, n⟩

theorem mem_outpoints_of_created {o : COutPoint} (h : (created H tx nHeight o).isSome) :
    o ∈ outpoints H tx := by
  obtain ⟨c, hc⟩ := isSome_iff_exists.1 h
  obtain ⟨hhash, out, hmem, -, -⟩ := created_eq_some.1 hc
  refine Finset.mem_image.2 ⟨o.n, ?_, by rw [← hhash]⟩
  rw [List.mem_zipIdx_iff_getElem?] at hmem
  exact Finset.mem_range.2 (List.getElem?_eq_some_iff.1 hmem).1

theorem bounded_created (H : Hashes) (tx : CTransaction) (nHeight : ℕ) :
    (created H tx nHeight).Bounded :=
  (Finset.finite_toSet (outpoints H tx)).subset fun _ => mem_outpoints_of_created

theorem Bounded.insertOutputs (h : C.Bounded) : (insertOutputs H tx nHeight C).Bounded := by
  refine ((bounded_created H tx nHeight).union h).subset fun o ho => ?_
  cases hcr : created H tx nHeight o with
  | some c => exact .inl (by simp [hcr])
  | none => exact .inr (by simpa [CoinSet.insertOutputs, hcr] using ho)

/-- The coins a transaction creates hold the value of its spendable
outputs. -/
theorem total_created :
    total (created H tx nHeight) = (tx.vout.map CTxOut.spendableValue).sum := by
  have hvalue : ∀ i : Fin tx.vout.length,
      (created H tx nHeight).valueAt ⟨tx.getHash H, i⟩ = tx.vout[i].spendableValue := by
    intro i
    by_cases hu : tx.vout[i.1].scriptPubKey.isUnspendable = true <;>
      simp [valueAt, created, CTxOut.spendableValue, hu, Coin.make]
  rw [total, finsum_eq_sum_of_support_subset (s := outpoints H tx)]
  · rw [outpoints, Finset.sum_image fun m _ n _ h => (COutPoint.mk.inj h).2, Finset.sum_range,
      Finset.sum_congr rfl fun i _ => hvalue i]
    exact Fin.sum_univ_fun_getElem tx.vout CTxOut.spendableValue
  · exact support_valueAt_subset.trans fun o => mem_outpoints_of_created

/-- **Creating coins where there are none adds their value to the total.** -/
theorem total_insertOutputs (h : C.Bounded)
    (hvac : ∀ o, (created H tx nHeight o).isSome → C o = none) :
    total (insertOutputs H tx nHeight C) =
      total C + (tx.vout.map CTxOut.spendableValue).sum := by
  have hsplit : ∀ o, (insertOutputs H tx nHeight C).valueAt o =
      (created H tx nHeight).valueAt o + C.valueAt o := by
    intro o
    cases hcr : created H tx nHeight o with
    | some c => simp [valueAt, insertOutputs, hvac o (by rw [hcr]; rfl)]
    | none => simp [valueAt, insertOutputs, hcr]
  rw [total, finsum_congr hsplit,
    finsum_add_distrib (bounded_created H tx nHeight).finite_support h.finite_support, add_comm]
  congr 1
  exact total_created

end CoinSet

/-! ## Through a block -/

/-- No transaction of the list creates a coin where, its own inputs spent,
there is one. -/
def OverwritesNone (H : Hashes) (nHeight : ℕ) (view : CCoinsViewCache)
    (vtx : List CTransaction) : Prop :=
  ∀ before tx after, vtx = before ++ tx :: after →
    ∀ o, (CoinSet.created H tx nHeight o).isSome →
      CoinSet.spend tx (view.afterTxs H nHeight before).getCoin o = none

variable {H : Hashes} {nHeight : ℕ} {view : CCoinsViewCache}

/-- Where no id has an unspent output, none is written over. -/
theorem NoOverwrite.overwritesNone {vtx : List CTransaction} (h : NoOverwrite H nHeight view vtx) :
    OverwritesNone H nHeight view vtx := by
  intro before tx after hvtx o ho
  obtain ⟨d, hd⟩ := isSome_iff_exists.1 ho
  obtain ⟨hhash, -⟩ := created_eq_some.1 hd
  have hnone := h before tx after hvtx o.n
  rw [← hhash] at hnone
  refine eq_none_iff_forall_ne_some.2 fun c hc => ?_
  rw [of_spend_eq_some hc] at hnone
  cases hnone

theorem OverwritesNone.tail {tx : CTransaction} {vtx : List CTransaction}
    (h : OverwritesNone H nHeight view (tx :: vtx)) :
    OverwritesNone H nHeight (view.afterTx H nHeight tx) vtx := by
  rintro before t after rfl
  exact h (tx :: before) t after rfl

/-- The value of the outputs that `AddCoin` skips in a list of
transactions. -/
def skippedValue (vtx : List CTransaction) : ℤ := (vtx.map CTransaction.skippedValue).sum

namespace BlockContext

variable {N : Node} {C : BlockContext} {tx : CTransaction} {vtx : List CTransaction}
variable {s s' : ConnectState} {k : ℕ}

open CCoinsViewCache

/-- One turn moves the total of the coins by what its transaction issues,
less what is skipped. -/
theorem Turn.total (h : Turn H N C tx k s s') (hc : s.view.Coherent)
    (hb : CoinSet.Bounded s.view.getCoin) (hnd : (tx.vin.map CTxIn.prevout).Nodup)
    (hvac : ∀ o, (CoinSet.created H tx C.nHeight o).isSome →
      CoinSet.spend tx s.view.getCoin o = none) :
    s'.view.Coherent ∧ CoinSet.Bounded s'.view.getCoin ∧
      CoinSet.total s'.view.getCoin + tx.skippedValue =
        CoinSet.total s.view.getCoin + s.view.excess tx := by
  obtain ⟨vprevout, hupd, -⟩ := h.coins
  have hup := updateCoins_of_vacant hc hvac hupd
  refine ⟨hup.coherent, by rw [hup.getCoin]; exact (hb.spend tx).insertOutputs, ?_⟩
  rw [hup.getCoin, total_insertOutputs (hb.spend tx) hvac, total_spend hb hnd,
    excess, tx.valueOut_eq]
  ring

/-- **The loop moves the total of the coins by what the block issues, less
what is skipped.** -/
theorem Turns.total (h : Turns H N C k vtx s s') (hc : s.view.Coherent)
    (hb : CoinSet.Bounded s.view.getCoin) (hch : ∀ tx ∈ vtx, Checked tx)
    (hno : OverwritesNone H C.nHeight s.view vtx) :
    s'.view.Coherent ∧ CoinSet.Bounded s'.view.getCoin ∧
      CoinSet.total s'.view.getCoin + skippedValue vtx =
        CoinSet.total s.view.getCoin + issued H C.nHeight s.view vtx := by
  induction h with
  | nil => exact ⟨hc, hb, by simp [skippedValue, issued, spentValue]⟩
  | @cons k tx vtx s t s' head tail ih =>
    obtain ⟨hct, hbt, htotal⟩ := head.total hc hb (hch tx mem_cons_self).nodup
      (hno [] tx vtx rfl)
    obtain ⟨hc', hb', hrest⟩ := ih hct hbt (fun t ht => hch t (mem_cons_of_mem tx ht))
      (by rw [head.view_eq]; exact hno.tail)
    refine ⟨hc', hb', ?_⟩
    rw [head.view_eq] at hrest htotal
    unfold skippedValue issued spentValue excess at *
    simp only [map_cons, sum_cons, sumAlong_cons]
    linarith

/-! ### The counters -/

theorem countValues_modEq (h : countValues tx s = .ok s') :
    s'.view = s.view ∧
    (s'.nValueOut : ℤ) ≡ s.nValueOut + tx.valueOut [ZMOD 2 ^ 64] ∧
    (s'.nValueIn : ℤ) ≡ s.nValueIn + (if tx.isCoinBase then 0 else s.view.getValueIn tx)
      [ZMOD 2 ^ 64] := by
  simp only [countValues, bind_eq_ok, orThrow_eq_ok, pure_eq_ok] at h
  obtain ⟨w, hw, rfl⟩ := h
  obtain ⟨rfl, -⟩ := CTransaction.getValueOut_eq hw
  refine ⟨rfl, ?_, ?_⟩
  all_goals
    rw [Int.toNat_of_nonneg (Int.emod_nonneg _ (by norm_num))]
    exact Int.mod_modEq _ _

/-- One turn counts what its transaction issues. -/
theorem connectTx_modEq (h : connectTx H N C s (tx, k) = .ok s') :
    (s'.nValueOut : ℤ) - s'.nValueIn ≡ s.nValueOut - s.nValueIn + s.view.excess tx
      [ZMOD 2 ^ 64] := by
  simp only [connectTx, bind_eq_ok] at h
  obtain ⟨s₁, h₁, s₂, h₂, s₃, h₃, s₄, h₄, s₅, h₅, h₆⟩ := h
  obtain ⟨nFees, rfl, -, hfee⟩ := chargeFee_eq_ok h₁
  obtain ⟨sig, rfl⟩ := countSigOps_eq_ok h₂
  obtain ⟨r, int, rfl, -, -⟩ := verifyInputs_eq_ok h₃
  obtain ⟨-, hout, hin⟩ := countValues_modEq h₄
  obtain ⟨-, -, -, g, gr, cv, hs₅⟩ := runContracts_eq_ok h₅
  obtain ⟨view, vprevout, hupd, rfl⟩ := applyCoins_eq_ok h₆
  rw [hs₅]
  have hvalue : (if tx.isCoinBase then 0 else s.view.getValueIn tx) =
      CoinSet.valueIn s.view.getCoin tx := by
    cases hcb : tx.isCoinBase with
    | true => simp [CoinSet.valueIn, hcb]
    | false =>
      obtain ⟨txfee, hpays, -⟩ := hfee hcb
      simpa using hpays.getValueIn
  rw [hvalue] at hin
  calc _ ≡ (s.nValueOut + tx.valueOut) - (s.nValueIn + CoinSet.valueIn s.view.getCoin tx)
        [ZMOD 2 ^ 64] := hout.sub hin
    _ = s.nValueOut - s.nValueIn + s.view.excess tx := by
      unfold excess
      ring

/-- **The loop counts what the block issues**, modulo `2 ^ 64`. -/
theorem foldlM_connectTx_modEq (h : (vtx.zipIdx k).foldlM (connectTx H N C) s = .ok s') :
    (s'.nValueOut : ℤ) - s'.nValueIn ≡
      s.nValueOut - s.nValueIn + issued H C.nHeight s.view vtx [ZMOD 2 ^ 64] := by
  induction vtx generalizing k s with
  | nil =>
    obtain rfl := foldlM_nil_eq_ok.1 h
    simp [issued, spentValue]
  | cons tx vtx ih =>
    obtain ⟨t, ht, hrest⟩ := foldlM_cons_eq_ok.1 h
    calc _ ≡ t.nValueOut - t.nValueIn + issued H C.nHeight t.view vtx [ZMOD 2 ^ 64] := ih hrest
      _ ≡ s.nValueOut - s.nValueIn + s.view.excess tx + issued H C.nHeight t.view vtx
          [ZMOD 2 ^ 64] := (connectTx_modEq ht).add_right _
      _ = s.nValueOut - s.nValueIn + issued H C.nHeight s.view (tx :: vtx) := by
        rw [(turn_of_connectTx ht).view_eq]
        unfold issued spentValue excess
        simp only [map_cons, sum_cons, sumAlong_cons]
        ring

end BlockContext

variable {c : Connected}

/-- **The supply a block records** is its parent's, and what it issues. -/
theorem connectBlock_nMoneySupply {N : Node} {lim : BlockLimits} {block : CBlock}
    {pindex p : CBlockIndex} {aal : AalState}
    (habove : block.getHash H ≠ N.consensus.hashGenesisBlock)
    (h : connectBlock H N lim block pindex (some p) view aal false = .ok c) :
    (c.nMoneySupply : ℤ) ≡
      p.nMoneySupply + CCoinsViewCache.issued H pindex.nHeight view block.vtx [ZMOD 2 ^ 64] := by
  simp only [connectBlock, if_neg habove, bind_eq_ok, orThrow_eq_ok, Option.some.injEq] at h
  obtain ⟨⟨⟩, -, ⟨⟩, -, _, rfl, h⟩ := h
  simp only [connectBody, bind_eq_ok, Bool.false_eq_true, if_false, pure_eq_ok] at h
  obtain ⟨⟨⟩, -, s, hloop, ⟨⟩, -, ⟨⟩, -, ⟨⟩, -, rfl⟩ := h
  have hcount := BlockContext.foldlM_connectTx_modEq hloop
  rw [Int.toNat_of_nonneg (Int.emod_nonneg _ (by norm_num))]
  calc _ ≡ p.nMoneySupply + s.nValueOut - s.nValueIn [ZMOD 2 ^ 64] := Int.mod_modEq _ _
    _ = p.nMoneySupply + (s.nValueOut - s.nValueIn) := by ring
    _ ≡ p.nMoneySupply + CCoinsViewCache.issued H pindex.nHeight view block.vtx [ZMOD 2 ^ 64] := by
      refine Int.ModEq.add_left _ ?_
      simpa [ConnectState.start, blockContext] using hcount

/-! ## Through a chain -/

/-- The call connects a block on top of the one that left `c`: its parent's
index has the supply that was recorded there, and its view the coins. The
view may have been flushed in between. -/
structure ConnectCall.Follows (H : Hashes) (c : Connected) (call : ConnectCall) (c' : Connected) :
    Prop where
  coherent : call.view.Coherent
  coins : call.view.getCoin = c.view.getCoin
  vouched : call.block.Vouched H
  above_genesis : call.block.getHash H ≠ call.N.consensus.hashGenesisBlock
  pprev : ∃ p, call.pprev = some p ∧ p.nMoneySupply = c.nMoneySupply
  connected : call.run H = .ok c'

/-- A genesis block and the blocks connected on top of it, in order, with
what the last of them leaves. -/
inductive ChainFromGenesis (H : Hashes) : List ConnectCall → Connected → Prop
  | genesis {call : ConnectCall} {c : Connected} (founds : call.Founds H c) : ChainFromGenesis H [] c
  | connect {calls : List ConnectCall} {c c' : Connected} {call : ConnectCall}
      (chain : ChainFromGenesis H calls c) (next : call.Follows H c c') :
      ChainFromGenesis H (calls ++ [call]) c'

/-- What holds of a block that was connected: its record is the value of
the coins it leaves, and of the outputs skipped so far. -/
structure Connected.Accounts (c : Connected) (skipped : ℤ) : Prop where
  bounded : CoinSet.Bounded c.view.getCoin
  supply : (c.nMoneySupply : ℤ) ≡ CoinSet.total c.view.getCoin + skipped [ZMOD 2 ^ 64]

variable {call : ConnectCall}

theorem ConnectCall.Founds.accounts (h : call.Founds H c) : c.Accounts 0 := by
  obtain ⟨-, hcoins, hsupply⟩ := h.leaves
  refine ⟨hcoins ▸ bounded_empty, ?_⟩
  rw [hcoins, total_empty, hsupply]
  rfl

/-- **Connecting a block that writes over nothing keeps the account.** -/
theorem ConnectCall.Follows.accounts {c' : Connected} {skipped : ℤ}
    (h : call.Follows H c c') (hacc : c.Accounts skipped)
    (hno : OverwritesNone H call.pindex.nHeight call.view call.block.vtx) :
    c'.Accounts (skipped + skippedValue call.block.vtx) := by
  obtain ⟨p, hp, hsupply⟩ := h.pprev
  have hrun := h.connected
  rw [ConnectCall.run, hp] at hrun
  obtain ⟨hshape, -, -, hgen | ⟨p', s, hp', haccepted⟩⟩ := connectBlock_eq_ok h.vouched hrun
  · exact absurd hgen h.above_genesis
  obtain ⟨hview, -, -⟩ := haccepted.connected rfl
  have hbounded : CoinSet.Bounded call.view.getCoin := h.coins ▸ hacc.bounded
  obtain ⟨-, hb, htotal⟩ := haccepted.turns.total h.coherent hbounded hshape.checked hno
  have hcoins : c'.view.getCoin = s.view.getCoin := by rw [hview]; rfl
  have htotal' : CoinSet.total s.view.getCoin + skippedValue call.block.vtx =
      CoinSet.total c.view.getCoin +
        CCoinsViewCache.issued H call.pindex.nHeight call.view call.block.vtx := by
    rw [← h.coins]
    exact htotal
  refine ⟨hcoins ▸ hb, ?_⟩
  calc _ ≡ p.nMoneySupply + CCoinsViewCache.issued H call.pindex.nHeight call.view call.block.vtx
        [ZMOD 2 ^ 64] := connectBlock_nMoneySupply h.above_genesis hrun
    _ ≡ CoinSet.total c.view.getCoin + skipped +
        CCoinsViewCache.issued H call.pindex.nHeight call.view call.block.vtx [ZMOD 2 ^ 64] := by
      rw [hsupply]
      exact hacc.supply.add_right _
    _ = CoinSet.total c'.view.getCoin + (skipped + skippedValue call.block.vtx) := by
      rw [hcoins]
      linarith

/-- **The recorded supply is the real one.** In a chain whose blocks write
over no coin, the supply recorded for the tip is, modulo `2 ^ 64`, the
value of all unspent coins and of all outputs that were skipped as
unspendable. -/
theorem recorded_supply {calls : List ConnectCall} {c : Connected}
    (h : ChainFromGenesis H calls c)
    (hno : ∀ call ∈ calls, OverwritesNone H call.pindex.nHeight call.view call.block.vtx) :
    (c.nMoneySupply : ℤ) ≡
      CoinSet.total c.view.getCoin + skippedValue (chainTxs calls) [ZMOD 2 ^ 64] := by
  suffices hacc : c.Accounts (skippedValue (chainTxs calls)) from hacc.supply
  -- the account is kept from block to block
  induction h with
  | genesis founds => exact founds.accounts
  | @connect calls c c' call chain next ih =>
    have hold := ih fun call' hmem => hno call' (mem_append_left _ hmem)
    have hnew := next.accounts hold (hno call (mem_append_right _ (mem_singleton_self _)))
    have htxs : skippedValue (chainTxs (calls ++ [call])) =
        skippedValue (chainTxs calls) + skippedValue call.block.vtx := by
      simp [chainTxs, skippedValue]
    rw [htxs]
    exact hnew

/-! ### The chain that matures -/

theorem maturingChain_founded {n : ℕ} {calls : List ConnectCall} (hn : n ≤ 101)
    (h : maturingChain n = some (calls, c)) : ChainFromGenesis coinbaseHashes calls c :=
  maturingChain_induction (P := fun _ calls c => ChainFromGenesis coinbaseHashes calls c)
    (fun hrun => .genesis (foundingCall_founds hrun))
    (fun hlt hbelow chain hrun =>
      have hcoherent := ((maturedTo hlt.le hbelow).tracked hlt.le).1.coherent
      .connect chain ⟨hcoherent, rfl, (fun h => by cases h), Nat.succ_ne_zero _, ⟨_, rfl, rfl⟩,
        hrun⟩) hn h

theorem maturedSpend_supply : ∃ calls c', ChainFromGenesis coinbaseHashes calls c' ∧
    calls.length = 101 ∧ c'.view.getCoin maturingOutput = none ∧ c'.nMoneySupply = 505 ∧
      (c'.nMoneySupply : ℤ) ≡ CoinSet.total c'.view.getCoin + 3 [ZMOD 2 ^ 64] := by
  obtain ⟨⟨calls, c'⟩, hruns, hends⟩ := map_eq_some_iff.1 maturingChain_connects
  obtain ⟨hsupply, hspent⟩ := Prod.mk.inj hends
  have hmatured := maturedTo le_rfl hruns
  have hchain := maturingChain_founded le_rfl hruns
  have hskipped : skippedValue (chainTxs calls) = 3 := by
    rw [hmatured.chainTxs_eq]
    decide +kernel
  refine ⟨calls, c', hchain, hmatured.length_eq, hspent, hsupply, hskipped ▸
    recorded_supply hchain fun call hmem =>
      ((hmatured.tracked le_rfl).2 call hmem).overwritesNone⟩

end Slucore
