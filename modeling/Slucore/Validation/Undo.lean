import Slucore.Validation.DisconnectBlock
import Slucore.Validation.Issuance
/-!
# Validation — disconnecting undoes connecting

A transaction that was connected spent its inputs and created its
outputs; disconnecting it takes the outputs out and puts the recorded
coins back. On what the views hold the second is the inverse of the
first (`disconnectTx_undoes`), as long as no created coin wrote over
another, and the whole block follows by induction over the turns, the
last one undone first.
-/


namespace Slucore

open List Option Function CoinSet

/-- A coin as blocks above the genesis block create them: with a height of
30 bits that is not zero, and with a script that can be spent. -/
structure Coin.Regular (c : Coin) : Prop where
  height_pos : 0 < c.nHeight
  height_lt : c.nHeight < 2 ^ 30
  spendable : c.out.scriptPubKey.isUnspendable = false

namespace CCoinsViewCache

variable {view u v w : CCoinsViewCache} {o : COutPoint} {c : Coin} {b : Bool}

/-- **Restoring one input** inserts its coin where there is none. -/
theorem restoreInput_spec {i : CTxIn} (hc : u.Coherent) (hn : u.getCoin i.prevout = none)
    (hreg : c.Regular) (hs : c.isSpent = false) :
    ∃ v, restoreInput (u, b) (i, c) = .ok (v, b) ∧ v.Follows u ∧
      v.getCoin = Function.update u.getCoin i.prevout (some c) := by
  obtain ⟨v, hadd⟩ : ∃ v, u.addCoin i.prevout c false = .ok v := addCoin_ok hs fun _ _ => hn
  obtain ⟨hf, hg⟩ := addCoin_spec hc (fun _ _ => hn) hadd
  have hhave : u.haveCoin i.prevout = false := by simp [haveCoin_eq, hn]
  have hcoin : u.undoCoin c i.prevout = some c := by
    simp [undoCoin, Nat.ne_of_gt hreg.height_pos]
  refine ⟨v, ?_, hf, by simpa [hreg.spendable] using hg⟩
  have happly : u.applyTxInUndo c i.prevout = .ok (v, true) := by
    unfold applyTxInUndo
    simp only [hhave, hcoin, bind_eq_ok]
    exact ⟨c, rfl, v, hadd, rfl⟩
  simp only [restoreInput, bind_eq_ok]
  exact ⟨(v, true), happly, by simp⟩

variable {C : CoinSet}

/-- **Restoring the inputs** makes the coins those of `C`, if `C` has the coins
that are restored and else those of the view. -/
theorem foldlM_restoreInput_spec {l : List (CTxIn × Coin)} (hc : u.Coherent)
    (hnd : (l.map fun p => p.1.prevout).Nodup)
    (hn : ∀ p ∈ l, u.getCoin p.1.prevout = none)
    (hreg : ∀ p ∈ l, p.2.Regular ∧ p.2.isSpent = false)
    (hin : ∀ p ∈ l, C p.1.prevout = some p.2)
    (hout : ∀ o ∉ l.map (fun p => p.1.prevout), u.getCoin o = C o) :
    ∃ v, l.foldlM restoreInput (u, b) = .ok (v, b) ∧ v.Follows u ∧ v.getCoin = C := by
  induction l generalizing u with
  | nil => exact ⟨u, rfl, hc.follows, funext fun o => hout o not_mem_nil⟩
  | cons p l ih =>
    obtain ⟨i, c⟩ := p
    rw [map_cons, nodup_cons] at hnd
    obtain ⟨hn₀, hn⟩ := forall_mem_cons.1 hn
    obtain ⟨⟨hregc, hs⟩, hreg⟩ := forall_mem_cons.1 hreg
    obtain ⟨hin₀, hin⟩ := forall_mem_cons.1 hin
    obtain ⟨t, hstep, hft, hgt⟩ := restoreInput_spec (b := b) hc hn₀ hregc hs
    refine (ih hft.coherent hnd.2 (fun q hq => ?_) hreg hin fun o ho => ?_).imp
      fun v ⟨hrest, hfv, hg⟩ => ⟨foldlM_cons_eq_ok.2 ⟨_, hstep, hrest⟩, hfv.trans hft, hg⟩
    · -- the other inputs are other outpoints, still without a coin
      rw [hgt, update_of_ne fun heq => hnd.1 (List.mem_map.2 ⟨q, hq, heq⟩)]
      exact hn q hq
    · rw [hgt]
      by_cases heq : o = i.prevout
      · rw [heq, update_self, hin₀]
      · rw [update_of_ne heq]
        exact hout o fun hmem => (mem_cons.1 hmem).elim heq ho

/-- **Taking the outputs out** when they are the coins the transaction
created: nothing is found amiss, and what is left is `C`, if that has none of
them and else the coins of the view. -/
theorem foldl_takeOutput_spec {txid : UInt256} {nHeight : ℕ} {cb cs : Bool}
    {l : List (CTxOut × ℕ)} (hc : w.Coherent) (hnd : (l.map Prod.snd).Nodup)
    (hcoin : ∀ p ∈ l, p.1.scriptPubKey.isUnspendable = false →
      w.getCoin ⟨txid, p.2⟩ = some ⟨p.1, cb, cs, nHeight⟩)
    (hin : ∀ p ∈ l, p.1.scriptPubKey.isUnspendable = false → C ⟨txid, p.2⟩ = none)
    (hout : ∀ o, (∀ p ∈ l, p.1.scriptPubKey.isUnspendable = false → o ≠ ⟨txid, p.2⟩) →
      w.getCoin o = C o) :
    ∃ v, l.foldl (takeOutput txid nHeight cb cs) (w, b) = (v, b) ∧ v.Follows w ∧
      v.getCoin = C := by
  induction l generalizing w with
  | nil => exact ⟨w, rfl, hc.follows, funext fun o => hout o (by simp)⟩
  | cons p l ih =>
    obtain ⟨out, n⟩ := p
    rw [map_cons, nodup_cons] at hnd
    obtain ⟨hcoin₀, hcoin⟩ := forall_mem_cons.1 hcoin
    obtain ⟨hin₀, hin⟩ := forall_mem_cons.1 hin
    cases hu : out.scriptPubKey.isUnspendable with
    | true =>
      -- an output that was never a coin is passed over
      obtain ⟨v, hrun, hf⟩ := ih hc hnd.2 hcoin hin fun o ho =>
        hout o (forall_mem_cons.2 ⟨fun hs => absurd hs (by simp [hu]), ho⟩)
      exact ⟨v, by simpa [takeOutput, hu] using hrun, hf⟩
    | false =>
      obtain ⟨t, hspend⟩ := spendCoin_of_getCoin (hcoin₀ hu)
      obtain ⟨hft, hgt⟩ := spendCoin_spec hc hspend
      have hstep : takeOutput txid nHeight cb cs (w, b) (out, n) = (t, b) := by
        simp [takeOutput, hu, hspend]
      refine (ih hft.coherent hnd.2 (fun q hq hs => ?_) hin fun o ho => ?_).imp
        fun v ⟨hrun, hf, hg⟩ => ⟨by rw [foldl_cons, hstep, hrun], hf.trans hft, hg⟩
      · rw [hgt, update_of_ne fun heq =>
          hnd.1 (List.mem_map.2 ⟨q, hq, (COutPoint.mk.inj heq).2⟩)]
        exact hcoin q hq hs
      · rw [hgt]
        by_cases heq : o = ⟨txid, n⟩
        · rw [heq, update_self, hin₀ hu]
        · rw [update_of_ne heq]
          exact hout o (forall_mem_cons.2 ⟨fun _ => heq, ho⟩)

variable {H : Hashes} {nHeight : ℕ} {tx : CTransaction}

/-- The outputs of a connected transaction taken out again: what is left is
what was there when its inputs had been spent. -/
theorem takeOutputs_undoes (hup : Updated H tx nHeight u v)
    (hvac : ∀ o, (CoinSet.created H tx nHeight o).isSome → CoinSet.spend tx u.getCoin o = none)
    (hh : nHeight < 2 ^ 30) (hc : w.Coherent) (hw : w.getCoin = v.getCoin) :
    ∃ t, tx.vout.zipIdx.foldl (takeOutput (tx.getHash H) nHeight tx.isCoinBase tx.isCoinStake)
        (w, b) = (t, b) ∧ t.Follows w ∧ t.getCoin = CoinSet.spend tx u.getCoin := by
  have hcr : ∀ p ∈ tx.vout.zipIdx, p.1.scriptPubKey.isUnspendable = false →
      CoinSet.created H tx nHeight ⟨tx.getHash H, p.2⟩ =
        some (Coin.make p.1 nHeight tx.isCoinBase tx.isCoinStake) :=
    fun p hp hs => created_eq_some.2 ⟨rfl, p.1, hp, hs, rfl⟩
  have hnd : (tx.vout.zipIdx.map Prod.snd).Nodup := by
    rw [zipIdx_map_snd]
    exact nodup_range'
  refine foldl_takeOutput_spec hc hnd (fun p hp hs => ?_) (fun p hp hs => hvac _ ?_) fun o ho => ?_
  · rw [hw, hup.getCoin, CoinSet.insertOutputs, hcr p hp hs, some_or, Coin.make,
      Nat.mod_eq_of_lt hh]
  · rw [hcr p hp hs]
    rfl
  · rw [hw, hup.getCoin, CoinSet.insertOutputs, created_eq_none ho, none_or]

/-- The record `UpdateCoins` keeps of a transaction that is no coinbase. -/
theorem updateCoins_undo {vprevout : List Coin} (hc : u.Coherent) (hcb : tx.isCoinBase = false)
    (hnd : (tx.vin.map CTxIn.prevout).Nodup)
    (hhave : ∀ i ∈ tx.vin, u.haveCoin i.prevout = true)
    (h : u.updateCoins H tx nHeight = .ok (v, vprevout)) :
    vprevout = tx.vin.map fun i => u.accessCoin i.prevout := by
  simp only [updateCoins, bind_eq_ok, Prod.exists] at h
  obtain ⟨t, undo, hspend, -, -, -, rfl⟩ := h
  simp only [spendInputs, hcb] at hspend
  simpa using foldlM_spendInput_undo hc hnd hhave hspend

/-- **Disconnecting a coinbase undoes connecting it.** -/
theorem disconnectTx_undoes_coinbase (hup : Updated H tx nHeight u v)
    (hcb : tx.isCoinBase = true)
    (hvac : ∀ o, (CoinSet.created H tx nHeight o).isSome → u.getCoin o = none)
    (hh : nHeight < 2 ^ 30) (hc : w.Coherent) (hw : w.getCoin = v.getCoin) :
    ∃ t, disconnectTx H nHeight (w, b) (tx, none) = .ok (t, b) ∧ t.Follows w ∧
      t.getCoin = u.getCoin := by
  have hspend : CoinSet.spend tx u.getCoin = u.getCoin := by simp [CoinSet.spend, hcb]
  rw [← hspend] at hvac
  obtain ⟨t, hrun, hf, hg⟩ := takeOutputs_undoes (b := b) hup hvac hh hc hw
  exact ⟨t, by simp [disconnectTx, hrun], hf, hg.trans hspend⟩

/-- **Disconnecting a transaction undoes connecting it**, with the coins it
spent read from its record. -/
theorem disconnectTx_undoes (hup : Updated H tx nHeight u v) (hcb : tx.isCoinBase = false)
    (hnd : (tx.vin.map CTxIn.prevout).Nodup)
    (hhave : ∀ i ∈ tx.vin, u.haveCoin i.prevout = true)
    (hreg : ∀ o c, u.getCoin o = some c → c.Regular)
    (hh : nHeight < 2 ^ 30) (hc : w.Coherent) (hw : w.getCoin = v.getCoin) :
    ∃ t, disconnectTx H nHeight (w, b)
        (tx, some (tx.vin.map fun i => u.accessCoin i.prevout)) = .ok (t, b) ∧ t.Follows w ∧
      t.getCoin = u.getCoin := by
  obtain ⟨t, hrun, hft, hgt⟩ := takeOutputs_undoes (b := b) hup (hup.vacant hcb) hh hc hw
  rw [CoinSet.spend, if_neg (by simp [hcb])] at hgt
  -- the inputs with their coins, in the order they are restored
  have hzip : tx.vin.zip (tx.vin.map fun i => u.accessCoin i.prevout) =
      tx.vin.map fun i => (i, u.accessCoin i.prevout) := by
    simpa using zip_map' (f := id) (g := fun i => u.accessCoin i.prevout) (l := tx.vin)
  have hkeys : ((tx.vin.map fun i => (i, u.accessCoin i.prevout)).reverse.map
      fun p => p.1.prevout) = (tx.vin.map CTxIn.prevout).reverse := by
    rw [map_reverse, List.map_map]
    rfl
  have hget : ∀ i ∈ tx.vin, u.getCoin i.prevout = some (u.accessCoin i.prevout) := by
    intro i hi
    obtain ⟨c, hcoin⟩ := isSome_iff_exists.1 (haveCoin_eq ▸ hhave i hi)
    rw [hcoin, accessCoin_of_getCoin hcoin]
  have hmem : ∀ p ∈ (tx.vin.map fun i => (i, u.accessCoin i.prevout)).reverse,
      p.1 ∈ tx.vin ∧ u.getCoin p.1.prevout = some p.2 := by
    simp only [mem_reverse, List.mem_map, forall_exists_index, and_imp]
    rintro _ i hi rfl
    exact ⟨hi, hget i hi⟩
  obtain ⟨t', hrun', hf', hg'⟩ := foldlM_restoreInput_spec (b := b) hft.coherent
    (by rw [hkeys]; exact nodup_reverse.2 hnd)
    (fun p hp => by rw [hgt, CoinSet.eraseInputs, if_pos (List.mem_map_of_mem (hmem p hp).1)])
    (fun p hp => ⟨hreg _ _ (hmem p hp).2, isSpent_of_getCoin (hmem p hp).2⟩)
    (fun p hp => (hmem p hp).2) fun o ho => by
      rw [hkeys, mem_reverse] at ho
      rw [hgt, CoinSet.eraseInputs, if_neg ho]
  exact ⟨t', by simp [disconnectTx, hrun, hzip, hrun'], hf'.trans hft, hg'⟩

end CCoinsViewCache

open CCoinsViewCache

/-- The coins that the transactions of a block spend, each in the view that
the transactions before it leave; a coinbase spends none. -/
def spentCoins (H : Hashes) (nHeight : ℕ) :
    CCoinsViewCache → List CTransaction → List (List Coin)
  | _, [] => []
  | view, tx :: vtx =>
    (if tx.isCoinBase then [] else tx.vin.map fun i => view.accessCoin i.prevout) ::
      spentCoins H nHeight (view.afterTx H nHeight tx) vtx

theorem length_spentCoins (H : Hashes) (nHeight : ℕ) : ∀ (vtx : List CTransaction)
    (view : CCoinsViewCache), (spentCoins H nHeight view vtx).length = vtx.length
  | [], _ => rfl
  | _ :: vtx, _ => congrArg (· + 1) (length_spentCoins H nHeight vtx _)

/-- Each record is as long as the inputs of its transaction at most. -/
theorem spentCoins_length_le {H : Hashes} {nHeight n : ℕ} {vtx : List CTransaction}
    (h : ∀ tx ∈ vtx, tx.vin.length ≤ n) {view : CCoinsViewCache} :
    ∀ vprevout ∈ spentCoins H nHeight view vtx, vprevout.length ≤ n := by
  induction vtx generalizing view with
  | nil => simp [spentCoins]
  | cons tx vtx ih =>
    rw [forall_mem_cons] at h
    rw [spentCoins, forall_mem_cons]
    refine ⟨?_, ih h.2⟩
    split
    · exact Nat.zero_le n
    · rw [length_map]
      exact h.1

/-- A view on which transactions can be connected and disconnected again:
its coins are regular, and the outpoints the transactions create are
visibly vacant in it. -/
structure Ready (H : Hashes) (view : CCoinsViewCache) (vtx : List CTransaction) : Prop where
  coherent : view.Coherent
  regular : ∀ o c, view.getCoin o = some c → c.Regular
  shielded : ∀ tx ∈ vtx, ∀ n, view.Shielded ⟨tx.getHash H, n⟩

namespace BlockContext

variable {H : Hashes} {N : Node} {C : BlockContext} {tx : CTransaction} {vtx : List CTransaction}
variable {s s' : ConnectState} {k : ℕ}

/-- A turn updates the view as `UpdateCoins` is to, and leaves it ready for
the transactions that follow. -/
theorem Turn.updated (h : Turn H N C tx k s s') (hr : Ready H s.view (tx :: vtx))
    (hpos : 0 < C.nHeight) (hlt : C.nHeight < 2 ^ 30) :
    Updated H tx C.nHeight s.view s'.view ∧ Ready H s'.view vtx := by
  obtain ⟨vprevout, hupd, -⟩ := h.coins
  have hup := updateCoins_spec hr.coherent
    (fun _ n => hr.shielded tx mem_cons_self n) hupd
  refine ⟨hup, hup.coherent, fun o c hc => ?_,
    fun t ht n => hup.shielded _ (hr.shielded t (mem_cons_of_mem tx ht) n)⟩
  rw [hup.getCoin, CoinSet.insertOutputs] at hc
  cases hcr : CoinSet.created H tx C.nHeight o with
  | some d =>
    obtain ⟨-, out, -, hs, rfl⟩ := created_eq_some.1 hcr
    obtain rfl : Coin.make out C.nHeight tx.isCoinBase tx.isCoinStake = c := by
      simpa [hcr] using hc
    refine ⟨?_, ?_, hs⟩ <;> simp only [Coin.make, Nat.mod_eq_of_lt hlt]
    · exact hpos
    · exact hlt
  | none =>
    rw [hcr] at hc
    exact hr.regular o c (of_spend_eq_some hc)

/-- The loop of `DisconnectBlock`, over transactions with their records. -/
def disconnectAll (H : Hashes) (nHeight : ℕ) (l : List (CTransaction × Option (List Coin)))
    (s : CCoinsViewCache × Bool) : Except Failure (CCoinsViewCache × Bool) :=
  l.reverse.foldlM (disconnectTx H nHeight) s

theorem disconnectAll_cons_eq_ok {nHeight : ℕ} {p : CTransaction × Option (List Coin)}
    {l : List (CTransaction × Option (List Coin))} {a b c : CCoinsViewCache × Bool}
    (hl : disconnectAll H nHeight l a = .ok b) (hp : disconnectTx H nHeight b p = .ok c) :
    disconnectAll H nHeight (p :: l) a = .ok c := by
  rw [disconnectAll, reverse_cons]
  exact foldlM_append_eq_ok.2 ⟨b, hl, foldlM_cons_eq_ok.2 ⟨c, hp, rfl⟩⟩

/-- **The turns of a block, undone last first.** From any view that holds
what the turns left, the loop of `DisconnectBlock` leads back to what
they started from, with the records they kept. -/
theorem Turns.undone (h : Turns H N C k vtx s s') (hk : 0 < k) (hr : Ready H s.view vtx)
    (hpos : 0 < C.nHeight) (hlt : C.nHeight < 2 ^ 30)
    (hcb : ∀ tx ∈ vtx, tx.isCoinBase = false) (hch : ∀ tx ∈ vtx, Checked tx) :
    s'.view.Follows s.view ∧ s'.vtxundo = s.vtxundo ++ spentCoins H C.nHeight s.view vtx ∧
      (∀ vprevout ∈ spentCoins H C.nHeight s.view vtx, ∀ c ∈ vprevout, c.Regular) ∧
      ∀ w b, w.Coherent → w.getCoin = s'.view.getCoin →
        ∃ w', disconnectAll H C.nHeight (vtx.zip ((spentCoins H C.nHeight s.view vtx).map some))
            (w, b) = .ok (w', b) ∧ w'.Follows w ∧ w'.getCoin = s.view.getCoin := by
  induction h with
  | nil =>
    exact ⟨hr.coherent.follows, (append_nil _).symm, by simp [spentCoins],
      fun w b hc hw => ⟨w, rfl, hc.follows, hw⟩⟩
  | @cons k tx vtx s t s' head tail ih =>
    obtain ⟨hup, hr'⟩ := head.updated hr hpos hlt
    have hcbt := hcb tx mem_cons_self
    obtain ⟨txfee, hpays, -, -⟩ := head.fee hcbt
    have hnd := (hch tx mem_cons_self).nodup
    obtain ⟨vprevout, hupd, hundo⟩ := head.coins
    rw [if_neg (by omega)] at hundo
    obtain rfl := updateCoins_undo hr.coherent hcbt hnd hpays.have_inputs hupd
    obtain ⟨hf, hvtxundo, hregular, hback⟩ := ih (by omega) hr'
      (fun t ht => hcb t (mem_cons_of_mem tx ht))
      fun t ht => hch t (mem_cons_of_mem tx ht)
    rw [spentCoins, if_neg (by simp [hcbt]), ← head.view_eq]
    refine ⟨hf.trans ⟨hup.coherent, hup.base, hup.hashBlock⟩, ?_, ?_, ?_⟩
    · rw [hvtxundo, hundo, List.append_assoc, singleton_append]
    · intro vp hvp c hc
      rcases mem_cons.1 hvp with rfl | hvp
      · obtain ⟨i, hi, rfl⟩ := List.mem_map.1 hc
        obtain ⟨d, hd⟩ := isSome_iff_exists.1
          (haveCoin_eq ▸ hpays.have_inputs i hi)
        rw [accessCoin_of_getCoin hd]
        exact hr.regular _ d hd
      · exact hregular vp hvp c hc
    · intro w b hc hw
      obtain ⟨w₁, hrun₁, hf₁, hg₁⟩ := hback w b hc hw
      obtain ⟨w₂, hrun₂, hf₂, hg₂⟩ := disconnectTx_undoes (b := b) hup hcbt hnd
        hpays.have_inputs hr.regular hlt hf₁.coherent hg₁
      exact ⟨w₂, disconnectAll_cons_eq_ok hrun₁ hrun₂, hf₂.trans hf₁, hg₂⟩

end BlockContext

/-- **A record read back is the record written**, if it is not too long to be
read. -/
theorem readUndo_writeUndo {vtxundo : List (List Coin)}
    (h : ∀ vprevout ∈ vtxundo, ∀ c ∈ vprevout, c.Regular) :
    readUndo (writeUndo vtxundo) =
      if ∀ vprevout ∈ vtxundo, vprevout.length ≤ maxInputsPerBlock then some vtxundo else none := by
  have hlen : (writeUndo vtxundo).all (·.length ≤ maxInputsPerBlock) =
      decide (∀ vprevout ∈ vtxundo, vprevout.length ≤ maxInputsPerBlock) := by
    simp [writeUndo, List.all_eq]
  rw [readUndo, hlen]
  simp only [decide_eq_true_eq]
  refine ite_congr rfl (fun _ => congrArg some ?_) fun _ => rfl
  rw [writeUndo, List.map_map]
  refine (map_congr_left fun vprevout hvp => ?_).trans (List.map_id _)
  rw [comp_apply, List.map_map]
  refine (map_congr_left fun c hc => ?_).trans (List.map_id _)
  exact Coin.toCoin_toUndo (h vprevout hvp c hc).height_lt

variable {H : Hashes} {N M : Node} {lim : BlockLimits} {block : CBlock} {pindex p : CBlockIndex}
variable {view : CCoinsViewCache} {aal : AalState} {c : Connected}

variable {hash : UInt256}

/-- A best block that was set is the one read, the null hash apart. -/
theorem getBestBlock_setBestBlock (h : hash ≠ 0) :
    (view.setBestBlock hash).getBestBlock = hash := by
  simp [CCoinsViewCache.getBestBlock, CCoinsViewCache.setBestBlock, h]

/-- A view over the same base whose best block is set to that of another
view has it. -/
theorem getBestBlock_setBestBlock_of_base {w : CCoinsViewCache} (hb : w.base = view.base)
    (hbest : view.getBestBlock = hash) :
    (w.setBestBlock hash).getBestBlock = view.getBestBlock := by
  rcases eq_or_ne hash 0 with rfl | hne
  · -- only an unset hash reads as the null one
    have hset : view.hashBlock = 0 := by
      by_contra hne
      simp [CCoinsViewCache.getBestBlock, hne] at hbest
    simp [CCoinsViewCache.getBestBlock, CCoinsViewCache.setBestBlock, hset, hb]
  · rw [getBestBlock_setBestBlock hne, hbest]

/-- What connecting a block leaves, and how its loop is undone. -/
theorem Accepted.undone {s : ConnectState} (h : Accepted H N lim block pindex p view aal false c s)
    (hshape : Shape block) (hpos : 0 < pindex.nHeight) (hlt : pindex.nHeight < 2 ^ 30)
    (hr : Ready H view block.vtx)
    (hfresh : ∀ tx ∈ block.vtx, ∀ n, view.getCoin ⟨tx.getHash H, n⟩ = none) :
    s.view.Follows view ∧ spentCoins H pindex.nHeight view block.vtx = [] :: s.vtxundo ∧
      (∀ vprevout ∈ s.vtxundo, ∀ c ∈ vprevout, c.Regular) ∧
      ∀ w b, w.Coherent → w.getCoin = s.view.getCoin →
        ∃ w', BlockContext.disconnectAll H pindex.nHeight
            (block.vtx.zip (none :: s.vtxundo.map some)) (w, b) = .ok (w', b) ∧
          w'.Follows w ∧ w'.getCoin = view.getCoin := by
  obtain ⟨⟨coinbase, rest, hfirst, -⟩, hchecked⟩ := hshape
  obtain ⟨hturns, -, -, -, -⟩ := h
  rw [hfirst.vtx_eq] at hturns hr hchecked hfresh ⊢
  cases hturns with
  | cons head tail =>
    obtain ⟨hup, hr'⟩ := head.updated hr hpos hlt
    obtain ⟨vprevout, -, hnone⟩ := head.coins
    obtain ⟨hf, hundos, hregular, hback⟩ := tail.undone (by norm_num) hr' hpos hlt
      hfirst.others fun tx htx => hchecked tx (mem_cons_of_mem coinbase htx)
    -- the coinbase leaves no record
    rw [hnone] at hundos
    rw [hundos]
    refine ⟨hf.trans ⟨hup.coherent, hup.base, hup.hashBlock⟩, ?_, hregular, fun w b hc hw => ?_⟩
    · rw [spentCoins, if_pos hfirst.isCoinBase, head.view_eq]
      rfl
    obtain ⟨w₁, hrun₁, hf₁, hg₁⟩ := hback w b hc hw
    have hvac : ∀ o, (CoinSet.created H coinbase pindex.nHeight o).isSome →
        view.getCoin o = none := by
      intro o ho
      obtain ⟨d, hd⟩ := isSome_iff_exists.1 ho
      obtain ⟨hhash, -⟩ := created_eq_some.1 hd
      have := hfresh coinbase mem_cons_self o.n
      rwa [← hhash] at this
    obtain ⟨w₂, hrun₂, hf₂, hg₂⟩ := disconnectTx_undoes_coinbase (b := b) hup
      hfirst.isCoinBase hvac hlt hf₁.coherent hg₁
    exact ⟨w₂, BlockContext.disconnectAll_cons_eq_ok hrun₁ hrun₂, hf₂.trans hf₁, hg₂⟩

/-- Disconnecting a block, with the record that connecting it wrote, works
cleanly and brings back the coins and the best block of `view` and the
roots of the parent. -/
def Undone (H : Hashes) (M : Node) (block : CBlock) (pindex p : CBlockIndex)
    (view : CCoinsViewCache) (c : Connected) : Prop :=
  ∃ d, disconnectBlock H M block pindex p (some (writeUndo c.vtxundo)) c.view c.aal = .ok d ∧
    d.result = .ok ∧ d.view.getCoin = view.getCoin ∧
    d.view.getBestBlock = view.getBestBlock ∧
    d.aal.state.trie.root = p.hashStateRoot ∧ d.aal.state.stateUTXO.root = p.hashUTXORoot

/-- **Disconnecting undoes connecting.** A block above the genesis block,
connected on a view whose best block is its parent, whose coins are
regular and in which no txid of the block has an unspent output, and none
of whose transactions has more inputs than an undo record may hold, is
disconnected cleanly with the record just written: the view holds the
same coins and best block again, and the contract state has the parent's
roots. -/
theorem disconnect_undoes_connect (hv : block.Vouched H)
    (hne : block.getHash H ≠ N.consensus.hashGenesisBlock) (hnull : block.getHash H ≠ 0)
    (hpos : 0 < pindex.nHeight) (hlt : pindex.nHeight < 2 ^ 30) (hcoh : view.Coherent)
    (hreg : ∀ o coin, view.getCoin o = some coin → coin.Regular)
    (hfresh : ∀ tx ∈ block.vtx, ∀ n, view.getCoin ⟨tx.getHash H, n⟩ = none)
    (hbest : view.getBestBlock = p.blockHash)
    (hinputs : ∀ tx ∈ block.vtx, tx.vin.length ≤ maxInputsPerBlock)
    (h : connectBlock H N lim block pindex (some p) view aal false = .ok c) :
    Undone H M block pindex p view c := by
  obtain ⟨hshape, -, hhash, hgen | ⟨q, s, hq, hacc⟩⟩ := connectBlock_eq_ok hv h
  · exact absurd hgen hne
  obtain ⟨hview, -, hundo⟩ := hacc.connected rfl
  have hr : Ready H view block.vtx :=
    ⟨hcoh, hreg, fun tx htx n => shielded_of_getCoin (hfresh tx htx n)⟩
  obtain ⟨hf, hspent, hregular, hback⟩ := hacc.undone hshape hpos hlt hr hfresh
  have hlen := congrArg length hspent
  rw [length_spentCoins] at hlen
  -- the record is short enough to be read
  have hshort : ∀ vprevout ∈ spentCoins H pindex.nHeight view block.vtx,
      vprevout.length ≤ maxInputsPerBlock := spentCoins_length_le hinputs
  rw [hspent, forall_mem_cons] at hshort
  have hread : readUndo (writeUndo s.vtxundo) = some s.vtxundo := by
    rw [readUndo_writeUndo hregular, if_pos hshort.2]
  -- the best block plays no part in what the view holds
  have hcoh' : c.view.Coherent := by
    rw [hview]
    exact ⟨hf.coherent.fresh, hf.coherent.clean⟩
  have hget : c.view.getCoin = s.view.getCoin := by
    rw [hview]
    rfl
  obtain ⟨w, hrun, hfw, hg⟩ := hback c.view true hcoh' hget
  have hb : w.base = view.base := by
    rw [hfw.base, hview]
    exact hf.base
  refine ⟨⟨true, w.setBestBlock p.blockHash, { c.aal with
    state := c.aal.state.setRoots M p.hashStateRoot p.hashUTXORoot }⟩, ?_, rfl, hg,
    getBestBlock_setBestBlock_of_base hb hbest, rfl, rfl⟩
  simp only [disconnectBlock, hundo, Option.bind_some, hread, bind_eq_ok, require_eq_ok,
    orThrow_eq_ok, Option.some.injEq, beq_iff_eq, exists_eq_left']
  refine ⟨(), ?_, (), hlen.symm, (w, true), hrun, rfl⟩
  rw [hview, getBestBlock_setBestBlock (hhash ▸ hnull)]

/-! ## A block, undone, and a view at another block -/

variable {coin : Coin}

/-- The one coin of the sample view is regular. -/
theorem sampleView_regular {nValue : ℕ} {o : COutPoint}
    (h : (sampleView nValue).getCoin o = some coin) : coin.Regular := by
  rw [CCoinsViewCache.getCoin_eq] at h
  simp only [sampleView, CCoinsViewCache.ofBase] at h
  split at h
  · obtain ⟨⟩ := h
    exact ⟨Nat.one_pos, by norm_num, rfl⟩
  · cases h

/-- It is the only one. -/
theorem sampleView_getCoin {nValue : ℕ} (h : hash ≠ 100) (n : ℕ) :
    (sampleView nValue).getCoin ⟨hash, n⟩ = none := by
  rw [CCoinsViewCache.getCoin_eq]
  simp [sampleView, CCoinsViewCache.ofBase, h]

theorem refusedCallBlock_undone : ∃ c d,
    connectBlock (singlingHashes refusedCallBlock.toCBlockHeader) sampleNode sampleLimits
      refusedCallBlock (sampleIndex 10) (some sampleParent) (sampleView 20000000) idleWorld false
        = .ok c ∧
    disconnectBlock (singlingHashes refusedCallBlock.toCBlockHeader) sampleNode refusedCallBlock
      (sampleIndex 10) sampleParent (some (writeUndo c.vtxundo)) c.view c.aal = .ok d ∧
    d.result = .ok ∧ d.view.getCoin = (sampleView 20000000).getCoin := by
  obtain ⟨c, hc⟩ := exists_ok_of_isSome refusedCallBlock_connects
  obtain ⟨d, hd, hres, hcoins, -⟩ := disconnect_undoes_connect (M := sampleNode)
    (fun h => by cases h) (by decide) (by decide) (by decide) (by decide)
    (CCoinsViewCache.coherent_ofBase _) (fun _ _ => sampleView_regular)
    (fun tx htx n => sampleView_getCoin (by revert tx; decide) n) (by decide)
    (by decide) hc
  exact ⟨c, d, hc, hd, hres, hcoins⟩

/-- A block of the version whose parent is not compared with the view's
best block. -/
def strayBlock : CBlock := { sampleBlock .null [sampleCoinbase 0] with nVersion := swVersion }

/-- Its parent, which is not the best block of the sample view. -/
def strayParent : CBlockIndex := { sampleParent with blockHash := 8 }

/-- The claim that blocks are undone on views and parents that meet `P`. -/
def UndoneWhenever (P : CCoinsViewCache → CBlockIndex → Prop) : Prop :=
  ∀ (H : Hashes) (N : Node) (lim : BlockLimits) (block : CBlock) (pindex p : CBlockIndex)
    (view : CCoinsViewCache) (aal : AalState) (c : Connected),
    block.Vouched H → block.getHash H ≠ N.consensus.hashGenesisBlock → block.getHash H ≠ 0 →
    0 < pindex.nHeight → pindex.nHeight < 2 ^ 30 → view.Coherent →
    (∀ o coin, view.getCoin o = some coin → coin.nHeight < 2 ^ 30) →
    (∀ tx ∈ block.vtx, ∀ n, view.getCoin ⟨tx.getHash H, n⟩ = none) →
    (∀ tx ∈ block.vtx, tx.vin.length ≤ maxInputsPerBlock) → P view p →
    connectBlock H N lim block pindex (some p) view aal false = .ok c →
    Undone H N block pindex p view c

/-- A sample block connected at height 10 and disconnected again: the best
block, and the coin at outpoint `(100, 0)`, after both. -/
def connectAndDisconnect (block : CBlock) (p : CBlockIndex) (view : CCoinsViewCache) :
    Option (UInt256 × Option Coin) :=
  (connectBlock (singlingHashes block.toCBlockHeader) sampleNode sampleLimits block
    (sampleIndex 10) (some p) view idleWorld false).toOption.bind fun c =>
      (disconnectBlock (singlingHashes block.toCBlockHeader) sampleNode block (sampleIndex 10) p
        (some (writeUndo c.vtxundo)) c.view c.aal).toOption.map fun d =>
          (d.view.getBestBlock, d.view.getCoin ⟨100, 0⟩)

/-- Were blocks undone, both would be as they were. -/
theorem UndoneWhenever.connectAndDisconnect_eq {P : CCoinsViewCache → CBlockIndex → Prop}
    (h : UndoneWhenever P) (block : CBlock) (p : CBlockIndex) (view : CCoinsViewCache)
    (hfresh : block.fChecked = false)
    (hinputs : ∀ tx ∈ block.vtx, tx.vin.length ≤ maxInputsPerBlock) (hP : P view p)
    (hcoh : view.Coherent)
    (hlt : ∀ o coin, view.getCoin o = some coin → coin.nHeight < 2 ^ 30)
    (hids : ∀ tx ∈ block.vtx, ∀ n,
      view.getCoin ⟨tx.getHash (singlingHashes block.toCBlockHeader), n⟩ = none)
    (hconn : (connectBlock (singlingHashes block.toCBlockHeader) sampleNode sampleLimits block
      (sampleIndex 10) (some p) view idleWorld false).toOption.isSome = true) :
    connectAndDisconnect block p view = some (view.getBestBlock, view.getCoin ⟨100, 0⟩) := by
  have hhash : block.getHash (singlingHashes block.toCBlockHeader) = 1 := if_pos rfl
  obtain ⟨c, hc⟩ := exists_ok_of_isSome hconn
  obtain ⟨d, hd, -, hcoins, hbest, -⟩ := h _ _ _ block (sampleIndex 10) p view idleWorld c
    (fun hn => by rw [hfresh] at hn; cases hn) (by rw [hhash]; decide) (by rw [hhash]; decide)
    (by decide) (by decide) hcoh hlt hids hinputs hP hc
  simp [connectAndDisconnect, hc, hd, hcoins, hbest, Except.toOption]

/-- A view that holds this coin only. -/
def coinView (coin : Coin) (h : coin.isSpent = false) : CCoinsViewCache :=
  .ofBase ⟨fun o => if o = ⟨100, 0⟩ then some coin else none, 7, by
    intro o c hc
    split at hc
    · obtain ⟨⟩ := hc
      exact h
    · cases hc⟩

theorem coinView_getCoin {h : coin.isSpent = false} {o : COutPoint} :
    (coinView coin h).getCoin o = if o = ⟨100, 0⟩ then some coin else none := by
  rw [CCoinsViewCache.getCoin_eq]
  rfl

/-- What holds of the coin holds of all coins of the view. -/
theorem coinView_forall {h : coin.isSpent = false} {Q : Coin → Prop} (hQ : Q coin) :
    ∀ o c, (coinView coin h).getCoin o = some c → Q c := by
  intro o c hc
  rw [coinView_getCoin] at hc
  split at hc
  · exact Option.some.inj hc ▸ hQ
  · cases hc

/-- A block with a transaction that spends the coin. -/
def spendingBlock : CBlock :=
  sampleBlock .null [sampleCoinbase 0, { vin := [{ prevout := ⟨100, 0⟩, scriptSig := [] }]
                                         vout := [⟨2, [0x51]⟩] }]

/-- A coin with a script that cannot be spent. -/
def returnCoin : Coin := ⟨⟨20000, [0x6a]⟩, false, false, 1⟩

theorem spendingBlock_txids {h : coin.isSpent = false} {tx : CTransaction}
    (htx : tx ∈ spendingBlock.vtx) (n : ℕ) : (coinView coin h).getCoin
      ⟨tx.getHash (singlingHashes spendingBlock.toCBlockHeader), n⟩ = none := by
  have hne : tx.getHash (singlingHashes spendingBlock.toCBlockHeader) ≠ 100 := by
    revert tx
    decide
  rw [coinView_getCoin, if_neg fun heq => hne (COutPoint.mk.inj heq).1]

/-- **Conditions on the view are needed.** The best block need not come back
when the view was at another block than the parent, and a coin with a
script that cannot be spent does not come back. -/
theorem disconnect_moves_best :
    ¬ UndoneWhenever (fun view _ => ∀ o coin, view.getCoin o = some coin → coin.Regular) ∧
    ¬ UndoneWhenever (fun view p => view.getBestBlock = p.blockHash ∧
      ∀ o coin, view.getCoin o = some coin → 0 < coin.nHeight) := by
  refine ⟨fun h => ?_, fun h => ?_⟩
  · have heq := h.connectAndDisconnect_eq strayBlock strayParent (sampleView 20000000) rfl
      (by decide)
      (fun _ _ => sampleView_regular)
      (CCoinsViewCache.coherent_ofBase _) (fun _ _ hc => (sampleView_regular hc).height_lt)
      (fun tx htx n => sampleView_getCoin (by revert tx; decide) n) (by decide)
    revert heq
    decide
  · have heq := h.connectAndDisconnect_eq spendingBlock sampleParent (coinView returnCoin rfl) rfl
      (by decide)
      ⟨rfl, coinView_forall (by decide)⟩
      (CCoinsViewCache.coherent_ofBase _) (coinView_forall (by decide))
      (fun _ htx n => spendingBlock_txids htx n) (by decide)
    revert heq
    decide

end Slucore
