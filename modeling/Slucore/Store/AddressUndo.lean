import Slucore.Store.AddressIndex
import Slucore.Validation.Unique
/-!
# Store — the address indexes of a block that is disconnected

What `DisconnectBlock` writes to the address indexes, against what
`ConnectBlock` wrote. The address index is cleared of the block, and the
unspent index loses the outputs of the block and gets back those it spent;
but with the coinstake flag of the transaction that spent them, and the
spent index is not touched. So the three indexes are as they were before
the block exactly if they held before what these writes make of them
(`address_indexes_undone_iff`).
-/


namespace Slucore

open List Option CCoinsViewCache InputEntry AddressVectors IndexedTx CoinSet

variable {H : Hashes} {X : Extractor}

/-! ## What is gathered when a block is disconnected -/

/-- What a turn of the loop of `DisconnectBlock` gathers. -/
def undoVectors (X : Extractor) (p : IndexedTx × List InputEntry) : AddressVectors :=
  (gather p.1.undoReceiving (p.1.outputs X).reverse).append (gather p.1.undoSpending p.2.reverse)

variable {β : Type}

/-- A loop that gathers vectors beside another loop. -/
theorem foldlM_gather {σ γ : Type} {π : β → γ} {g : σ → γ → Except Failure σ}
    {f : σ × AddressVectors → β → Except Failure (σ × AddressVectors)}
    {vec : β → AddressVectors} {l : List β}
    (hstep : ∀ p ∈ l, ∀ s v, f (s, v) p = (g s (π p)).map fun r => (r, v.append (vec p))) :
    ∀ s v, l.foldlM f (s, v) =
      ((l.map π).foldlM g s).map fun r => (r, v.append (gather vec l)) := by
  induction l with
  | nil =>
    intro s v
    simp [gather, pure, Except.pure, Except.map]
  | cons p l ih =>
    intro s v
    rw [foldlM_cons, map_cons, foldlM_cons, hstep p mem_cons_self]
    cases g s (π p) with
    | error e => rfl
    | ok s' =>
      rw [gather_cons, ← AddressVectors.append_assoc]
      exact ih (fun q hq => hstep q (mem_cons_of_mem p hq)) s' (v.append (vec p))

/-- The view reads the coin that was just restored. -/
theorem accessCoin_of_restoreInput {u v : CCoinsViewCache} {b b' : Bool} {i : CTxIn} {c : Coin}
    (hreg : c.Regular) (h : restoreInput (u, b) (i, c) = .ok (v, b')) :
    v.accessCoin i.prevout = c := by
  have hcoin : u.undoCoin c i.prevout = some c := by
    simp [CCoinsViewCache.undoCoin, Nat.ne_of_gt hreg.height_pos]
  simp only [restoreInput, CCoinsViewCache.applyTxInUndo, hcoin, bind_eq_ok, orThrow_eq_ok,
    Option.some.injEq, Prod.exists] at h
  obtain ⟨v₁, clean, ⟨c', rfl, v₂, hadd, rfl, -⟩, rfl, -⟩ := h
  obtain ⟨-, ⟨hu, -⟩ | ⟨-, -, rfl⟩⟩ := CCoinsViewCache.addCoin_cases hadd
  · simp [hreg.spendable] at hu
  · simp [CCoinsViewCache.accessCoin, CCoinsViewCache.fetchCoin, CCoinsViewCache.setEntry]

variable {s : CCoinsViewCache × Bool} {v : AddressVectors}

/-- A turn over an input gathers the entry of the recorded coin. -/
theorem restoreInputIndexed_eq {t : IndexedTx} {p : (CTxIn × Coin) × ℕ} (hreg : p.1.2.Regular) :
    restoreInputIndexed X t (s, v) p = (restoreInput s p.1).map fun r => (r, v.append
      (gather t.undoSpending (InputEntry.of X p.1.1.prevout p.1.2 p.2).toList)) := by
  have hcoin : s.1.undoCoin p.1.2 p.1.1.prevout = some p.1.2 := by
    simp [CCoinsViewCache.undoCoin, Nat.ne_of_gt hreg.height_pos]
  rw [restoreInputIndexed]
  cases h : restoreInput s p.1 with
  | error e => rfl
  | ok r =>
    have haccess : r.1.accessCoin p.1.1.prevout = p.1.2 := accessCoin_of_restoreInput hreg h
    simp only [ok_bind, haccess, hcoin]
    rfl

/-- A turn gathers what the transaction and its recorded coins give. -/
theorem disconnectTxIndexed_eq {nHeight : ℕ} {p : (CTransaction × Option (List Coin)) × ℕ}
    (hreg : ∀ c ∈ p.1.2.getD [], c.Regular) :
    disconnectTxIndexed H X nHeight (s, v) p = (disconnectTx H nHeight s p.1).map fun r =>
      (r, v.append (undoVectors X (indexedTx H X nHeight ((p.1.1, p.1.2.getD []), p.2)))) := by
  obtain ⟨⟨tx, record⟩, i⟩ := p
  cases record with
  | none =>
    simp [disconnectTxIndexed, disconnectTx, undoVectors, indexedTx, IndexedTx.inputs, gather,
      Except.map]
  | some vprevout =>
    have hmem : ∀ q ∈ (tx.vin.zip vprevout).zipIdx.reverse, q.1.2 ∈ vprevout := by
      intro q hq
      exact (of_mem_zip (fst_mem_of_mem_zipIdx (mem_reverse.1 hq))).2
    simp only [disconnectTx, map_bind_eq]
    refine congrArg (_ >>= ·) (funext fun _ => ?_)
    rw [foldlM_gather (π := Prod.fst) (g := restoreInput) fun q hq s v =>
      restoreInputIndexed_eq (hreg q.1.2 (hmem q hq))]
    simp [AddressVectors.append_assoc, undoVectors, indexedTx, IndexedTx.inputs,
      ← filterMap_reverse, gather_filterMap]

variable {view : CCoinsViewCache} {db : AddressDB}

/-- **`DisconnectBlock` with the indexes is `DisconnectBlock`**, with the writes
that its transactions and their recorded coins give. -/
theorem disconnectBlockIndexed_eq {M : Node} {block : CBlock} {pindex p : CBlockIndex}
    {stored : List (List TxInUndo)} {vtxundo : List (List Coin)} {aal : AalState}
    (hread : readUndo stored = some vtxundo)
    (hreg : ∀ vprevout ∈ vtxundo, ∀ c ∈ vprevout, c.Regular) :
    disconnectBlockIndexed H X M block pindex p (some stored) view aal db =
      (disconnectBlock H M block pindex p (some stored) view aal).map fun d =>
        (d, db.writeDisconnected (gather
          (fun q => undoVectors X (indexedTx H X pindex.nHeight ((q.1.1, q.1.2.getD []), q.2)))
          (block.vtx.zip (none :: vtxundo.map some)).zipIdx.reverse)) := by
  have hmem : ∀ q ∈ (block.vtx.zip (none :: vtxundo.map some)).zipIdx.reverse,
      ∀ c ∈ q.1.2.getD [], c.Regular := by
    intro q hq c hc
    have hzip := of_mem_zip (fst_mem_of_mem_zipIdx (mem_reverse.1 hq))
    rcases mem_cons.1 hzip.2 with hnone | hsome
    · simp [hnone] at hc
    · obtain ⟨vprevout, hvp, heq⟩ := List.mem_map.1 hsome
      rw [← heq] at hc
      exact hreg vprevout hvp c hc
  have hloop := foldlM_gather (π := Prod.fst) (g := disconnectTx H pindex.nHeight)
    (fun q hq s v => disconnectTxIndexed_eq (X := X) (hmem q hq)) (view, true) .empty
  rw [map_reverse, zipIdx_map_fst] at hloop
  simp only [disconnectBlockIndexed, disconnectBlock, Option.bind_some, hread, map_bind_eq, orThrow,
    ok_bind, hloop]
  refine congrArg (_ >>= ·) (funext fun _ => congrArg (_ >>= ·) (funext fun _ => ?_))
  cases (block.vtx.zip (none :: vtxundo.map some)).reverse.foldlM
    (disconnectTx H pindex.nHeight) (view, true) <;> rfl

/-! ## The coins that a block spends -/

/-- What the coins are once the transactions of `done` have been connected on
`view₀`: those that were there or were created, and what was spent is gone. -/
structure Origins (H : Hashes) (nHeight : ℕ) (view₀ : CCoinsViewCache) (done : List CTransaction)
    (view : CCoinsViewCache) : Prop where
  origin : ∀ o c, view.getCoin o = some c →
    view₀.getCoin o = some c ∨ ∃ t ∈ done, CoinSet.created H t nHeight o = some c
  gone : ∀ t ∈ done, t.isCoinBase = false → ∀ o ∈ t.vin.map CTxIn.prevout,
    view.getCoin o = none ∧ ((view₀.getCoin o).isSome = true ∨ o.hash ∈ txids H done)

section Origins

variable {nHeight : ℕ} {view₀ view v : CCoinsViewCache} {done : List CTransaction}
variable {tx : CTransaction}

theorem Origins.start : Origins H nHeight view₀ [] view₀ :=
  ⟨fun _ _ h => .inl h, fun _ ht => absurd ht not_mem_nil⟩

/-- Where a coin is from. -/
theorem Origins.cases (h : Origins H nHeight view₀ done view) {o : COutPoint} {c : Coin}
    (hc : view.getCoin o = some c) : (view₀.getCoin o).isSome = true ∨ o.hash ∈ txids H done := by
  rcases h.origin o c hc with hold | ⟨t, ht, hcr⟩
  · exact .inl (by rw [hold]; rfl)
  · exact .inr (List.mem_map.2 ⟨t, ht, (created_eq_some.1 hcr).1.symm⟩)

/-- A transaction whose id is new creates no outpoint that was there. -/
theorem created_eq_none_of_new (hnew : tx.getHash H ∉ txids H done)
    (hfresh : ∀ n, view₀.getCoin ⟨tx.getHash H, n⟩ = none) {o : COutPoint}
    (ho : (view₀.getCoin o).isSome = true ∨ o.hash ∈ txids H done) :
    created H tx nHeight o = none := by
  refine eq_none_iff_forall_ne_some.2 fun c hc => ?_
  have hhash := (created_eq_some.1 hc).1
  rcases ho with hsome | hmem
  · have hnone := hfresh o.n
    rw [← hhash] at hnone
    rw [hnone] at hsome
    cases hsome
  · exact hnew (hhash ▸ hmem)

/-- **Connecting a new transaction.** -/
theorem Origins.connect (h : Origins H nHeight view₀ done view)
    (hup : CCoinsViewCache.Updated H tx nHeight view v) (hnew : tx.getHash H ∉ txids H done)
    (hfresh : ∀ n, view₀.getCoin ⟨tx.getHash H, n⟩ = none)
    (hhave : tx.isCoinBase = false → ∀ i ∈ tx.vin, view.haveCoin i.prevout = true) :
    Origins H nHeight view₀ (done ++ [tx]) v := by
  have hgone := hup.gone h.gone (fun o => created_eq_none_of_new hnew hfresh) fun hcb i hi =>
    have ⟨c, hc⟩ := isSome_iff_exists.1 (haveCoin_eq ▸ hhave hcb i hi)
    h.cases hc
  refine ⟨fun o c hc => ?_, fun t ht hcb o ho => ?_⟩
  · rcases hup.cases hc with hold | hcr
    · refine (h.origin o c hold).imp_right ?_
      rintro ⟨t, ht, hct⟩
      exact ⟨t, mem_append_left _ ht, hct⟩
    · exact .inr ⟨tx, by simp, hcr⟩
  · exact (hgone t ht hcb o ho).imp_right (.imp_right (txids_subset_append _ _ ·))

end Origins

/-! ## The order of a block -/

/-- The transactions of a block, after those of `done`: an id is not used
twice, an outpoint is not spent twice, what is spent was created before, and
every coin is from the view or from a transaction of the block. -/
structure Ordered (H : Hashes) (X : Extractor) (nHeight : ℕ) (view₀ : CCoinsViewCache)
    (done : List CTransaction) (entries : List (IndexedTx × List InputEntry)) : Prop where
  ids : ∀ a ∈ entries, a.1.hash ∉ txids H done
  prevouts : ∀ a ∈ entries, ∀ e ∈ a.2, ∀ t ∈ done, t.isCoinBase = false →
    e.prevout ∉ t.vin.map CTxIn.prevout
  apart : entries.Pairwise fun a b =>
    ∀ e ∈ a.2, e.prevout.hash ≠ b.1.hash ∧ ∀ e' ∈ b.2, e'.prevout ≠ e.prevout
  own : ∀ a ∈ entries, (∀ e ∈ a.2, e.prevout.hash ≠ a.1.hash) ∧
    a.2.Pairwise fun e e' => e.prevout ≠ e'.prevout
  source : ∀ a ∈ entries, ∀ e ∈ a.2, view₀.getCoin e.prevout = some e.coin ∨
    (∃ t ∈ done, CoinSet.created H t nHeight e.prevout = some e.coin) ∨
    ∃ b ∈ entries, CoinSet.created H b.1.tx nHeight e.prevout = some e.coin
  /-- Each transaction has the hash it is indexed with. -/
  hashes : ∀ a ∈ entries, a.1.hash = a.1.tx.getHash H
  /-- Each input has the address of its coin, which is not spent. -/
  coins : ∀ a ∈ entries, ∀ e ∈ a.2,
    X.address e.prevout e.coin.out.scriptPubKey = some e.address ∧ e.coin.isSpent = false

theorem map_fst_zip_sublist {α : Type} (l : List α) (l' : List β) :
    ((l.zip l').map Prod.fst).Sublist l := by
  rw [zip_eq_zip_take_min, map_fst_zip (by simp)]
  exact take_sublist _ _

section Ordered

variable {nHeight k : ℕ} {view₀ view : CCoinsViewCache} {done vtx : List CTransaction}
variable {tx : CTransaction}

/-- The coins that a transaction spends of a view. -/
def coinsOf (view : CCoinsViewCache) (tx : CTransaction) : List Coin :=
  if tx.isCoinBase then [] else tx.vin.map fun i => view.accessCoin i.prevout

theorem indexedBlock_cons : indexedBlock H X nHeight view (tx :: vtx) k =
    indexedTx H X nHeight ((tx, coinsOf view tx), k) ::
      indexedBlock H X nHeight (view.afterTx H nHeight tx) vtx (k + 1) := rfl

theorem InputEntry.of_eq_some {o : COutPoint} {c : Coin} {j : ℕ} {e : InputEntry} :
    InputEntry.of X o c j = some e ↔
      X.address o c.out.scriptPubKey = some e.address ∧ e.prevout = o ∧ e.coin = c ∧ e.j = j := by
  rw [InputEntry.of, map_eq_some_iff]
  constructor
  · rintro ⟨address, haddr, rfl⟩
    exact ⟨haddr, rfl, rfl, rfl⟩
  · rintro ⟨haddr, rfl, rfl, rfl⟩
    exact ⟨e.address, haddr, rfl⟩

/-- An input that is indexed is one of the transaction, with its coin. -/
theorem mem_inputs {e : InputEntry} (he : e ∈ (indexedTx H X nHeight ((tx, coinsOf view tx), k)).2) :
    tx.isCoinBase = false ∧ (∃ i ∈ tx.vin, e.prevout = i.prevout) ∧
      e.coin = view.accessCoin e.prevout ∧
      X.address e.prevout e.coin.out.scriptPubKey = some e.address := by
  obtain ⟨q, hq, hof⟩ := mem_filterMap.1 he
  obtain ⟨haddr, hprev, hcoin, -⟩ := of_eq_some.1 hof
  have hmem := fst_mem_of_mem_zipIdx hq
  rw [coinsOf] at hmem
  cases hcb : tx.isCoinBase with
  | true => simp [hcb] at hmem
  | false =>
    rw [hcb] at hmem
    have hzip : tx.vin.zip (tx.vin.map fun i => view.accessCoin i.prevout) =
        tx.vin.map fun i => (i, view.accessCoin i.prevout) := by
      simpa using zip_map' (f := id) (g := fun i => view.accessCoin i.prevout) (l := tx.vin)
    obtain ⟨i, hi, heq⟩ := List.mem_map.1 (hzip ▸ hmem)
    rw [← heq] at hprev hcoin haddr
    exact ⟨rfl, ⟨i, hi, hprev⟩, by rw [hprev, hcoin], by rw [hprev, hcoin]; exact haddr⟩

/-- Outpoints are not repeated among the inputs. -/
theorem pairwise_inputs {coins : List Coin} (h : (tx.vin.map CTxIn.prevout).Nodup) :
    (indexedTx H X nHeight ((tx, coins), k)).2.Pairwise fun e e' => e.prevout ≠ e'.prevout := by
  have hzip := pairwise_map.1 (h.sublist ((map_fst_zip_sublist tx.vin coins).map _))
  rw [pairwise_map, ← zipIdx_map_fst 0 (tx.vin.zip coins), pairwise_map] at hzip
  refine pairwise_filterMap.2 (hzip.imp fun {q q'} hne e he e' he' => ?_)
  rw [(of_eq_some.1 he).2.1, (of_eq_some.1 he').2.1]
  exact hne

/-- A transaction that is new comes before the transactions that follow it. -/
theorem Ordered.cons {entries : List (IndexedTx × List InputEntry)}
    (ho : Origins H nHeight view₀ done view) (hnew : tx.getHash H ∉ txids H done)
    (hfresh : ∀ n, view₀.getCoin ⟨tx.getHash H, n⟩ = none)
    (hhave : tx.isCoinBase = false → ∀ i ∈ tx.vin, view.haveCoin i.prevout = true)
    (hnd : (tx.vin.map CTxIn.prevout).Nodup)
    (hfreshes : ∀ a ∈ entries, ∀ n, view₀.getCoin ⟨a.1.hash, n⟩ = none)
    (h : Ordered H X nHeight view₀ (done ++ [tx]) entries) :
    Ordered H X nHeight view₀ done (indexedTx H X nHeight ((tx, coinsOf view tx), k) :: entries) := by
  have hids : ∀ a ∈ entries, a.1.hash ∉ txids H done :=
    fun a ha hx => h.ids a ha (txids_subset_append _ _ hx)
  -- an input finds its coin, which was there or was created before
  have hcoin : ∀ e ∈ (indexedTx H X nHeight ((tx, coinsOf view tx), k)).2,
      view.getCoin e.prevout = some e.coin := by
    intro e he
    obtain ⟨hcb, ⟨i, hi, hprev⟩, hcoin, -⟩ := mem_inputs he
    obtain ⟨c, hc⟩ := isSome_iff_exists.1 (haveCoin_eq ▸ hhave hcb i hi)
    rw [hcoin, hprev, hc, accessCoin_of_getCoin hc]
  have hne : ∀ (x : UInt256), x ∉ txids H done → (∀ n, view₀.getCoin ⟨x, n⟩ = none) →
      ∀ e ∈ (indexedTx H X nHeight ((tx, coinsOf view tx), k)).2, e.prevout.hash ≠ x := by
    rintro x hx hvac e he rfl
    rcases ho.cases (hcoin e he) with hsome | hdone
    · have := hvac e.prevout.n
      rw [this] at hsome
      cases hsome
    · exact hx hdone
  have hspent : ∀ e ∈ (indexedTx H X nHeight ((tx, coinsOf view tx), k)).2,
      tx.isCoinBase = false ∧ e.prevout ∈ tx.vin.map CTxIn.prevout := by
    intro e he
    obtain ⟨hcb, ⟨i, hi, hprev⟩, -⟩ := mem_inputs he
    exact ⟨hcb, hprev ▸ List.mem_map_of_mem hi⟩
  refine ⟨forall_mem_cons.2 ⟨hnew, hids⟩, forall_mem_cons.2 ⟨fun e he t ht hcb hprev => ?_, ?_⟩,
    pairwise_cons.2 ⟨fun b hb e he => ⟨hne _ (hids b hb) (hfreshes b hb) e he, ?_⟩, h.apart⟩,
    forall_mem_cons.2 ⟨⟨hne _ hnew hfresh, pairwise_inputs hnd⟩, h.own⟩,
    forall_mem_cons.2 ⟨fun e he => (ho.origin _ _ (hcoin e he)).imp_right .inl, ?_⟩,
    forall_mem_cons.2 ⟨rfl, h.hashes⟩, forall_mem_cons.2 ⟨fun e he =>
      ⟨(mem_inputs he).2.2.2, isSpent_of_getCoin (hcoin e he)⟩, h.coins⟩⟩
  · have hnone := (ho.gone t ht hcb _ hprev).1
    rw [hcoin e he] at hnone
    cases hnone
  · exact fun a ha e he t ht => h.prevouts a ha e he t (mem_append_left _ ht)
  · intro e' he' heq
    obtain ⟨hcb, hprev⟩ := hspent e he
    exact h.prevouts b hb e' he' tx (by simp) hcb (heq ▸ hprev)
  · intro a ha e he
    rcases h.source a ha e he with hold | ⟨t, ht, hcr⟩ | ⟨b, hb, hcr⟩
    · exact .inl hold
    · rcases mem_append.1 ht with ht | ht
      · exact .inr (.inl ⟨t, ht, hcr⟩)
      · obtain rfl := mem_singleton.1 ht
        exact .inr (.inr ⟨_, mem_cons_self, hcr⟩)
    · exact .inr (.inr ⟨b, mem_cons_of_mem _ hb, hcr⟩)

theorem hash_mem_indexedBlock {a : IndexedTx × List InputEntry}
    (ha : a ∈ indexedBlock H X nHeight view vtx k) : ∃ tx ∈ vtx, a.1.hash = tx.getHash H := by
  obtain ⟨q, hq, rfl⟩ := List.mem_map.1 ha
  exact ⟨q.1.1, (of_mem_zip (fst_mem_of_mem_zipIdx hq)).1, rfl⟩

variable {N : Node} {C : BlockContext} {s s' : ConnectState}

/-- **The turns of a block are in order**, and only the first may be a coinbase. -/
theorem BlockContext.Turns.ordered (h : Turns H N C k vtx s s') (hr : Ready H s.view vtx)
    (hpos : 0 < C.nHeight) (hlt : C.nHeight < 2 ^ 30) (ho : Origins H C.nHeight view₀ done s.view)
    (hids : DistinctIds H (done ++ vtx))
    (hfresh : ∀ tx ∈ vtx, ∀ n, view₀.getCoin ⟨tx.getHash H, n⟩ = none)
    (hfirst : done = [] ∨ ∀ tx ∈ vtx, tx.isCoinBase = false)
    (hcb : ∀ tx ∈ vtx.tail, tx.isCoinBase = false) (hch : ∀ tx ∈ vtx, Checked tx) :
    Ordered H X C.nHeight view₀ done (indexedBlock H X C.nHeight s.view vtx k) := by
  induction h generalizing done with
  | nil => constructor <;> simp [indexedBlock]
  | @cons k tx vtx s t s' head tail ih =>
    obtain ⟨hup, hr'⟩ := head.updated hr hpos hlt
    obtain ⟨hcht, hch⟩ := forall_mem_cons.1 hch
    obtain ⟨hfresht, hfresh⟩ := forall_mem_cons.1 hfresh
    have hhave : tx.isCoinBase = false → ∀ i ∈ tx.vin, s.view.haveCoin i.prevout = true := fun hn =>
      (head.fee hn).elim fun _ hpays => hpays.1.have_inputs
    have hnew : tx.getHash H ∉ txids H done := by
      rcases hfirst with rfl | hall
      · simp [txids]
      · have hcbt := hall tx mem_cons_self
        exact spender_new (fun t ht hcb o hprev => (ho.gone t ht hcb o hprev).1)
          (hids.mono fun t ht => by rcases mem_cons.1 ht with rfl | ht <;> simp [*]) hcbt
          hcht.vin_ne_nil (hhave hcbt)
    rw [← singleton_append, ← List.append_assoc] at hids
    have htail := ih hr' (ho.connect hup hnew hfresht hhave) hids hfresh (.inr hcb)
      (fun t ht => hcb t (mem_of_mem_tail ht)) hch
    rw [indexedBlock_cons, ← head.view_eq]
    refine htail.cons ho hnew hfresht hhave hcht.nodup fun a ha n => ?_
    obtain ⟨t, ht, heq⟩ := hash_mem_indexedBlock ha
    exact heq ▸ hfresh t ht n

/-- **The transactions of a block that was connected are in order.** -/
theorem Accepted.ordered {lim : BlockLimits} {block : CBlock} {pindex p : CBlockIndex}
    {aal : AalState} {c : Connected}
    (h : Accepted H N lim block pindex p view aal false c s) (hshape : Shape block)
    (hpos : 0 < pindex.nHeight) (hlt : pindex.nHeight < 2 ^ 30) (hr : Ready H view block.vtx)
    (hids : DistinctIds H block.vtx)
    (hfresh : ∀ tx ∈ block.vtx, ∀ n, view.getCoin ⟨tx.getHash H, n⟩ = none) :
    Ordered H X pindex.nHeight view [] (indexedBlock H X pindex.nHeight view block.vtx 0) := by
  obtain ⟨⟨coinbase, rest, hfirst, -⟩, hchecked⟩ := hshape
  obtain ⟨hturns, -, -, -, -⟩ := h
  refine hturns.ordered hr hpos hlt Origins.start hids hfresh (.inl rfl) ?_ hchecked
  rw [hfirst.vtx_eq]
  exact hfirst.others

end Ordered

/-! ## The indexes after both -/

section Batches

variable {nHeight : ℕ} {view : CCoinsViewCache} {entries : List (IndexedTx × List InputEntry)}
variable {db : AddressDB}

variable {k : CAddressIndexKey}

/-- The keys of the address index that are cleared when a block is disconnected. -/
theorem mem_undo_addressIndex :
    k ∈ (gather (undoVectors X) entries.reverse).addressIndex.map Prod.fst ↔ ∃ a ∈ entries,
      (∃ e ∈ a.1.outputs X, k = a.1.indexKey e.address e.k false) ∨
        ∃ e ∈ a.2, k = a.1.indexKey e.address e.j true := by
  simp [undoVectors, map_flatMap]

/-- They are those that were written when it was connected. -/
theorem mem_undo_addressIndex_of_connect
    (hk : k ∈ (gather (connectVectors X) entries).addressIndex.map Prod.fst) :
    k ∈ (gather (undoVectors X) entries.reverse).addressIndex.map Prod.fst := by
  simp [connectVectors, undoVectors, map_flatMap] at hk ⊢
  obtain ⟨t, inputs, ha, hk⟩ := hk
  exact ⟨t, inputs, ha, hk.symm⟩

/-- The database after a block was connected and disconnected. -/
def AddressDB.cycled (db : AddressDB) (X : Extractor)
    (entries : List (IndexedTx × List InputEntry)) : AddressDB :=
  (db.writeConnected (gather (connectVectors X) entries)).writeDisconnected
    (gather (undoVectors X) entries.reverse)

/-- **The address index is as before** if it held no entry of the block. -/
theorem cycled_addressIndex_iff : (db.cycled X entries).addressIndex = db.addressIndex ↔
    ∀ a ∈ entries,
      (∀ e ∈ a.1.outputs X, db.addressIndex (a.1.indexKey e.address e.k false) = none) ∧
        ∀ e ∈ a.2, db.addressIndex (a.1.indexKey e.address e.j true) = none := by
  refine (applyBatch_restores_iff ?_ ?_).trans ⟨fun h => ?_, fun h p hp => ?_⟩
  · exact pairwise_map.2 (pairwise_of_forall fun _ _ _ => rfl)
  · intro k hk
    rw [List.map_map] at hk ⊢
    exact mem_undo_addressIndex_of_connect hk
  · have hnone : ∀ k ∈ (gather (undoVectors X) entries.reverse).addressIndex.map Prod.fst,
        db.addressIndex k = none := by
      intro k hk
      obtain ⟨p, hp, rfl⟩ := List.mem_map.1 hk
      exact h (p.1, none) ⟨List.mem_map.2 ⟨p, hp, rfl⟩, .inl rfl⟩
    exact fun a ha => ⟨fun e he => hnone _ (mem_undo_addressIndex.2 ⟨a, ha, .inl ⟨e, he, rfl⟩⟩),
      fun e he => hnone _ (mem_undo_addressIndex.2 ⟨a, ha, .inr ⟨e, he, rfl⟩⟩)⟩
  · obtain ⟨q, hq, rfl⟩ := List.mem_map.1 hp.1
    obtain ⟨a, ha, ⟨e, he, hk⟩ | ⟨e, he, hk⟩⟩ := mem_undo_addressIndex.1 (List.mem_map_of_mem hq)
    · exact hk ▸ (h a ha).1 e he
    · exact hk ▸ (h a ha).2 e he

/-- The writes to the unspent index when a transaction is disconnected. -/
theorem mem_undoUnspent {a : IndexedTx × List InputEntry}
    {p : CAddressUnspentKey × CAddressUnspentValue} :
    p ∈ (undoVectors X a).addressUnspentIndex ↔
      (∃ e ∈ a.1.outputs X, p = (a.1.outputKey e, .null)) ∨
        ∃ e ∈ a.2, p = (e.unspentKey, e.restoredValue a.1) := by
  simp [undoVectors]

/-- Those of a block. -/
theorem mem_undoUnspent_written {p : CAddressUnspentKey × Option CAddressUnspentValue} :
    p ∈ (gather (undoVectors X) entries.reverse).addressUnspentIndex.map
        (fun q => (q.1, q.2.written)) ↔
      ∃ a ∈ entries, (∃ e ∈ a.1.outputs X, p = (a.1.outputKey e, none)) ∨
        ∃ e ∈ a.2, p = (e.unspentKey, (e.restoredValue a.1).written) := by
  simp [undoVectors, map_flatMap]
  rfl

variable {e : InputEntry}

/-- The key of an input is that of its outpoint. -/
theorem InputEntry.unspentKey_inj {e' : InputEntry} (h : e.unspentKey = e'.unspentKey) :
    e.prevout = e'.prevout := by
  obtain ⟨-, hhash, hn⟩ := CAddressUnspentKey.mk.inj h
  exact congrArg₂ COutPoint.mk hhash hn

theorem InputEntry.hash_eq_of_outputKey {t : IndexedTx} {e' : OutputEntry}
    (h : t.outputKey e' = e.unspentKey) : e.prevout.hash = t.hash :=
  (CAddressUnspentKey.mk.inj h).2.1.symm

/-- **Later writes to the unspent index erase**: a coin is restored once, and
not after an output of its transaction was taken out. -/
theorem Ordered.conclusive (h : Ordered H X nHeight view [] entries) :
    Conclusive ((gather (undoVectors X) entries.reverse).addressUnspentIndex.map
      fun q => (q.1, q.2.written)) := by
  rw [Conclusive, pairwise_map, addressUnspentIndex_gather, pairwise_flatMap]
  constructor
  · intro a ha
    obtain ⟨hown, hapart⟩ := h.own a (mem_reverse.1 ha)
    simp only [undoVectors, append_addressUnspentIndex, addressUnspentIndex_gather,
      undoReceiving_addressUnspentIndex, undoSpending_addressUnspentIndex, ← map_eq_flatMap]
    refine pairwise_append.2 ⟨?_, ?_, ?_⟩
    · exact pairwise_map.2 (pairwise_of_forall fun _ _ _ => rfl)
    · exact pairwise_map.2 ((pairwise_reverse.2 hapart).imp
        fun hne heq => absurd (unspentKey_inj heq).symm hne)
    · intro p hp q hq heq
      obtain ⟨e, -, rfl⟩ := List.mem_map.1 hp
      obtain ⟨e', he', rfl⟩ := List.mem_map.1 hq
      exact absurd (hash_eq_of_outputKey heq) (hown e' (mem_reverse.1 he'))
  · refine pairwise_reverse.2 (h.apart.imp fun {a b} hab p hp q hq heq => ?_)
    rcases mem_undoUnspent.1 hq with ⟨e, he, rfl⟩ | ⟨e, he, rfl⟩
    · rfl
    obtain ⟨hhash, hprev⟩ := hab e he
    rcases mem_undoUnspent.1 hp with ⟨e', he', rfl⟩ | ⟨e', he', rfl⟩
    · exact absurd (hash_eq_of_outputKey heq) hhash
    · exact absurd (unspentKey_inj heq) (hprev e' he')

/-- The writes to the unspent index when a block is connected are of the same
keys. -/
theorem mem_undoUnspent_of_connect {k : CAddressUnspentKey}
    (hk : k ∈ (gather (connectVectors X) entries).addressUnspentIndex.map Prod.fst) :
    k ∈ (gather (undoVectors X) entries.reverse).addressUnspentIndex.map Prod.fst := by
  simp [connectVectors, undoVectors, map_flatMap] at hk ⊢
  obtain ⟨t, inputs, ha, hk⟩ := hk
  exact ⟨t, inputs, ha, hk.symm⟩

/-- An output that a transaction of the block created is one of its outputs
with an address, under the key of the input that spends it. -/
theorem exists_output_of_created {t : IndexedTx} (hhash : t.hash = t.tx.getHash H)
    (hcr : created H t.tx nHeight e.prevout = some e.coin)
    (haddr : X.address e.prevout e.coin.out.scriptPubKey = some e.address) :
    ∃ e' ∈ t.outputs X, t.outputKey e' = e.unspentKey := by
  obtain ⟨hh, out, hmem, -, hcoin⟩ := created_eq_some.1 hcr
  rw [hcoin] at haddr
  have hprev : (⟨t.hash, e.prevout.n⟩ : COutPoint) = e.prevout := by
    rw [hhash, ← hh]
  refine ⟨⟨e.prevout.n, out, e.address⟩, mem_filterMap.2 ⟨_, hmem, ?_⟩, ?_⟩
  · rw [hprev, show X.address e.prevout out.scriptPubKey = some e.address from haddr]
    rfl
  · rw [IndexedTx.outputKey, InputEntry.unspentKey, hhash, ← hh]

/-- **The unspent index is as before** if it held no output of the block, and
every coin spent that was there before with the flag of its spender. -/
theorem Ordered.cycled_addressUnspentIndex_iff (h : Ordered H X nHeight view [] entries)
    (hfresh : ∀ a ∈ entries, ∀ n, view.getCoin ⟨a.1.hash, n⟩ = none) :
    (db.cycled X entries).addressUnspentIndex = db.addressUnspentIndex ↔
      ∀ a ∈ entries,
        (∀ e ∈ a.1.outputs X, db.addressUnspentIndex (a.1.outputKey e) = none) ∧
          ∀ e ∈ a.2, view.haveCoin e.prevout = true →
            db.addressUnspentIndex e.unspentKey = some (e.restoredValue a.1) := by
  have hwritten : ∀ a ∈ entries, ∀ e ∈ a.2,
      (e.restoredValue a.1).written = some (e.restoredValue a.1) := by
    intro a ha e he
    have hspent : (e.coin.out.nValue == -1) = false := (h.coins a ha e he).2
    rw [CAddressUnspentValue.written, CAddressUnspentValue.isNull, InputEntry.restoredValue, hspent]
    rfl
  refine (applyBatch_restores_iff h.conclusive ?_).trans ⟨fun hm a ha => ⟨fun e he => ?_, ?_⟩, ?_⟩
  · intro k hk
    rw [List.map_map] at hk ⊢
    exact mem_undoUnspent_of_connect hk
  · exact hm (a.1.outputKey e, none) ⟨mem_undoUnspent_written.2 ⟨a, ha, .inl ⟨e, he, rfl⟩⟩, .inl rfl⟩
  · -- a coin that was there is no output of the block, so its restoration lasts
    intro e he hhave
    refine hm (e.unspentKey, some (e.restoredValue a.1))
      ⟨mem_undoUnspent_written.2 ⟨a, ha, .inr ⟨e, he, ?_⟩⟩, .inr fun hnone => ?_⟩
    · rw [hwritten a ha e he]
    obtain ⟨b, hb, ⟨e', he', heq⟩ | ⟨e', he', heq⟩⟩ := mem_undoUnspent_written.1 hnone
    · have hhash := hash_eq_of_outputKey (Prod.mk.inj heq).1.symm
      have hvac := hfresh b hb e.prevout.n
      rw [← hhash] at hvac
      rw [haveCoin_eq, hvac] at hhave
      cases hhave
    · rw [hwritten b hb e' he'] at heq
      cases (Prod.mk.inj heq).2
  · rintro hm ⟨k, x⟩ ⟨hp, hlast⟩
    obtain ⟨a, ha, ⟨e, he, heq⟩ | ⟨e, he, heq⟩⟩ := mem_undoUnspent_written.1 hp
    · obtain ⟨⟩ := heq
      exact (hm a ha).1 e he
    rw [hwritten a ha e he] at heq
    obtain ⟨⟩ := heq
    refine (hm a ha).2 e he ?_
    rcases h.source a ha e he with hold | ⟨t, ht, -⟩ | ⟨b, hb, hcr⟩
    · rw [haveCoin_eq, hold]
      rfl
    · exact absurd ht not_mem_nil
    -- created in the block: the entry is erased again
    obtain ⟨e', he', hkey⟩ := exists_output_of_created (h.hashes b hb) hcr (h.coins a ha e he).1
    rcases hlast with hnone | hnot
    · cases hnone
    · exact absurd (mem_undoUnspent_written.2 ⟨b, hb, .inl ⟨e', he', by rw [hkey]⟩⟩) hnot

/-- The writes to the spent index. -/
theorem mem_spentIndex {p : CSpentIndexKey × Option CSpentIndexValue} :
    p ∈ (gather (connectVectors X) entries).spentIndex.map (fun q => (q.1, q.2.written)) ↔
      ∃ a ∈ entries, ∃ e ∈ a.2, p = (e.spentKey, (e.spentValue a.1).written) := by
  simp [connectVectors, map_flatMap]

theorem InputEntry.spentKey_inj {e' : InputEntry} (h : e.spentKey = e'.spentKey) :
    e.prevout = e'.prevout := by
  obtain ⟨hhash, hn⟩ := CSpentIndexKey.mk.inj h
  exact congrArg₂ COutPoint.mk hhash hn

/-- No outpoint is written to the spent index twice. -/
theorem Ordered.spentIndex_apart (h : Ordered H X nHeight view [] entries) :
    ((gather (connectVectors X) entries).spentIndex.map fun q => (q.1, q.2.written)).Pairwise
      fun p q => p.1 ≠ q.1 := by
  rw [pairwise_map, spentIndex_gather]
  have hvec : ∀ a : IndexedTx × List InputEntry, (connectVectors X a).spentIndex =
      a.2.map fun e => (e.spentKey, e.spentValue a.1) := by
    intro a
    simp [connectVectors, map_eq_flatMap]
  refine pairwise_flatMap.2 ⟨fun a ha => ?_, h.apart.imp fun {a b} hab p hp q hq heq => ?_⟩
  · rw [hvec, pairwise_map]
    exact (h.own a ha).2.imp fun {e e'} hne heq => hne (spentKey_inj heq)
  rw [hvec] at hp hq
  obtain ⟨e, he, rfl⟩ := List.mem_map.1 hp
  obtain ⟨e', he', rfl⟩ := List.mem_map.1 hq
  exact (hab e he).2 e' he' (spentKey_inj heq).symm

/-- **The spent index is as before** if it held the entries of the block. -/
theorem Ordered.cycled_spentIndex_iff (h : Ordered H X nHeight view [] entries) :
    (db.cycled X entries).spentIndex = db.spentIndex ↔
      ∀ a ∈ entries, ∀ e ∈ a.2, db.spentIndex e.spentKey = (e.spentValue a.1).written := by
  change applyBatch (applyBatch db.spentIndex []) _ = _ ↔ _
  refine (applyBatch_restores_iff (h.spentIndex_apart.imp fun hne heq => absurd heq hne)
    (by simp)).trans ⟨fun hm a ha e he => ?_, ?_⟩
  · have hp := (mem_spentIndex (X := X)).2 ⟨a, ha, e, he, rfl⟩
    refine hm _ ⟨hp, or_iff_not_imp_right.2 fun hnone => ?_⟩
    -- the key is written once
    have hnd := pairwise_map.2 h.spentIndex_apart
    have heq := inj_on_of_nodup_map hnd hp (not_not.1 hnone) rfl
    exact (Prod.mk.inj heq).2
  · rintro hm p ⟨hp, -⟩
    obtain ⟨a, ha, e, he, rfl⟩ := mem_spentIndex.1 hp
    exact hm a ha e he

end Batches

/-! ## A block, connected and disconnected -/

/-- What the indexes must have held before a block. -/
structure Matches (X : Extractor) (view : CCoinsViewCache) (db : AddressDB)
    (entries : List (IndexedTx × List InputEntry)) : Prop where
  /-- The outputs of the block were in neither index. -/
  outputs : ∀ a ∈ entries, ∀ e ∈ a.1.outputs X,
    db.addressIndex (a.1.indexKey e.address e.k false) = none ∧
      db.addressUnspentIndex (a.1.outputKey e) = none
  /-- The inputs were not in the address index; the coins that were there were
  in the unspent index with the flag of the transaction that spends them; and
  the spent index already had the entries. -/
  inputs : ∀ a ∈ entries, ∀ e ∈ a.2,
    db.addressIndex (a.1.indexKey e.address e.j true) = none ∧
      (view.haveCoin e.prevout = true →
        db.addressUnspentIndex e.unspentKey = some (e.restoredValue a.1)) ∧
      db.spentIndex e.spentKey = (e.spentValue a.1).written

/-- **The three indexes are as before** exactly if they match. -/
theorem Ordered.cycled_iff {nHeight : ℕ}
    {entries : List (IndexedTx × List InputEntry)} (h : Ordered H X nHeight view [] entries)
    (hfresh : ∀ a ∈ entries, ∀ n, view.getCoin ⟨a.1.hash, n⟩ = none) :
    db.cycled X entries = db ↔ Matches X view db entries := by
  rw [AddressDB.ext_iff, cycled_addressIndex_iff, h.cycled_addressUnspentIndex_iff hfresh,
    h.cycled_spentIndex_iff]
  constructor
  · rintro ⟨ha, hu, hs⟩
    exact ⟨fun a hm e he => ⟨(ha a hm).1 e he, (hu a hm).1 e he⟩,
      fun a hm e he => ⟨(ha a hm).2 e he, (hu a hm).2 e he, hs a hm e he⟩⟩
  · rintro ⟨ho, hi⟩
    exact ⟨fun a hm => ⟨fun e he => (ho a hm e he).1, fun e he => (hi a hm e he).1⟩,
      fun a hm => ⟨fun e he => (ho a hm e he).2, fun e he => (hi a hm e he).2.1⟩,
      fun a hm e he => (hi a hm e he).2.2⟩

variable {N M : Node} {lim : BlockLimits} {block : CBlock} {pindex p : CBlockIndex}
variable {view : CCoinsViewCache} {aal : AalState} {c : Connected} {d : Disconnected}
variable {db db₁ db₂ : AddressDB}

/-- **When the address indexes are undone.** A block above the genesis block,
connected on a view whose coins are regular and in which no txid of the block
has an unspent output, and disconnected again with the record just written,
leaves the three indexes as they were exactly if these held before what
disconnecting makes of them. -/
theorem address_indexes_undone_iff (hv : block.Vouched H)
    (hne : block.getHash H ≠ N.consensus.hashGenesisBlock)
    (hpos : 0 < pindex.nHeight) (hlt : pindex.nHeight < 2 ^ 30) (hcoh : view.Coherent)
    (hreg : ∀ o coin, view.getCoin o = some coin → coin.Regular)
    (hids : DistinctIds H block.vtx)
    (hfresh : ∀ tx ∈ block.vtx, ∀ n, view.getCoin ⟨tx.getHash H, n⟩ = none)
    (hconn : connectBlockIndexed H X N lim block pindex p view aal db = .ok (c, db₁))
    (hdisc : disconnectBlockIndexed H X M block pindex p (some (writeUndo c.vtxundo)) c.view c.aal
      db₁ = .ok (d, db₂)) :
    db₂ = db ↔ Matches X view db (indexedBlock H X pindex.nHeight view block.vtx 0) := by
  simp only [connectBlockIndexed, bind_eq_ok, pure_eq_ok, Prod.mk.injEq] at hconn
  obtain ⟨c', hc, rfl, rfl⟩ := hconn
  obtain ⟨hshape, -, -, hgen | ⟨q, s, hq, hacc⟩⟩ := connectBlock_eq_ok hv hc
  · exact absurd hgen hne
  obtain ⟨-, -, hundo⟩ := hacc.connected rfl
  have hr : Ready H view block.vtx :=
    ⟨hcoh, hreg, fun tx htx n => shielded_of_getCoin (hfresh tx htx n)⟩
  have hordered := hacc.ordered (X := X) hshape hpos hlt hr hids hfresh
  obtain ⟨-, hspent, hregular, -⟩ := hacc.undone hshape hpos hlt hr hfresh
  -- the record was read, so it was not too long
  have hread : readUndo (writeUndo c'.vtxundo) = some s.vtxundo := by
    have hrw := readUndo_writeUndo hregular
    rw [← hundo] at hrw
    split at hrw
    · exact hundo ▸ hrw
    · simp [disconnectBlockIndexed, hrw, orThrow, bind_eq_ok] at hdisc
  rw [disconnectBlockIndexed_eq hread hregular] at hdisc
  -- the writes of the disconnection, in terms of the block
  have hwrites : gather (fun q => undoVectors X
        (indexedTx H X pindex.nHeight ((q.1.1, q.1.2.getD []), q.2)))
      (block.vtx.zip (none :: s.vtxundo.map some)).zipIdx.reverse =
      gather (undoVectors X) (indexedBlock H X pindex.nHeight view block.vtx 0).reverse := by
    have hzip : block.vtx.zip (spentCoins H pindex.nHeight view block.vtx) =
        (block.vtx.zip (none :: s.vtxundo.map some)).map (Prod.map id (getD · [])) := by
      rw [hspent, ← zip_map_right, map_cons, List.map_map]
      exact congrArg (fun l => block.vtx.zip ([] :: l)) (List.map_id _).symm
    rw [indexedBlock, hzip, zipIdx_map, List.map_map, ← map_reverse, gather_map]
    rfl
  rw [hwrites] at hdisc
  cases hrun : disconnectBlock H M block pindex p (some (writeUndo c'.vtxundo)) c'.view c'.aal with
  | error e => rw [hrun] at hdisc; cases hdisc
  | ok d' =>
    rw [hrun] at hdisc
    rw [← (Prod.mk.inj (Except.ok.inj hdisc)).2]
    refine hordered.cycled_iff fun a ha n => ?_
    obtain ⟨tx, htx, hhash⟩ := hash_mem_indexedBlock ha
    exact hhash ▸ hfresh tx htx n

/-! ## A block that spends an output with an address -/

/-- The one script with an address. -/
def sampleExtractor : Extractor := fun _ script =>
  if script = [0x51] then some (.keyID ⟨List.replicate 20 1, by simp⟩) else none

def sampleAddress : IndexAddress := ⟨1, List.replicate 20 1 ++ List.replicate 12 0⟩

/-- A coin of it, made by a coinstake or not. -/
def addressCoin (fCoinStake : Bool) : Coin := ⟨⟨20000, [0x51]⟩, false, fCoinStake, 1⟩

/-- A view that holds it. -/
def addressView (fCoinStake : Bool) : CCoinsViewCache := coinView (addressCoin fCoinStake) rfl

/-- The indexes in step with the view. -/
def coinIndexes (fCoinStake : Bool) (spent : Option CSpentIndexValue) : AddressDB where
  addressIndex _ := none
  addressUnspentIndex key :=
    if key = ⟨sampleAddress, 100, 0⟩ then some ⟨20000, [0x51], 1, fCoinStake⟩ else none
  spentIndex key := if key = ⟨100, 0⟩ then spent else none

abbrev spendingHashes : Hashes := singlingHashes spendingBlock.toCBlockHeader

/-- The spending block connected at a height, on the view that holds the coin. -/
def connectSample (nHeight : ℕ) (fCoinStake : Bool) (db : AddressDB) :
    Except Failure (Connected × AddressDB) :=
  connectBlockIndexed spendingHashes sampleExtractor sampleNode sampleLimits spendingBlock
    (sampleIndex nHeight) sampleParent (addressView fCoinStake) idleWorld db

/-- And disconnected again. -/
def disconnectSample (nHeight : ℕ) (r : Connected × AddressDB) :
    Except Failure (Disconnected × AddressDB) :=
  disconnectBlockIndexed spendingHashes sampleExtractor sampleNode spendingBlock
    (sampleIndex nHeight) sampleParent (some (writeUndo r.1.vtxundo)) r.1.view r.1.aal r.2

/-- The two entries of the coin after both. -/
def cycleSample (nHeight : ℕ) (fCoinStake : Bool) (db : AddressDB) :
    Option (Option CAddressUnspentValue × Option CSpentIndexValue) :=
  (connectSample nHeight fCoinStake db).toOption.bind fun r =>
    (disconnectSample nHeight r).toOption.map fun r' =>
      (r'.2.addressUnspentIndex ⟨sampleAddress, 100, 0⟩, r'.2.spentIndex ⟨100, 0⟩)

theorem addressCoin_regular (fCoinStake : Bool) : (addressCoin fCoinStake).Regular := by
  cases fCoinStake <;> exact ⟨by decide, by decide, by decide⟩

theorem spendingBlock_distinctIds : DistinctIds spendingHashes spendingBlock.vtx := by
  unfold DistinctIds
  decide

/-- The claim that blocks leave of the indexes what `P` says. -/
def IndexesUndone (P : AddressDB → AddressDB → Prop) : Prop :=
  ∀ (H : Hashes) (X : Extractor) (N : Node) (lim : BlockLimits) (block : CBlock)
    (pindex p : CBlockIndex) (view : CCoinsViewCache) (aal : AalState) (db : AddressDB)
    (r : Connected × AddressDB) (r' : Disconnected × AddressDB),
    block.Vouched H → block.getHash H ≠ N.consensus.hashGenesisBlock → 0 < pindex.nHeight →
    pindex.nHeight < 2 ^ 30 → view.Coherent →
    (∀ o coin, view.getCoin o = some coin → coin.Regular) → DistinctIds H block.vtx →
    (∀ tx ∈ block.vtx, ∀ n, view.getCoin ⟨tx.getHash H, n⟩ = none) →
    connectBlockIndexed H X N lim block pindex p view aal db = .ok r →
    disconnectBlockIndexed H X N block pindex p (some (writeUndo r.1.vtxundo)) r.1.view r.1.aal
      r.2 = .ok r' → P db r'.2

/-- Were the indexes undone, the two entries of the coin would be. -/
theorem IndexesUndone.cycleSample {P : AddressDB → AddressDB → Prop} (h : IndexesUndone P)
    (nHeight : ℕ) (hpos : 0 < nHeight) (hlt : nHeight < 2 ^ 30) {fCoinStake : Bool}
    (hrun : (cycleSample nHeight fCoinStake db).isSome = true) :
    ∃ db₂, P db db₂ ∧ Slucore.cycleSample nHeight fCoinStake db =
      some (db₂.addressUnspentIndex ⟨sampleAddress, 100, 0⟩, db₂.spentIndex ⟨100, 0⟩) := by
  rw [Slucore.cycleSample] at hrun ⊢
  cases hconn : connectSample nHeight fCoinStake db with
  | error e => rw [hconn] at hrun; cases hrun
  | ok r =>
    rw [hconn] at hrun
    cases hdisc : disconnectSample nHeight r with
    | error e =>
      simp only [Except.toOption, bind_some, hdisc] at hrun
      cases hrun
    | ok r' =>
      refine ⟨r'.2, ?_, by simp [Except.toOption, hdisc]⟩
      exact h _ _ _ _ spendingBlock (sampleIndex nHeight) sampleParent (addressView fCoinStake)
        idleWorld db r r'
        (fun hn => by cases hn) (by decide) hpos hlt
        (coherent_ofBase _) (coinView_forall (addressCoin_regular _))
        spendingBlock_distinctIds (fun tx htx n => spendingBlock_txids htx n) hconn hdisc

/-- **Two indexes are not undone.** The entry of the spent index stays, and a
coin made by a coinstake and spent by another transaction comes back to the
unspent index as one that no coinstake made. -/
theorem address_indexes_kept :
    ¬ IndexesUndone (fun db db₂ => db₂.spentIndex = db.spentIndex) ∧
    ¬ IndexesUndone (fun db db₂ => db₂.addressUnspentIndex = db.addressUnspentIndex) := by
  refine ⟨fun h => ?_, fun h => ?_⟩
  · have hrun : cycleSample 10 false (coinIndexes false none) =
        some (some ⟨20000, [0x51], 1, false⟩,
          some ⟨3, 0, 10, 20000, 1, sampleAddress.hashBytes⟩) := by decide
    obtain ⟨db₂, hdb, heq⟩ := h.cycleSample 10 (by decide) (by decide) (by rw [hrun]; rfl)
    rw [hrun, hdb] at heq
    have hspent := (Prod.mk.inj (Option.some.inj heq)).2
    exact absurd hspent (by decide)
  · have hrun : cycleSample 600 true (coinIndexes true none) =
        some (some ⟨20000, [0x51], 1, false⟩,
          some ⟨3, 0, 600, 20000, 1, sampleAddress.hashBytes⟩) := by decide
    obtain ⟨db₂, hdb, heq⟩ := h.cycleSample 600 (by decide) (by decide) (by rw [hrun]; rfl)
    rw [hrun, hdb] at heq
    have hflag := (Prod.mk.inj (Option.some.inj heq)).1
    exact absurd hflag (by decide)

/-- The entry that the spending block leaves in the spent index. -/
def sampleSpent : CSpentIndexValue := ⟨3, 0, 10, 20000, 1, sampleAddress.hashBytes⟩

/-- Where the spent index already has the entry, as after a first time, all is
as before. -/
theorem address_indexes_undone_again : ∃ r r',
    connectSample 10 false (coinIndexes false (some sampleSpent)) = .ok r ∧
    disconnectSample 10 r = .ok r' ∧ r'.2 = coinIndexes false (some sampleSpent) := by
  obtain ⟨r, hr⟩ := exists_ok_of_isSome (x := connectSample 10 false
    (coinIndexes false (some sampleSpent))) (by decide)
  have hrun : ((connectSample 10 false (coinIndexes false (some sampleSpent))).toOption.bind
      fun r => (disconnectSample 10 r).toOption).isSome = true := by decide
  rw [hr] at hrun
  obtain ⟨r', hr'⟩ := exists_ok_of_isSome (x := disconnectSample 10 r) hrun
  have hcoh : (addressView false).Coherent := coherent_ofBase _
  refine ⟨r, r', hr, hr', (address_indexes_undone_iff (fun hn => by cases hn)
    (by decide) (by decide) (by decide) hcoh
    (coinView_forall (addressCoin_regular _)) spendingBlock_distinctIds
    (fun tx htx n => spendingBlock_txids htx n) hr hr').2 ⟨?_, ?_⟩⟩
  · decide +kernel
  · decide

end Slucore
