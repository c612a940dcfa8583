import Slucore.Effects.Receipts
/-!
# Effects — the store follows the active chain, and where it does not

A node with its databases: blocks are connected and disconnected, receipts
are queried, the chain state is flushed now and then, and the process may
end at any time. The databases of receipts and of the height index are
written at once, the chain state is not; a process that starts again finds
the chain of the last flush and the receipts of the chain it had. If these
are the same, the store holds the receipts and the log entries of the
active chain in every state (`receipts_follow_chain`).
-/


namespace Slucore

open List Function Layer FullNode Record

/-- A node with the records of its active chain, and what is on disk of the
chain state. -/
structure Daemon (H : Hashes) where
  node : FullNode
  /-- The records of the active chain, tip first. -/
  records : List (Record H)
  /-- The chain state of the last flush. -/
  saved : NodeState
  savedRecords : List (Record H)

/-- What can happen to the node. -/
inductive Event where
  | connectTip (N : Node) (hash : UInt256) (passed : Bool)
  | disconnectTip (N : Node)
  | getResult (hashTx : UInt256)
  /-- Headers and blocks arrive. -/
  | arrive (chain : ChainState) (pblock : Option CBlock)
  /-- `FlushStateToDisk` writes the chain state. -/
  | flush
  /-- The process ends, and starts again. -/
  | crash

namespace Daemon

variable {H : Hashes} (L : Logging) (d : Daemon H)

/-- The record of the block `ConnectTip` works on. -/
def recordToConnect (N : Node) (hash : UInt256) (passed : Bool) : Option (Record H) :=
  match d.node.blockToConnect H N hash passed, d.node.chain.mapBlockIndex hash with
  | some block, some pindex => some (Record.of N L d.node.lim block pindex (d.node.tipIndex H)
      (.ofBase d.node.coinsTip) d.node.shared)
  | _, _ => none

/-- The node after an event. -/
def step (d : Daemon H) : Event → Daemon H
  | .connectTip N hash passed =>
    match d.node.connectTip H L N hash passed with
    | (g, .ok ()) => { d with node := g
                              records := (d.recordToConnect L N hash passed).toList ++ d.records }
    | (g, .error _) => { d with node := g }
  | .disconnectTip N =>
    match d.node.disconnectTip H L N with
    | (g, .ok ()) => { d with node := g, records := d.records.tail }
    | (g, .error _) => { d with node := g }
  | .getResult hashTx =>
    { d with node := { d.node with results := (d.node.results.getResult hashTx).1 } }
  | .arrive chain pblock => { d with node := { d.node with chain, pblock } }
  | .flush => { d with saved := d.node.toNodeState, savedRecords := d.records }
  | .crash =>
    { d with
      node :=
        { d.saved with
          results := ⟨fun _ => none, d.node.results.db⟩
          heightIndex := d.node.heightIndex
          stakeIndex := d.node.stakeIndex
          addresses := d.node.addresses
          timestampIndex := d.node.timestampIndex
          timestampBlockIndex := d.node.timestampBlockIndex }
      records := d.savedRecords }

/-- The receipts of a chain. -/
def receiptsOn (records : List (Record H)) (txid : UInt256) :
    Option (List TransactionReceiptInfo) :=
  Layer.union (records.map Record.receiptsLayer) txid

/-- The log entries of a chain, by height and address. -/
def logsOn (records : List (Record H)) (nHeight : ℕ) (a : Address) : Option (List UInt256) :=
  Layer.union (records.map Record.logsLayer) (nHeight, a)

/-- Queries answer with the receipts of the active chain, and the height
index holds its log entries. -/
structure Follows : Prop where
  getResult : ∀ txid, (d.node.results.getResult txid).2 = (receiptsOn d.records txid).getD []
  heightIndex : ∀ nHeight a, d.node.heightIndex nHeight a = logsOn d.records nHeight a

/-! ## The events of a run -/

/-- Events as the node makes them. The height of an index is its place in
the chain, and a block read back under the hash of the tip has the
transactions of the tip, since the header commits to them. -/
def Enabled (d : Daemon H) : Event → Prop
  | .connectTip _ hash _ =>
    ∀ pindex, d.node.chain.mapBlockIndex hash = some pindex → pindex.nHeight = d.node.active.length
  | .disconnectTip N =>
    ∀ tip rest, d.node.active = tip :: rest →
      (∀ pindex, d.node.tipIndex H = some pindex → pindex.nHeight = rest.length) ∧
      ∀ block, d.node.readBlockFromDisk H N (tip.getHash H) = some block →
        (block.vtx.map fun tx => tx.getHash H) = tip.vtx.map fun tx => tx.getHash H
  | _ => True

/-- The coins do not match the tip's block and undo record. -/
def FindsUnclean (N : Node) (d : Daemon H) : Prop :=
  ∃ tip pindex block pprev u, d.node.active.head? = some tip ∧ d.node.tipIndex H = some pindex ∧
    d.node.readBlockFromDisk H N (tip.getHash H) = some block ∧
    d.node.chain.mapBlockIndex tip.hashPrevBlock = some pprev ∧
    disconnectBlock H N block pindex pprev (d.node.undo (tip.getHash H)) (.ofBase d.node.coinsTip)
      d.node.aal = .ok u ∧ u.fClean = false

/-- Where the store keeps following the chain. A connected block repeats no
transaction of the active chain, the tip to disconnect is found clean, and
a process ends when the chain on disk has the receipts and the log entries
of the active chain. -/
def Safe (d : Daemon H) : Event → Prop
  | .connectTip N hash passed =>
    ∀ r, d.recordToConnect L N hash passed = some r → ∀ r' ∈ d.records, List.Disjoint r.txids r'.txids
  | .disconnectTip N => ¬ d.FindsUnclean N
  | .crash =>
    receiptsOn d.savedRecords = receiptsOn d.records ∧ logsOn d.savedRecords = logsOn d.records
  | _ => True

/-! ## The invariant -/

/-- The record of each block has its place in the chain as its height. -/
def Placed : List (Record H) → Prop
  | [] => True
  | r :: rs => r.nHeight = rs.length ∧ Placed rs

/-- The records are those of a chain, which repeats no transaction. -/
structure Recorded (active : List CBlock) (records : List (Record H)) : Prop where
  blocks : records.map Record.block = active
  placed : Placed records
  apart : Layer.Apart (records.map Record.receiptsLayer)

/-- The databases are those of the active chain. -/
structure Consistent (d : Daemon H) : Prop where
  active : Recorded d.node.active d.records
  saved : Recorded d.saved.active d.savedRecords
  copies : d.node.results.Copies
  db : d.node.results.db = receiptsOn d.records
  heightIndex : d.node.heightIndex = logsOn d.records

variable {L} {d}

variable {rs : List (Record H)}

theorem Placed.nHeight_lt (h : Placed rs) : ∀ r ∈ rs, r.nHeight < rs.length := by
  induction rs with
  | nil => nofun
  | cons r rs ih =>
    intro r' hr'
    rcases mem_cons.1 hr' with rfl | hmem
    · rw [h.1]
      exact Nat.lt_succ_self _
    · exact Nat.lt_succ_of_lt (ih h.2 r' hmem)

variable {r : Record H}

/-- Records at places above are apart in the height index. -/
theorem logsLayer_disjoint (hr : r.nHeight = rs.length)
    (h : Placed rs) : ∀ m ∈ rs.map logsLayer, Disjoint r.logsLayer.keys m.keys := by
  intro m hm
  obtain ⟨r', hr', rfl⟩ := List.mem_map.1 hm
  refine Set.disjoint_left.2 fun k hk hk' => ?_
  have h₁ : k.1 = r.nHeight := hk
  have h₂ : k.1 = r'.nHeight := hk'
  have h₃ := h.nHeight_lt r' hr'
  omega

theorem receiptsLayer_disjoint (h : ∀ r' ∈ rs, List.Disjoint r.txids r'.txids) :
    ∀ m ∈ rs.map receiptsLayer, Disjoint r.receiptsLayer.keys m.keys := by
  intro m hm
  obtain ⟨r', hr', rfl⟩ := List.mem_map.1 hm
  exact Set.disjoint_left.2 fun txid hk hk' => h r' hr' hk hk'

/-- **A consistent store follows the chain.** -/
theorem Consistent.follows (h : d.Consistent) : d.Follows := by
  refine ⟨fun txid => ?_, fun nHeight a => by rw [h.heightIndex]⟩
  rw [StorageResults.getResult_eq, ← h.db]
  unfold StorageResults.lookup
  cases hc : d.node.results.cache txid with
  | none => rw [Option.none_or]
  | some rs => rw [h.copies txid rs hc, Option.some_or]

/-! ## One event -/

variable {g : FullNode}

/-- A node with the same stores and the same chain. -/
theorem Consistent.sameStores (h : d.Consistent) (hactive : g.active = d.node.active)
    (hdb : g.results.db = d.node.results.db) (hcopies : g.results.Copies)
    (hheight : g.heightIndex = d.node.heightIndex) : Consistent { d with node := g } where
  active := by
    rw [hactive]
    exact h.active
  saved := h.saved
  copies := hcopies
  db := hdb.trans h.db
  heightIndex := hheight.trans h.heightIndex

/-- A block comes on top. -/
theorem Consistent.push (h : d.Consistent) {block : CBlock}
    (hblock : r.block = block) (hplace : r.nHeight = d.node.active.length)
    (hfresh : ∀ r' ∈ d.records, List.Disjoint r.txids r'.txids)
    (hactive : g.active = block :: d.node.active)
    (hrecorded : d.node.shared.Recorded g.shared r) :
    Consistent { d with node := g, records := r :: d.records } where
  active := by
    have hlength : d.node.active.length = d.records.length := by
      rw [← h.active.blocks, length_map]
    refine ⟨?_, ⟨hplace.trans hlength, h.active.placed⟩, ?_⟩
    · rw [map_cons, hblock, h.active.blocks, hactive]
    · exact h.active.apart.cons (receiptsLayer_disjoint hfresh)
  saved := h.saved
  copies := hrecorded.copies
  db := by
    funext txid
    show g.results.db txid = Layer.union (r.receiptsLayer :: d.records.map receiptsLayer) txid
    rw [← insert_eq_union (receiptsLayer_disjoint hfresh)]
    refine (hrecorded.db txid).trans ?_
    show (d.node.results.db txid).or (r.receipts txid) = _
    rw [h.db]
    rfl
  heightIndex := by
    funext nHeight a
    show g.heightIndex nHeight a =
      Layer.union (r.logsLayer :: d.records.map logsLayer) (nHeight, a)
    rw [union_cons]
    refine (hrecorded.heightIndex nHeight a).trans ?_
    show (r.logsLayer.entry (nHeight, a)).or (d.node.heightIndex nHeight a) = _
    rw [h.heightIndex]
    rfl

theorem Consistent.connectTip (h : d.Consistent) {N : Node}
    {hash : UInt256} {passed : Bool} (he : d.Enabled (.connectTip N hash passed))
    (hs : d.Safe L (.connectTip N hash passed)) :
    (d.step L (.connectTip N hash passed)).Consistent := by
  simp only [step]
  cases hblock : d.node.blockToConnect H N hash passed with
  | none => simpa [FullNode.connectTip, hblock] using h
  | some block =>
    cases hindex : d.node.chain.mapBlockIndex hash with
    | none => simpa [FullNode.connectTip, hblock, hindex] using h
    | some pindex =>
      have hrecord : d.recordToConnect L N hash passed = some (of N L d.node.lim block pindex
          (d.node.tipIndex H) (.ofBase d.node.coinsTip) d.node.shared) := by
        simp [recordToConnect, hblock, hindex]
      by_cases htip : block.hashPrevBlock = d.node.tipHash H
      · simp only [FullNode.connectTip, hblock, hindex, if_pos htip, FullNode.connectTipWith]
        cases hconnect : connectBlockIn H N L d.node.lim block pindex (d.node.tipIndex H)
            (.ofBase d.node.coinsTip) false d.node.shared with
        | mk σ result =>
          cases result with
          | error f =>
            have hsame := connectBlockIn_error hconnect
            exact h.sameStores rfl hsame.db nofun hsame.heightIndex
          | ok c =>
            have hrecorded := connectBlockIn_recorded h.copies hconnect
            simp only [hrecord]
            exact h.push of_block (of_nHeight.trans (he pindex hindex))
              (hs _ hrecord) rfl hrecorded
      · simpa [FullNode.connectTip, hblock, hindex, if_neg htip] using h

/-- The tip goes. -/
theorem Consistent.pop (hL : L.fLogEvents = true) (h : d.Consistent) {tip : CBlock}
    {rest : List CBlock} {block : CBlock} {aal : AalState} {addresses : AddressDB}
    (hactive : d.node.active = tip :: rest)
    (htxids : (block.vtx.map fun tx => tx.getHash H) = tip.vtx.map fun tx => tx.getHash H)
    (hg : g.active = rest)
    (hσ : g.shared = d.node.shared.disconnected H L block rest.length false aal addresses) :
    Consistent { d with node := g, records := d.records.tail } := by
  obtain ⟨hblocks, hplaced, hapart⟩ := h.active
  rw [hactive] at hblocks
  cases hrecords : d.records with
  | nil =>
    rw [hrecords] at hblocks
    cases hblocks
  | cons r rs =>
    rw [hrecords, map_cons, List.cons.injEq] at hblocks
    rw [hrecords] at hplaced hapart
    obtain ⟨rfl, hrest⟩ := hblocks
    obtain ⟨hplace, hplaced⟩ := hplaced
    have hlength : rest.length = rs.length := by rw [← hrest, length_map]
    have hshared : g.shared = { d.node.shared with
        aal
        results := d.node.results.deleteResults (block.vtx.map fun tx => tx.getHash H)
        heightIndex := Function.update d.node.heightIndex rest.length fun _ => none
        addresses } := by
      rw [hσ]
      simp only [Shared.disconnected, hL]
      rfl
    have hresults : g.results =
        d.node.results.deleteResults (block.vtx.map fun tx => tx.getHash H) :=
      congrArg Shared.results hshared
    have hheight : g.heightIndex = Function.update d.node.heightIndex rest.length fun _ => none :=
      congrArg Shared.heightIndex hshared
    refine ⟨⟨by rw [tail_cons, hrest]; exact hg.symm, hplaced, hapart.tail⟩, h.saved, ?_, ?_, ?_⟩
    · intro txid receipts hcache
      simp only [hresults] at hcache ⊢
      simp only [StorageResults.deleteResults] at hcache ⊢
      by_cases hmem : txid ∈ block.vtx.map fun tx => tx.getHash H
      · rw [if_pos hmem] at hcache
        cases hcache
      · rw [if_neg hmem] at hcache ⊢
        exact h.copies txid receipts hcache
    · funext txid
      show g.results.db txid = Layer.union (rs.map receiptsLayer) txid
      have hkeys : txid ∈ r.receiptsLayer.keys ↔ txid ∈ block.vtx.map fun tx => tx.getHash H := by
        rw [htxids]
        exact Iff.rfl
      classical
      rw [← delete_eq_union (l := r.receiptsLayer) hapart.head, hresults]
      simp only [StorageResults.deleteResults, ← hkeys, h.db, hrecords]
      rfl
    · funext nHeight a
      show g.heightIndex nHeight a = Layer.union (rs.map logsLayer) (nHeight, a)
      have hkeys : (nHeight, a) ∈ r.logsLayer.keys ↔ nHeight = rest.length := by
        rw [hlength, ← hplace]
        exact Iff.rfl
      classical
      rw [← delete_eq_union (l := r.logsLayer) (logsLayer_disjoint hplace hplaced), hheight]
      simp only [hkeys]
      by_cases hn : nHeight = rest.length
      · rw [hn, update_self, if_pos rfl]
      · rw [update_of_ne hn, if_neg hn, h.heightIndex, hrecords]
        rfl

theorem Consistent.disconnectTip (hL : L.fLogEvents = true) (h : d.Consistent) {N : Node}
    (he : d.Enabled (.disconnectTip N)) (hs : d.Safe L (.disconnectTip N)) :
    (d.step L (.disconnectTip N)).Consistent := by
  simp only [step]
  cases hactive : d.node.active with
  | nil => simpa [FullNode.disconnectTip, hactive] using h
  | cons tip rest =>
    obtain ⟨hplace, htxids⟩ := he tip rest hactive
    cases hindex : d.node.tipIndex H with
    | none => simpa [FullNode.disconnectTip, hindex] using h
    | some pindex =>
      cases hread : d.node.readBlockFromDisk H N (tip.getHash H) with
      | none => simpa [FullNode.disconnectTip, hactive, hindex, hread] using h
      | some block =>
        cases hprev : d.node.chain.mapBlockIndex tip.hashPrevBlock with
        | none => simpa [FullNode.disconnectTip, hactive, hindex, hread, hprev] using h
        | some pprev =>
          simp only [FullNode.disconnectTip, hactive, hindex, hread, hprev, disconnectBlockIn]
          cases hdisconnect : disconnectBlock H N block pindex pprev
              (d.node.undo (tip.getHash H)) (.ofBase d.node.coinsTip) d.node.shared.aal with
          | error f => cases f <;> simpa using h
          | ok u =>
            have hclean : u.fClean = true := by
              by_contra hne
              exact hs ⟨tip, pindex, block, pprev, u, by rw [hactive]; rfl, hindex, hread, hprev,
                hdisconnect, Bool.not_eq_true _ ▸ hne⟩
            simp only [hclean]
            rw [hplace pindex hindex]
            exact h.pop hL hactive (htxids block hread) rfl rfl

theorem Consistent.getResult (h : d.Consistent) {hashTx : UInt256} :
    (d.step L (.getResult hashTx)).Consistent := by
  refine h.sameStores rfl ?_ ?_ rfl
  · simp only [StorageResults.getResult]
    split
    · rfl
    · split <;> rfl
  · intro txid rs hrs
    simp only [StorageResults.getResult] at hrs ⊢
    cases hcache : d.node.results.cache hashTx with
    | some result =>
      simp only [hcache] at hrs ⊢
      exact h.copies txid rs hrs
    | none =>
      cases hdb : d.node.results.db hashTx with
      | none =>
        simp only [hcache, hdb] at hrs ⊢
        exact h.copies txid rs hrs
      | some result =>
        simp only [hcache, hdb] at hrs ⊢
        by_cases htx : txid = hashTx
        · subst htx
          rw [update_self] at hrs
          exact hdb.trans hrs
        · rw [update_of_ne htx] at hrs
          exact h.copies txid rs hrs

/-- **One event keeps the databases consistent.** -/
theorem Consistent.step (hL : L.fLogEvents = true) (h : d.Consistent) {e : Event}
    (he : d.Enabled e) (hs : d.Safe L e) : (d.step L e).Consistent := by
  cases e with
  | connectTip N hash passed => exact h.connectTip he hs
  | disconnectTip N => exact h.disconnectTip hL he hs
  | getResult hashTx => exact h.getResult
  | arrive chain pblock => exact h.sameStores rfl rfl h.copies rfl
  | flush => exact ⟨h.active, h.active, h.copies, h.db, h.heightIndex⟩
  | crash => exact ⟨h.saved, h.saved, nofun, h.db.trans hs.1.symm, h.heightIndex.trans hs.2.symm⟩

/-- **Receipts and log entries follow the active chain**, with events
logged, in every state reached from one in which they do by events that
are `Safe`. -/
theorem receipts_follow_chain {d₀ : Daemon H} (hL : L.fLogEvents = true) (h₀ : d₀.Consistent)
    (h : Reaches (Daemon.step L) (fun d e => d.Enabled e ∧ d.Safe L e) d₀ d) : d.Follows :=
  (h.induct h₀ fun _ _ he hd => hd.step hL he.1 he.2).follows

/-! A block with a contract transaction, connected by a node that ends before
the next flush. -/

/-- A node with one block, which is on disk, about to connect the block with
the refused call. -/
def sampleDaemon : Daemon (FullNode.chainedHashes refusedCallBlock.toCBlockHeader) where
  node := { FullNode.sampleFullNode refusedCallBlock with
    chain :=
      { mapBlockIndex := fun hash => if hash = 7 then some { sampleParent with nHeight := 0 }
          else if hash = 1 then some (sampleIndex 1) else none
        stored := fun _ => none } }
  records := [Record.bare _ (sampleBlock .null []) 0]
  saved := (FullNode.sampleFullNode refusedCallBlock).toNodeState
  savedRecords := [Record.bare _ (sampleBlock .null []) 0]

theorem sampleDaemon_consistent : sampleDaemon.Consistent := by
  have hone : Recorded [sampleBlock .null []] [bare
      (chainedHashes refusedCallBlock.toCBlockHeader) (sampleBlock .null []) 0] :=
    ⟨rfl, ⟨rfl, trivial⟩, pairwise_singleton _ _⟩
  refine ⟨hone, hone, nofun, rfl, ?_⟩
  funext nHeight a
  simp [sampleDaemon, sampleFullNode, logsOn, union_cons, logsLayer, bare]

theorem sampleDaemon_enabled (passed : Bool) :
    sampleDaemon.Enabled (.connectTip sampleNode 1 passed) := by
  intro pindex h
  obtain rfl := Option.some.inj (show some (sampleIndex 1) = some pindex from h)
  rfl

/-- The events of the node that ends too early. -/
def endedEarly : Daemon (FullNode.chainedHashes refusedCallBlock.toCBlockHeader) :=
  (sampleDaemon.step FullNode.sampleLogging (.connectTip sampleNode 1 true)).step
    FullNode.sampleLogging .crash

/-- **A process that ends before a flush leaves receipts of blocks that are
not in its chain.** -/
theorem receipts_outlive_block : ¬ ∀ d, Reaches (Daemon.step FullNode.sampleLogging)
    (fun d e => d.Enabled e) sampleDaemon d → d.Follows := by
  intro hall
  have hreach : Reaches (Daemon.step sampleLogging) (fun d e => d.Enabled e) sampleDaemon
      endedEarly :=
    .event Event.crash (.event (Event.connectTip sampleNode 1 true) .start
      (sampleDaemon_enabled true)) trivial
  have hquery := (hall endedEarly hreach).getResult 8
  have hfound : (endedEarly.node.results.getResult 8).2.isEmpty = false := by decide
  rw [hquery] at hfound
  cases hfound

/-- The same events with a flush in between. -/
theorem receipts_follow_flushed_chain :
    ((((sampleDaemon.step FullNode.sampleLogging (.connectTip sampleNode 1 true)).step
      FullNode.sampleLogging .flush).step FullNode.sampleLogging .crash).node.results.getResult
        8).2.isEmpty = false ∧
    (((sampleDaemon.step FullNode.sampleLogging (.connectTip sampleNode 1 true)).step
      FullNode.sampleLogging .flush).step FullNode.sampleLogging .crash).Follows := by
  refine ⟨by decide, receipts_follow_chain (L := sampleLogging) rfl
    sampleDaemon_consistent ?_⟩
  refine .event Event.crash (.event Event.flush (.event (Event.connectTip sampleNode 1 true) .start
    ⟨sampleDaemon_enabled true, fun r _ r' hr' => ?_⟩) ⟨trivial, trivial⟩) ⟨trivial, rfl, rfl⟩
  obtain rfl : r' = bare _ (sampleBlock .null []) 0 := mem_singleton.1 hr'
  exact disjoint_nil_right _

end Daemon

end Slucore
