import Slucore.Coins.Database
import Slucore.Common.Overwrite
import Slucore.Validation.Undo
import Slucore.Validation.Unique
/-!
# Validation — replaying blocks after a crash

`ReplayBlocks` completes a change of tip that was being written when the
node stopped. It disconnects the blocks of the old branch down to the
fork, connects those of the new branch again, without any check, and
writes what comes out. Connecting a block overwrites the coins it touches
with values that do not depend on what was there, so it can be redone on
a mixture of the old and the new coins (`CoinSet.overwriting_connectTx`).

`DisconnectBlock` asserts that the block is the best one of its view, and
in the middle of a change the database has no best block. So no block can
be rolled back, and a change is completed only if it goes forward.
-/


namespace Slucore

open List CCoinsViewCache Function CoinSet CoinsDB

/-! ## The block index -/

/-- `pindex->nHeight`. A `CBlockIndex *` is the list of the entry it points
to and, by way of `pprev`, its ancestors; the null pointer is empty. -/
def ptrHeight : List CBlockIndex → ℕ
  | [] => 0
  | p :: _ => p.nHeight

/-- `CBlockIndex::GetAncestor`. -/
def getAncestor (height : ℕ) : List CBlockIndex → List CBlockIndex
  | [] => []
  | p :: below =>
    if p.nHeight < height then []
    else if p.nHeight = height then p :: below
    else getAncestor height below

/-- The loop of `LastCommonAncestor`. -/
def stepBack : List CBlockIndex → List CBlockIndex → List CBlockIndex × List CBlockIndex
  | a :: pa, b :: pb => if a :: pa = b :: pb then (a :: pa, b :: pb) else stepBack pa pb
  | pa, pb => (pa, pb)

/-- `LastCommonAncestor`. -/
def lastCommonAncestor (pa pb : List CBlockIndex) : Except Failure (List CBlockIndex) := do
  let pa' := if ptrHeight pb < ptrHeight pa then getAncestor (ptrHeight pb) pa else pa
  let pb' := if ptrHeight pa < ptrHeight pb then getAncestor (ptrHeight pa) pb else pb
  let (fork, fork') := stepBack pa' pb'
  require (fork == fork') (.fatal "assert(pa == pb)")
  return fork

/-- The block index and the block files that `ReplayBlocks` finds. -/
structure BlockStore where
  mapBlockIndex : UInt256 → Option (List CBlockIndex)
  readBlockFromDisk : CBlockIndex → Option CBlock
  undoReadFromDisk : CBlockIndex → Option (List (List TxInUndo))

/-! ## Rolling forward and back -/

namespace CCoinsViewCache

variable (H : Hashes) (view : CCoinsViewCache)

/-- `SpendCoin`, whatever it returns. -/
def spendAny (o : COutPoint) : CCoinsViewCache := ((view.spendCoin o).map Prod.snd).getD view

/-- One turn of the loop of `AddCoins` with `check` true. -/
def addOutputChecked (txid : UInt256) (nHeight : ℕ) (fCoinbase fCoinstake : Bool)
    (v : CCoinsViewCache) (p : CTxOut × ℕ) : Except Failure CCoinsViewCache :=
  v.addCoin ⟨txid, p.2⟩ (Coin.make p.1 nHeight fCoinbase fCoinstake) (v.haveCoin ⟨txid, p.2⟩)

/-- One turn of the loop of `RollforwardBlock`. -/
def rollforwardTx (nHeight : ℕ) (tx : CTransaction) : Except Failure CCoinsViewCache :=
  let v := if tx.isCoinBase then view else tx.vin.foldl (fun v i => v.spendAny i.prevout) view
  tx.vout.zipIdx.foldlM
    (addOutputChecked (tx.getHash H) nHeight tx.isCoinBase tx.isCoinStake) v

end CCoinsViewCache

variable (H : Hashes) (N : Node) (D : BlockStore)

/-- `RollforwardBlock`. -/
def rollforwardBlock (cache : CCoinsViewCache) (pindex : List CBlockIndex) :
    Except Failure CCoinsViewCache := do
  let p ← orThrow pindex.head? (.fatal "pindex")
  let block ← orThrow (D.readBlockFromDisk p) (.error "ReplayBlock(): ReadBlockFromDisk failed")
  block.vtx.foldlM (fun v tx => v.rollforwardTx H p.nHeight tx) cache

/-- The loop of `ReplayBlocks` along the old branch. The genesis block is
never disconnected. -/
def rollback (pindexFork : List CBlockIndex) :
    List CBlockIndex → CCoinsViewCache × AalState → Except Failure (CCoinsViewCache × AalState)
  | [], s => if pindexFork = [] then .ok s else .error (.fatal "pindexOld")
  | p :: below, s =>
    if p :: below = pindexFork then .ok s
    else if 0 < p.nHeight then do
      let block ← orThrow (D.readBlockFromDisk p)
        (.error "RollbackBlock(): ReadBlockFromDisk() failed")
      let pprev ← orThrow below.head? (.fatal "pindex->pprev")
      let d ← disconnectBlock H N block p pprev (D.undoReadFromDisk p) s.1 s.2
      rollback pindexFork below (d.view, d.aal)
    else rollback pindexFork below s

/-- The old tip and the fork; both null at the first flush of a database. -/
def findFork (old : UInt256) (pindexNew : List CBlockIndex) :
    Except Failure (List CBlockIndex × List CBlockIndex) :=
  if old = 0 then .ok ([], [])
  else do
    let pindexOld ← orThrow (D.mapBlockIndex old)
      (.error "ReplayBlocks(): reorganization from unknown block requested")
    let pindexFork ← lastCommonAncestor pindexOld pindexNew
    require (!pindexFork.isEmpty) (.fatal "assert(pindexFork != nullptr)")
    return (pindexOld, pindexFork)

/-- The cache that `ReplayBlocks` flushes, on the way from `old` to `new`. -/
def replayCache (view : CCoinsView) (aal : AalState) (new old : UInt256) :
    Except Failure (CCoinsViewCache × AalState) := do
  let pindexNew ← orThrow (D.mapBlockIndex new)
    (.error "ReplayBlocks(): reorganization to unknown block requested")
  let (pindexOld, pindexFork) ← findFork D old pindexNew
  let (cache, aal) ← rollback H N D pindexFork pindexOld (.ofBase view, aal)
  let nForkHeight := ptrHeight pindexFork
  let cache ← (List.range' (nForkHeight + 1) (ptrHeight pindexNew - nForkHeight)).foldlM
    (fun v nHeight => rollforwardBlock H D v (getAncestor nHeight pindexNew)) cache
  return (cache.setBestBlock ((pindexNew.head?.map CBlockIndex.blockHash).getD 0), aal)

/-- `ReplayBlocks`; a map of changes enumerates its keys in the order that
`enumerate` gives. -/
def replayBlocks (S : BatchSize) (enumerate : CoinsLayer → List COutPoint) (db : CoinsDB)
    (aal : AalState) : Except Failure (CoinsDB × AalState) :=
  match db.headBlocks with
  | [] => .ok (db, aal)
  | [new, old] => do
    let (cache, aal) ← replayCache H N D db.toCCoinsView aal new old
    let l : CoinsLayer := ⟨cache.cacheCoins, cache.hashBlock⟩
    let db ← db.batchWrite S (l.entries (enumerate l)) l.hashBlock
    return (db, aal)
  | _ => .error (.error "ReplayBlocks(): unknown inconsistent state")

/-! ## Blocks on plain coins -/

namespace CoinSet

/-- The coins after a transaction of a block at height `nHeight`. -/
def connectTx (nHeight : ℕ) (C : CoinSet) (tx : CTransaction) : CoinSet :=
  insertOutputs H tx nHeight (spend tx C)

variable {H}

theorem overwriting_spend (tx : CTransaction) : Overwriting (spend tx) := by
  intro o
  by_cases ho : tx.isCoinBase = false ∧ o ∈ tx.vin.map CTxIn.prevout
  · exact Or.inr ⟨none, fun C => by simp [spend, eraseInputs, ho.1, ho.2]⟩
  refine Or.inl fun C => ?_
  unfold spend
  split
  · rfl
  · rename_i hcb
    exact if_neg fun h => ho ⟨by simpa using hcb, h⟩

theorem overwriting_insertOutputs (tx : CTransaction) (nHeight : ℕ) :
    Overwriting (insertOutputs H tx nHeight) := by
  intro o
  cases hcr : created H tx nHeight o with
  | none => exact Or.inl fun C => by simp [insertOutputs, hcr]
  | some c => exact Or.inr ⟨some c, fun C => by simp [insertOutputs, hcr]⟩

/-- **A transaction overwrites the coins it touches**, whatever they are. -/
theorem overwriting_connectTx (nHeight : ℕ) (tx : CTransaction) :
    Overwriting fun C => connectTx H nHeight C tx :=
  (overwriting_insertOutputs tx nHeight).comp (overwriting_spend tx)

/-- One output inserted. -/
def addOutput (txid : UInt256) (nHeight : ℕ) (cb cs : Bool) (C : CoinSet) (p : CTxOut × ℕ) :
    CoinSet :=
  if p.1.scriptPubKey.isUnspendable then C
  else Function.update C ⟨txid, p.2⟩ (some (Coin.make p.1 nHeight cb cs))

/-- Inserting outputs one by one makes `C'`, if that has them and else the
coins of `C`. -/
theorem foldl_addOutput {txid : UInt256} {nHeight : ℕ} {cb cs : Bool} {l : List (CTxOut × ℕ)}
    {C C' : CoinSet} (hin : ∀ p ∈ l, p.1.scriptPubKey.isUnspendable = false →
      C' ⟨txid, p.2⟩ = some (Coin.make p.1 nHeight cb cs))
    (hout : ∀ o, (∀ p ∈ l, p.1.scriptPubKey.isUnspendable = false → o ≠ ⟨txid, p.2⟩) →
      C o = C' o) : l.foldl (addOutput txid nHeight cb cs) C = C' := by
  induction l generalizing C with
  | nil => exact funext fun o => hout o (by simp)
  | cons p l ih =>
    obtain ⟨hin₀, hin⟩ := forall_mem_cons.1 hin
    refine ih hin fun o ho => ?_
    unfold addOutput
    cases hu : p.1.scriptPubKey.isUnspendable with
    | true => exact hout o (forall_mem_cons.2 ⟨fun hs => absurd hs (by simp [hu]), ho⟩)
    | false =>
      rw [if_neg Bool.false_ne_true]
      by_cases heq : o = ⟨txid, p.2⟩
      · rw [heq, update_self, hin₀ hu]
      · rw [update_of_ne heq]
        exact hout o (forall_mem_cons.2 ⟨fun _ => heq, ho⟩)

/-- Inserting the outputs one by one inserts them all. -/
theorem foldl_addOutput_eq (tx : CTransaction) (nHeight : ℕ) (C : CoinSet) :
    tx.vout.zipIdx.foldl (addOutput (tx.getHash H) nHeight tx.isCoinBase tx.isCoinStake) C =
      insertOutputs H tx nHeight C := by
  refine foldl_addOutput (fun p hp hs => ?_) fun o ho => ?_
  · rw [insertOutputs, created_eq_some.2 ⟨rfl, p.1, hp, hs, rfl⟩, Option.some_or]
  · rw [insertOutputs, created_eq_none ho, Option.none_or]

end CoinSet

/-! ## Rolling forward on a cache -/

/-- The map of a cache has finitely many keys. -/
def CoinsLayer.Listed (l : CoinsLayer) : Prop :=
  ∃ keys : List COutPoint, ∀ o, (l.cacheCoins o).isSome = true → o ∈ keys

namespace CCoinsViewCache

variable {H} {v v' w : CCoinsViewCache} {C C' : CoinSet} {o : COutPoint} {c : Coin} {γ : Type}

theorem listed_setEntry {x : Option CCoinsCacheEntry} (h : v.layer.Listed) :
    (v.setEntry o x).layer.Listed := by
  obtain ⟨keys, hkeys⟩ := h
  refine ⟨o :: keys, fun p hp => ?_⟩
  by_cases hpo : p = o
  · exact hpo ▸ mem_cons_self
  · have hp : (v.cacheCoins p).isSome = true := by
      simpa [layer, setEntry, hpo] using hp
    exact mem_cons_of_mem o (hkeys p hp)

/-- What some operations make of a cache: it stays coherent and finite, over
the same base, and comes to hold the coins `C`. -/
structure Becomes (v : CCoinsViewCache) (C : CoinSet) (v' : CCoinsViewCache) : Prop where
  follows : v'.Follows v
  getCoin : v'.getCoin = C
  listed : v.layer.Listed → v'.layer.Listed

theorem Becomes.trans (h : v.Becomes C w) (h' : w.Becomes C' v') : v.Becomes C' v' :=
  ⟨h'.follows.trans h.follows, h'.getCoin, fun hl => h'.listed (h.listed hl)⟩

theorem Coherent.becomes (h : v.Coherent) : v.Becomes v.getCoin v := ⟨h.follows, rfl, id⟩

/-- **A loop does on the cache what its turns do on plain coins.** -/
theorem foldlM_becomes {f : CCoinsViewCache → γ → Except Failure CCoinsViewCache}
    {g : CoinSet → γ → CoinSet} {l : List γ}
    (h : ∀ v : CCoinsViewCache, v.Coherent → ∀ c ∈ l,
      ∃ v', f v c = .ok v' ∧ v.Becomes (g v.getCoin c) v') (hc : v.Coherent) :
    ∃ v', l.foldlM f v = .ok v' ∧ v.Becomes (l.foldl g v.getCoin) v' := by
  induction l generalizing v with
  | nil => exact ⟨v, rfl, hc.becomes⟩
  | cons c l ih =>
    obtain ⟨w, hw, hvw⟩ := h v hc c mem_cons_self
    obtain ⟨v', hv', hwv⟩ := ih (fun v hc c hm => h v hc c (mem_cons_of_mem _ hm))
      hvw.follows.coherent
    rw [hvw.getCoin] at hwv
    exact ⟨v', foldlM_cons_eq_ok.2 ⟨w, hw, hv'⟩, hvw.trans hwv⟩

theorem listed_spendCoin (h : v.spendCoin o = some (c, v')) (hl : v.layer.Listed) :
    v'.layer.Listed := by
  obtain ⟨-, -, -, rfl⟩ := spendCoin_eq_some.1 h
  exact listed_setEntry hl

theorem listed_addCoin {overwrite : Bool} (h : v.addCoin o c overwrite = .ok v')
    (hl : v.layer.Listed) : v'.layer.Listed := by
  obtain ⟨-, ⟨-, rfl⟩ | ⟨-, -, rfl⟩⟩ := addCoin_cases h
  · exact hl
  · exact listed_setEntry hl

theorem becomes_spendAny (hc : v.Coherent) (o : COutPoint) :
    v.Becomes (Function.update v.getCoin o none) (v.spendAny o) := by
  unfold spendAny
  cases hs : v.spendCoin o with
  | none =>
    rw [update_eq_self_iff.2 (getCoin_of_spendCoin_eq_none hs).symm]
    exact hc.becomes
  | some cv =>
    obtain ⟨hf, hg⟩ := spendCoin_spec hc hs
    exact ⟨hf, hg, listed_spendCoin hs⟩

theorem becomes_foldl_spendAny (hc : v.Coherent) (vin : List CTxIn) :
    v.Becomes (CoinSet.eraseInputs v.getCoin vin)
      (vin.foldl (fun v i => v.spendAny i.prevout) v) := by
  induction vin generalizing v with
  | nil =>
    exact hc.becomes
  | cons i vin ih =>
    have hi := becomes_spendAny hc i.prevout
    have hrest := ih hi.follows.coherent
    rw [hi.getCoin, ← eraseInputs_cons] at hrest
    exact hi.trans hrest

/-- An output that is no null output is inserted, over whatever is there. -/
theorem becomes_addOutputChecked (txid : UInt256) (nHeight : ℕ) (cb cs : Bool) {p : CTxOut × ℕ}
    (hc : v.Coherent) (hp : p.1.isNull = false) :
    ∃ v', addOutputChecked txid nHeight cb cs v p = .ok v' ∧
      v.Becomes (CoinSet.addOutput txid nHeight cb cs v.getCoin p) v' := by
  obtain ⟨v', hv'⟩ : ∃ v', addOutputChecked txid nHeight cb cs v p = .ok v' :=
    addCoin_ok hp fun hno _ => getCoin_eq_none_of_haveCoin hno
  obtain ⟨hf, hg⟩ := addCoin_spec hc (fun hno _ => getCoin_eq_none_of_haveCoin hno) hv'
  exact ⟨v', hv', hf, hg, listed_addCoin hv'⟩

/-- **Rolling a transaction forward connects it on plain coins.** -/
theorem becomes_rollforwardTx (nHeight : ℕ) {tx : CTransaction} (hc : v.Coherent)
    (hout : ∀ out ∈ tx.vout, out.isNull = false) :
    ∃ v', v.rollforwardTx H nHeight tx = .ok v' ∧
      v.Becomes (CoinSet.connectTx H nHeight v.getCoin tx) v' := by
  have hspend : v.Becomes (CoinSet.spend tx v.getCoin)
      (if tx.isCoinBase then v else tx.vin.foldl (fun v i => v.spendAny i.prevout) v) := by
    unfold CoinSet.spend
    split
    · exact hc.becomes
    · exact becomes_foldl_spendAny hc tx.vin
  obtain ⟨v', hv', hadd⟩ := foldlM_becomes
    (fun w hw p hp => becomes_addOutputChecked (tx.getHash H) nHeight tx.isCoinBase
      tx.isCoinStake hw (hout p.1 (fst_mem_of_mem_zipIdx hp))) hspend.follows.coherent
  rw [hspend.getCoin, foldl_addOutput_eq] at hadd
  exact ⟨v', hv', hspend.trans hadd⟩

end CCoinsViewCache

/-! ## Ancestors -/

/-- The height of an entry is the number of its ancestors. -/
def Heights : List CBlockIndex → Prop
  | [] => True
  | p :: below => p.nHeight = below.length ∧ Heights below

section Ancestors

variable {p : CBlockIndex} {ptr below path A B fork : List CBlockIndex}

theorem Heights.of_append (h : Heights (path ++ A)) : Heights A := by
  induction path with
  | nil => exact h
  | cons p path ih => exact ih h.2

theorem Heights.ptrHeight_eq (h : Heights ptr) (hne : ptr ≠ []) : ptrHeight ptr + 1 = ptr.length := by
  cases ptr with
  | nil => exact absurd rfl hne
  | cons p below => rw [ptrHeight, h.1, length_cons]

theorem getAncestor_self : getAncestor (ptrHeight ptr) ptr = ptr := by
  cases ptr <;> simp [getAncestor, ptrHeight]

theorem getAncestor_cons_of_lt {height : ℕ} (h : height < p.nHeight) :
    getAncestor height (p :: below) = getAncestor height below := by
  rw [getAncestor, if_neg (by omega), if_neg (by omega)]

theorem getAncestor_suffix {height : ℕ} : getAncestor height ptr <:+ ptr := by
  induction ptr with
  | nil => exact suffix_rfl
  | cons p below ih =>
    unfold getAncestor
    split
    · exact nil_suffix
    split
    · exact suffix_rfl
    · exact ih.trans (suffix_cons p below)

/-- The ancestors of a block are those of the blocks over it. -/
theorem getAncestor_append {height : ℕ} (h : Heights (path ++ A)) (hA : A ≠ [])
    (hle : height ≤ ptrHeight A) : getAncestor height (path ++ A) = getAncestor height A := by
  induction path with
  | nil => rfl
  | cons p path ih =>
    have hlt : height < p.nHeight := by
      have hlen := h.2.of_append.ptrHeight_eq hA
      rw [show p.nHeight = (path ++ A).length from h.1, length_append]
      omega
    rw [cons_append, getAncestor_cons_of_lt hlt]
    exact ih h.2

theorem stepBack_self : stepBack ptr ptr = (ptr, ptr) := by
  cases ptr <;> simp [stepBack]

theorem stepBack_suffix : (stepBack A B).1 <:+ A ∧ (stepBack A B).2 <:+ B := by
  induction A generalizing B with
  | nil => exact ⟨suffix_rfl, suffix_rfl⟩
  | cons a A ih =>
    cases B with
    | nil => exact ⟨suffix_rfl, suffix_rfl⟩
    | cons b B =>
      unfold stepBack
      split
      · exact ⟨suffix_rfl, suffix_rfl⟩
      · exact ⟨ih.1.trans (suffix_cons a A), ih.2.trans (suffix_cons b B)⟩

theorem ptrHeight_le (h : Heights (path ++ A)) : ptrHeight A ≤ ptrHeight (path ++ A) := by
  rcases eq_or_ne A [] with rfl | hA
  · exact Nat.zero_le _
  have hA' := h.of_append.ptrHeight_eq hA
  have hB := h.ptrHeight_eq (append_ne_nil_of_right_ne_nil path hA)
  rw [length_append] at hB
  omega

/-- A chain that goes on from `A` forks from it at `A`. -/
theorem lastCommonAncestor_append (h : Heights (path ++ A)) (hA : A ≠ []) :
    lastCommonAncestor A (path ++ A) = .ok A := by
  have hle := ptrHeight_le h
  have hB : (if ptrHeight A < ptrHeight (path ++ A) then
      getAncestor (ptrHeight A) (path ++ A) else path ++ A) = A := by
    split
    · exact (getAncestor_append h hA le_rfl).trans getAncestor_self
    -- of the same height, it is the same chain
    rename_i hnlt
    have h1 := h.of_append.ptrHeight_eq hA
    have h2 := h.ptrHeight_eq (append_ne_nil_of_right_ne_nil path hA)
    rw [length_append] at h2
    have hpath : path = [] := length_eq_zero_iff.1 (by omega)
    rw [hpath, nil_append]
  unfold lastCommonAncestor
  rw [if_neg (by omega), hB]
  simp only [stepBack_self, bind_eq_ok, require_eq_ok, pure_eq_ok, beq_self_eq_true]
  exact ⟨(), trivial, trivial⟩

/-- The fork is on both chains. -/
theorem suffix_of_lastCommonAncestor (h : lastCommonAncestor A B = .ok fork) :
    fork <:+ A ∧ fork <:+ B := by
  unfold lastCommonAncestor at h
  simp only [bind_eq_ok, require_eq_ok, pure_eq_ok, beq_iff_eq] at h
  obtain ⟨⟨⟩, heq, rfl⟩ := h
  have hback := stepBack_suffix
    (A := if ptrHeight B < ptrHeight A then getAncestor (ptrHeight B) A else A)
    (B := if ptrHeight A < ptrHeight B then getAncestor (ptrHeight A) B else B)
  refine ⟨hback.1.trans ?_, heq ▸ hback.2.trans ?_⟩
  · split
    · exact getAncestor_suffix
    · exact suffix_rfl
  · split
    · exact getAncestor_suffix
    · exact suffix_rfl

/-- The entries of a path over `A`, lowest first, without a genesis block. -/
def entriesAbove : List CBlockIndex → List CBlockIndex → List (List CBlockIndex)
  | [], _ => []
  | p :: path, A => entriesAbove path A ++ if p.nHeight = 0 then [] else [p :: (path ++ A)]

/-- **The loop over the heights goes along the path.** -/
theorem map_getAncestor (h : Heights (path ++ A)) :
    (List.range' (ptrHeight A + 1) (ptrHeight (path ++ A) - ptrHeight A)).map
      (fun nHeight => getAncestor nHeight (path ++ A)) = entriesAbove path A := by
  induction path with
  | nil => simp [entriesAbove]
  | cons p path ih =>
    have hp : p.nHeight = (path ++ A).length := h.1
    rw [entriesAbove, ← ih h.2]
    rcases eq_or_ne (path ++ A) [] with hnil | hne
    · -- the lowest block of all is never connected
      obtain ⟨rfl, rfl⟩ := append_eq_nil_iff.1 hnil
      simp [ptrHeight, hp]
    · have hrest : ptrHeight (path ++ A) + 1 = p.nHeight := hp ▸ h.2.ptrHeight_eq hne
      have hle : ptrHeight A ≤ ptrHeight (path ++ A) := ptrHeight_le h.2
      have hcount : ptrHeight (p :: path ++ A) - ptrHeight A =
          ptrHeight (path ++ A) - ptrHeight A + 1 := by
        show p.nHeight - _ = _
        omega
      have hlast : ptrHeight A + 1 + (ptrHeight (path ++ A) - ptrHeight A) = p.nHeight := by omega
      rw [hcount, range'_1_concat, map_append, hlast, if_neg (by omega)]
      refine congrArg₂ (· ++ ·) (map_congr_left fun height hmem => ?_)
        (congrArg (fun x => [x]) (@getAncestor_self (p :: path ++ A)))
      obtain ⟨-, hlt⟩ := mem_range'_1.1 hmem
      exact getAncestor_cons_of_lt (by omega)

end Ancestors

/-! ## The coins of a chain -/

/-- What the block of an entry does to the coins; the transactions of the
genesis block are never connected. -/
def entryCoins (body : CBlockIndex → CBlock) (p : CBlockIndex) (C : CoinSet) : CoinSet :=
  if p.nHeight = 0 then C else (body p).vtx.foldl (CoinSet.connectTx H p.nHeight) C

/-- The coins of a chain with these blocks. -/
def chainCoins (body : CBlockIndex → CBlock) (ptr : List CBlockIndex) : CoinSet :=
  ptr.foldr (entryCoins H body) fun _ => none

/-- The block of the tip; null for no chain. -/
def tipHash (ptr : List CBlockIndex) : UInt256 := (ptr.head?.map CBlockIndex.blockHash).getD 0

/-- A chain that the index knows, with its blocks on disk. -/
structure Intact (D : BlockStore) (body : CBlockIndex → CBlock) (ptr : List CBlockIndex) :
    Prop where
  heights : Heights ptr
  /-- The index finds the chain by its tip, whose hash is not null. -/
  indexed : ptr ≠ [] → tipHash ptr ≠ 0 ∧ D.mapBlockIndex (tipHash ptr) = some ptr
  read : ∀ p ∈ ptr, D.readBlockFromDisk p = some (body p)
  /-- A connected block has no null output. -/
  outputs : ∀ p ∈ ptr, ∀ tx ∈ (body p).vtx, ∀ out ∈ tx.vout, out.isNull = false

section Connected

variable {H} {N : Node} {body : CBlockIndex → CBlock} {view : CCoinsViewCache} {nHeight : ℕ}

/-- The turns of `ConnectBlock` that write over nothing connect their
transactions on plain coins. -/
theorem BlockContext.Turns.getCoin_eq {C : BlockContext} {vtx : List CTransaction}
    {s s' : ConnectState} {k : ℕ} (h : Turns H N C k vtx s s') (hc : s.view.Coherent)
    (hno : NoOverwrite H C.nHeight s.view vtx) :
    s'.view.getCoin = vtx.foldl (CoinSet.connectTx H C.nHeight) s.view.getCoin := by
  induction h with
  | nil => rfl
  | @cons k tx vtx s t s' head tail ih =>
    obtain ⟨vprevout, hupd, -⟩ := head.coins
    have hup := updateCoins_spec hc
      (fun _ n => shielded_of_getCoin (hno [] tx vtx rfl n)) hupd
    have htail : NoOverwrite H C.nHeight t.view vtx := by
      rw [head.view_eq]
      exact fun before tx' after hvtx => hno (tx :: before) tx' after (by rw [hvtx]; rfl)
    rw [ih hup.coherent htail, hup.getCoin]
    rfl

theorem ConnectCall.Connects.getCoin_eq {call : ConnectCall} {C : CoinSet} {c : Connected}
    (h : call.Connects H nHeight C c) (hno : NoOverwrite H nHeight call.view call.block.vtx) :
    c.view.getCoin = call.block.vtx.foldl (CoinSet.connectTx H nHeight) C := by
  obtain ⟨-, -, -, hgen | ⟨p, s, -, hacc⟩⟩ := connectBlock_eq_ok h.vouched h.connected
  · exact absurd hgen h.above_genesis
  obtain ⟨hview, -, -⟩ := hacc.connected rfl
  have hget := hacc.turns.getCoin_eq h.coherent (h.nHeight.symm ▸ hno)
  rw [hview, ← h.coins, ← h.nHeight]
  exact hget

/-- The block of such a call has no null output, as `Intact` asks. -/
theorem ConnectCall.Connects.outputs {call : ConnectCall} {C : CoinSet} {c : Connected}
    (h : call.Connects H nHeight C c) :
    ∀ tx ∈ call.block.vtx, ∀ out ∈ tx.vout, out.isNull = false := by
  obtain ⟨⟨-, hchecked⟩, -, -, -⟩ := connectBlock_eq_ok h.vouched h.connected
  intro tx htx out hout
  have hrange := (hchecked tx htx).nValue out hout
  unfold CTxOut.isNull
  by_contra hnull
  rw [Bool.not_eq_false, beq_iff_eq] at hnull
  rw [hnull] at hrange
  cases hrange

/-- **The blocks that `ConnectBlock` connects leave the coins of their
chain.** -/
theorem ConnectedChain.coins_of_chain {calls : List ConnectCall} {genesis : CBlockIndex}
    (h : ConnectedChain H calls view) (hlt : calls.length < 2 ^ 63)
    (hids : DistinctIds H (chainTxs calls)) (hgenesis : genesis.nHeight = 0)
    (hbody : ∀ call ∈ calls, body call.pindex = call.block) :
    view.getCoin = chainCoins H body (calls.reverse.map ConnectCall.pindex ++ [genesis]) := by
  induction h with
  | genesis coherent empty =>
    funext o
    simp [chainCoins, entryCoins, hgenesis, empty]
  | @connect calls view call c chain next ih =>
    have hlast : call ∈ calls ++ [call] := mem_append_right _ mem_cons_self
    have hno := ((chain.connect next).tracked hlt hids).2 call hlast
    rw [length_append] at hlt
    have hbelow := ih (by omega)
      (hids.mono fun t ht => by
        rw [chainTxs, flatMap_append]
        exact mem_append_left _ ht)
      fun call' hm => hbody call' (mem_append_left _ hm)
    rw [reverse_concat, map_cons, cons_append, chainCoins, foldr_cons, ← chainCoins, ← hbelow,
      entryCoins, hbody call hlast, next.nHeight]
    exact next.getCoin_eq (next.nHeight ▸ hno)

theorem maturedSpend_coins : ∃ calls c, maturingChain 101 = some (calls, c) ∧
    c.view.getCoin maturingOutput = none ∧
    c.view.getCoin = chainCoins coinbaseHashes (fun p => maturingBlock p.nHeight)
      (calls.reverse.map ConnectCall.pindex ++ [foundingCall.pindex]) := by
  obtain ⟨⟨calls, c⟩, hruns, hends⟩ := Option.map_eq_some_iff.1 maturingChain_connects
  have hmatured := maturedTo le_rfl hruns
  exact ⟨calls, c, hruns, (Prod.mk.inj hends).2, hmatured.chain.coins_of_chain
    (by rw [hmatured.length_eq]; decide) (hmatured.distinct le_rfl) rfl hmatured.indexed⟩

end Connected

section Chains

variable {H N D} {body : CBlockIndex → CBlock} {ptr path A B : List CBlockIndex}
variable {v : CCoinsViewCache}

theorem overwriting_entryCoins (p : CBlockIndex) : Overwriting (entryCoins H body p) := by
  unfold entryCoins
  split
  · exact overwriting_id
  · exact overwriting_foldl (fun tx => overwriting_connectTx p.nHeight tx) _

theorem rollforwardBlock_becomes {p : CBlockIndex} (below : List CBlockIndex)
    (hread : D.readBlockFromDisk p = some (body p))
    (hout : ∀ tx ∈ (body p).vtx, ∀ out ∈ tx.vout, out.isNull = false) (hc : v.Coherent) :
    ∃ v', rollforwardBlock H D v (p :: below) = .ok v' ∧
      v.Becomes ((body p).vtx.foldl (CoinSet.connectTx H p.nHeight) v.getCoin) v' := by
  obtain ⟨v', hv', hbecomes⟩ := foldlM_becomes
    (fun w hw tx htx => becomes_rollforwardTx (H := H) p.nHeight hw (hout tx htx))
    hc
  refine ⟨v', ?_, hbecomes⟩
  simp only [rollforwardBlock, bind_eq_ok, orThrow_eq_ok]
  exact ⟨p, rfl, body p, hread, hv'⟩

/-- **Rolling forward along a path connects its blocks on plain coins.** -/
theorem rollforward_becomes (hread : ∀ p ∈ path, D.readBlockFromDisk p = some (body p))
    (hout : ∀ p ∈ path, ∀ tx ∈ (body p).vtx, ∀ out ∈ tx.vout, out.isNull = false)
    (hc : v.Coherent) :
    ∃ v', (entriesAbove path A).foldlM (rollforwardBlock H D) v = .ok v' ∧
      v.Becomes (path.foldr (entryCoins H body) v.getCoin) v' := by
  induction path with
  | nil => exact ⟨v, rfl, hc.becomes⟩
  | cons p path ih =>
    obtain ⟨w, hw, hvw⟩ := ih (fun q hq => hread q (mem_cons_of_mem p hq))
      fun q hq => hout q (mem_cons_of_mem p hq)
    rw [entriesAbove, foldlM_append, hw, foldr_cons, entryCoins]
    rcases Nat.eq_zero_or_pos p.nHeight with hzero | hpos
    · rw [if_pos hzero, if_pos hzero]
      exact ⟨w, rfl, hvw⟩
    rw [if_neg hpos.ne', if_neg hpos.ne']
    obtain ⟨v', hv', hwv⟩ := rollforwardBlock_becomes (H := H) (path ++ A)
      (hread p mem_cons_self) (hout p mem_cons_self) hvw.follows.coherent
    rw [hvw.getCoin] at hwv
    exact ⟨v', foldlM_cons_eq_ok.2 ⟨v', hv', rfl⟩, hvw.trans hwv⟩

theorem findFork_of_suffix (hA : Intact D body A) (hB : Heights B) (hsuffix : A <:+ B) :
    findFork D (tipHash A) B = .ok (A, A) := by
  unfold findFork
  rcases eq_or_ne A [] with rfl | hne
  · exact if_pos rfl
  obtain ⟨hhash, hindex⟩ := hA.indexed hne
  obtain ⟨path, rfl⟩ := hsuffix
  rw [if_neg hhash]
  simp only [bind_eq_ok, orThrow_eq_ok]
  exact ⟨A, hindex, A, lastCommonAncestor_append hB hne, (), by simpa using hne, rfl⟩

theorem rollback_self {s : CCoinsViewCache × AalState} : rollback H N D A A s = .ok s := by
  cases A <;> simp [rollback]

/-- The cache that is flushed when the new chain goes on from the old tip. -/
theorem replayCache_forward (hA : Intact D body A) (hB : Intact D body B) (hne : B ≠ [])
    (hpath : path ++ A = B) (view : CCoinsView) (aal : AalState) :
    ∃ cache, replayCache H N D view aal (tipHash B) (tipHash A) = .ok (cache, aal) ∧
      cache.base = view ∧ cache.hashBlock = tipHash B ∧ cache.Coherent ∧ cache.layer.Listed ∧
      cache.getCoin = path.foldr (entryCoins H body) view.getCoin := by
  have hc := coherent_ofBase view
  have hget : (CCoinsViewCache.ofBase view).getCoin = view.getCoin := by
    funext o
    rw [getCoin_eq]
    rfl
  have hmem : ∀ p ∈ path, p ∈ B := fun p hp => hpath ▸ mem_append_left A hp
  obtain ⟨v, hv, hbecomes⟩ := rollforward_becomes (H := H) (A := A)
    (fun p hp => hB.read p (hmem p hp)) (fun p hp => hB.outputs p (hmem p hp)) hc
  have hloop : (List.range' (ptrHeight A + 1) (ptrHeight B - ptrHeight A)).foldlM
      (fun v nHeight => rollforwardBlock H D v (getAncestor nHeight B)) (.ofBase view) = .ok v := by
    rw [← hv, ← map_getAncestor (hpath ▸ hB.heights), hpath, foldlM_map]
  refine ⟨v.setBestBlock (tipHash B), ?_, hbecomes.follows.base, rfl,
    ⟨hbecomes.follows.coherent.fresh, hbecomes.follows.coherent.clean⟩,
    hbecomes.listed ⟨[], fun o ho => by cases ho⟩, hbecomes.getCoin.trans (by rw [hget])⟩
  simp only [replayCache, bind_eq_ok, orThrow_eq_ok, Prod.exists]
  exact ⟨B, (hB.indexed hne).2, A, A, findFork_of_suffix hA hB.heights ⟨path, hpath⟩, .ofBase view,
    aal, rollback_self, v, hloop, rfl⟩

variable {S : BatchSize} {enumerate : CoinsLayer → List COutPoint} {db : CoinsDB} {aal : AalState}

theorem replayBlocks_of_atTip {tip : UInt256} {C : CoinSet} (h : db.AtTip tip C) :
    replayBlocks H N D S enumerate db aal = .ok (db, aal) := by
  unfold replayBlocks
  rw [h.headBlocks]

/-- **A change that goes forward is completed**, whatever was written of it. -/
theorem replayBlocks_forward (henum : ∀ l : CoinsLayer, l.Listed → Enumerates (enumerate l) l)
    (hA : Intact D body A) (hB : Intact D body B) (hne : B ≠ []) (hsuffix : A <:+ B)
    (hmid : db.MidChange (tipHash B) (tipHash A) (chainCoins H body A) (chainCoins H body B))
    (aal : AalState) :
    ∃ db', replayBlocks H N D S enumerate db aal = .ok (db', aal) ∧
      db'.AtTip (tipHash B) (chainCoins H body B) := by
  obtain ⟨path, hpath⟩ := hsuffix
  obtain ⟨cache, hcache, hbase, hhash, hcoh, hlisted, hget⟩ :=
    replayCache_forward (H := H) (N := N) hA hB hne hpath db.toCCoinsView aal
  have hchain : chainCoins H body B = path.foldr (entryCoins H body) (chainCoins H body A) := by
    rw [← hpath]
    exact foldr_append
  -- the blocks of the path are connected on a mixture
  have hredo : cache.getCoin = chainCoins H body B := by
    rw [hget, hchain]
    refine (overwriting_foldr overwriting_entryCoins path).redo fun o => ?_
    rw [← hchain]
    exact hmid.mixture o
  have hlayer : cache.layer.onto db.toCCoinsView = cache := by
    rw [← hbase]
    rfl
  obtain ⟨bs, hbs⟩ : ∃ bs, db.batches S (cache.layer.entries (enumerate cache.layer))
      (tipHash B) = .ok bs := by
    simp only [batches, oldTip, hmid.bestBlock, hmid.headBlocks, bind_eq_ok]
    exact ⟨_, (), by simpa using (hB.indexed hne).1, tipHash A, rfl, rfl⟩
  refine ⟨bs.foldl writeBatch db, ?_, ?_⟩
  · unfold replayBlocks
    rw [hmid.headBlocks]
    simp only [bind_eq_ok, Prod.exists, batchWrite]
    have hflush : db.batches S (cache.layer.entries (enumerate cache.layer)) cache.hashBlock =
        .ok bs := by rwa [hhash]
    exact ⟨cache, aal, hcache, _, ⟨bs, hflush, rfl⟩, rfl⟩
  · have htip := atTip_of_batches (hlayer.symm ▸ hcoh) hbs (henum _ hlisted)
    rwa [hlayer, hredo] at htip

/-- **A change that leaves the old branch is not**: the assertion of
`DisconnectBlock` fails. -/
theorem replayBlocks_back (hA : Intact D body A) (hB : Intact D body B) (hne : B ≠ [])
    (hsuffix : ¬ A <:+ B) {C C' : CoinSet}
    (hmid : db.MidChange (tipHash B) (tipHash A) C C') (r : CoinsDB × AalState) :
    replayBlocks H N D S enumerate db aal ≠ .ok r := by
  intro hr
  have hAne : A ≠ [] := by
    rintro rfl
    exact hsuffix nil_suffix
  obtain ⟨hhash, hindex⟩ := hA.indexed hAne
  unfold replayBlocks at hr
  rw [hmid.headBlocks] at hr
  simp only [bind_eq_ok, Prod.exists] at hr
  obtain ⟨cache, aal', hcache, -⟩ := hr
  simp only [replayCache, findFork, if_neg hhash, hindex, (hB.indexed hne).2, bind_eq_ok,
    orThrow_eq_ok, pure_eq_ok, Prod.exists, Option.some.injEq, Prod.mk.injEq] at hcache
  obtain ⟨_, rfl, _, _, ⟨_, rfl, fork, hfork, ⟨⟩, hforkne, rfl, rfl⟩, _, _, hroll, -⟩ := hcache
  obtain ⟨hforkA, hforkB⟩ := suffix_of_lastCommonAncestor hfork
  have hne' : A ≠ fork := fun h => hsuffix (h ▸ hforkB)
  cases A with
  | nil => exact hAne rfl
  | cons p below =>
    rw [rollback, if_neg hne'] at hroll
    split at hroll
    · -- the database has no best block, and the block has a hash
      simp only [disconnectBlock, bind_eq_ok, require_eq_ok] at hroll
      obtain ⟨_, -, _, -, _, ⟨⟨⟩, hbest, -⟩, -⟩ := hroll
      refine hhash (Eq.trans ?_ hmid.bestBlock)
      exact beq_iff_eq.1 hbest
    · -- two chains with different genesis blocks have no fork
      rename_i hzero
      have hbelow : below = [] := length_eq_zero_iff.1 (hA.heights.1 ▸ by omega)
      subst hbelow
      rcases suffix_cons_iff.1 hforkA with heq | hnil
      · exact hne' heq.symm
      · rw [suffix_nil.1 hnil] at hforkne
        cases hforkne

/-- `ReplayBlocks` leaves the database at a tip with these coins, and a
second run changes nothing. -/
def Recovers (H : Hashes) (N : Node) (D : BlockStore) (S : BatchSize)
    (enumerate : CoinsLayer → List COutPoint) (db : CoinsDB) (aal : AalState) (tip : UInt256)
    (C : CoinSet) : Prop :=
  ∃ db' aal', replayBlocks H N D S enumerate db aal = .ok (db', aal') ∧ db'.AtTip tip C ∧
    replayBlocks H N D S enumerate db' aal' = .ok (db', aal')

theorem eq_of_tipHash_eq (hA : Intact D body A) (hB : Intact D body B) (hne : B ≠ [])
    (h : tipHash A = tipHash B) : A = B := by
  obtain ⟨hhash, hindex⟩ := hB.indexed hne
  rcases eq_or_ne A [] with rfl | hAne
  · exact absurd h.symm hhash
  · have hindexA := (hA.indexed hAne).2
    rw [h, hindex] at hindexA
    exact (Option.some.inj hindexA).symm

/-- **What a cut write can be recovered from.** A write of the coins of
chain `B` over those of chain `A`, cut after `k` batches, is completed by
`ReplayBlocks` exactly if all batches were written, or the tip does not
change, or the write was begun and `B` goes on from `A`. -/
theorem replay_recovers_iff {S' : BatchSize} {order : List COutPoint} {l : CoinsLayer}
    {bs : List (List DbWrite)}
    (henum : ∀ l : CoinsLayer, l.Listed → Enumerates (enumerate l) l)
    (hA : Intact D body A) (hB : Intact D body B) (hne : B ≠ [])
    (hdb : db.AtTip (tipHash A) (chainCoins H body A))
    (hcoh : (l.onto db.toCCoinsView).Coherent)
    (hcoins : (l.onto db.toCCoinsView).getCoin = chainCoins H body B)
    (horder : Enumerates order l)
    (hbs : db.batches S' (l.entries order) (tipHash B) = .ok bs) (k : ℕ) :
    Recovers H N D S enumerate ((bs.take k).foldl CoinsDB.writeBatch db) aal (tipHash B)
        (chainCoins H body B) ↔
      bs.length ≤ k ∨ A = B ∨ (0 < k ∧ A <:+ B) := by
  have hold : db.oldTip (tipHash B) = .ok (tipHash A) := by
    unfold oldTip
    rw [hdb.bestBlock, hdb.headBlocks]
    split
    · rename_i hzero
      rw [hzero]
    · rfl
  rcases Nat.lt_or_ge k bs.length with hlt | hge
  swap
  · -- everything was written
    refine iff_of_true ?_ (Or.inl hge)
    have htip := atTip_of_batches hcoh hbs horder
    rw [hcoins] at htip
    rw [take_of_length_le hge]
    exact ⟨_, aal, replayBlocks_of_atTip htip, htip, replayBlocks_of_atTip htip⟩
  rcases Nat.eq_zero_or_pos k with rfl | hk
  · -- nothing was written
    rw [take_zero, foldl_nil]
    constructor
    · rintro ⟨db', aal', hr, htip, -⟩
      rw [replayBlocks_of_atTip hdb] at hr
      obtain ⟨⟩ := hr
      exact Or.inr (Or.inl (eq_of_tipHash_eq hA hB hne (hdb.bestBlock.symm.trans htip.bestBlock)))
    · rintro (hge | rfl | ⟨hpos, -⟩)
      · exact absurd hge (Nat.not_le.2 hlt)
      · exact ⟨db, aal, replayBlocks_of_atTip hdb, hdb, replayBlocks_of_atTip hdb⟩
      · cases hpos
  · have hmid := midChange_of_take hcoh hbs hold hk hlt
    rw [hcoins, hdb.getCoin] at hmid
    constructor
    · rintro ⟨db', aal', hr, -, -⟩
      by_contra hnot
      exact replayBlocks_back hA hB hne (fun hs => hnot (Or.inr (Or.inr ⟨hk, hs⟩))) hmid _ hr
    · intro h
      have hsuffix : A <:+ B := by
        rcases h with hge | rfl | ⟨-, hs⟩
        · exact absurd hge (Nat.not_le.2 hlt)
        · exact suffix_rfl
        · exact hs
      obtain ⟨db', hr, htip⟩ := replayBlocks_forward (N := N) (S := S) henum hA hB hne hsuffix
        hmid aal
      exact ⟨db', aal, hr, htip, replayBlocks_of_atTip htip⟩

end Chains

/-! ## A fork of two blocks -/

/-- The entry of a block with a hash, at a height. -/
def entryAt (nHeight hash : ℕ) : CBlockIndex := { sampleIndex nHeight with blockHash := hash }

/-- The genesis block. -/
def forkRoot : List CBlockIndex := [entryAt 0 7]

/-- One of the blocks on the genesis block. -/
def forkTip (n : ℕ) : List CBlockIndex := entryAt 1 (900 + n) :: forkRoot

/-- Each block has a coinbase of its own. -/
def forkBody (p : CBlockIndex) : CBlock := coinbaseBlock (p.blockHash - 900) p.blockHash 7

/-- The index and the files of the three blocks. -/
def forkStore : BlockStore where
  mapBlockIndex hash :=
    if hash = 7 then some forkRoot
    else if hash = 901 then some (forkTip 1)
    else if hash = 902 then some (forkTip 2)
    else none
  readBlockFromDisk p := some (forkBody p)
  undoReadFromDisk _ := some []

/-- The one coin of a block. -/
def forkCoin : Coin := ⟨⟨0, [0x51]⟩, true, false, 1⟩

/-- Its outpoint. -/
def forkPoint (n : ℕ) : COutPoint := ⟨(coinbaseAt n).getHash coinbaseHashes, 0⟩

theorem forkRoot_intact : Intact forkStore forkBody forkRoot := by
  refine ⟨⟨rfl, trivial⟩, fun _ => ⟨by decide, rfl⟩, fun _ _ => rfl, ?_⟩
  decide

theorem forkTip_intact {n : ℕ} (h : n = 1 ∨ n = 2) : Intact forkStore forkBody (forkTip n) := by
  rcases h with rfl | rfl
  all_goals
    refine ⟨⟨rfl, rfl, trivial⟩, fun _ => ⟨by decide, rfl⟩, fun _ _ => rfl, ?_⟩
    decide

theorem chainCoins_forkTip {n : ℕ} : chainCoins coinbaseHashes forkBody (forkTip n) =
    Function.update (fun _ => none) (forkPoint n) (some forkCoin) := by
  have hbody : (forkBody (entryAt 1 (900 + n))).vtx = [coinbaseAt n] := by
    show [coinbaseAt (900 + n - 900)] = _
    rw [Nat.add_sub_cancel_left]
  show entryCoins coinbaseHashes forkBody (entryAt 1 (900 + n)) (fun _ => none) = _
  rw [entryCoins, hbody]
  exact (foldl_addOutput_eq (coinbaseAt n) 1 _).symm

/-- The database at the genesis block. -/
def rootDB : CoinsDB := ⟨⟨fun _ => none, 7, CCoinsView.unspent_none⟩, []⟩

/-- The database at the first of the two blocks. -/
def leftDB : CoinsDB where
  getCoin := Function.update (fun _ => none) (forkPoint 1) (some forkCoin)
  bestBlock := 901
  unspent o c hc := by
    by_cases ho : o = forkPoint 1
    · rw [ho] at hc
      obtain ⟨⟩ := hc
      rfl
    · rw [update_of_ne ho] at hc
      cases hc
  headBlocks := []

/-- A change that is still empty. -/
def noChange (hash : UInt256) : CoinsLayer := ⟨fun _ => none, hash⟩

/-- The change from the genesis block to the first block. -/
def forwardLayer : CoinsLayer :=
  (noChange 901).setEntry (forkPoint 1) (some ⟨forkCoin, true, true⟩)

/-- The change from the first block to the second. -/
def reorgLayer : CoinsLayer :=
  ((noChange 902).setEntry (forkPoint 1) (some ⟨Coin.cleared, true, false⟩)).setEntry (forkPoint 2)
    (some ⟨forkCoin, true, true⟩)

/-- Every change fills a batch. -/
def oneByOne : BatchSize := ⟨0, List.length⟩

theorem entrySound_new : EntrySound (some ⟨forkCoin, true, true⟩) none := by
  refine ⟨?_, ?_, ?_⟩ <;> rintro _ ⟨⟩ he
  · rfl
  · cases he
  · cases he

theorem entrySound_spent {b : Option Coin} : EntrySound (some ⟨Coin.cleared, true, false⟩) b := by
  refine ⟨?_, ?_, ?_⟩ <;> rintro _ ⟨⟩ he
  · cases he
  · cases he
  · rfl

theorem exists_enumerate : ∃ enumerate : CoinsLayer → List COutPoint,
    ∀ l : CoinsLayer, l.Listed → Enumerates (enumerate l) l := by
  have hone : ∀ l : CoinsLayer, ∃ order, l.Listed → Enumerates order l := by
    intro l
    by_cases hl : l.Listed
    · obtain ⟨keys, hkeys⟩ := hl
      exact ⟨keys.dedup, fun _ => ⟨keys.nodup_dedup, fun o ho => mem_dedup.2 (hkeys o ho)⟩⟩
    · exact ⟨[], fun h => absurd h hl⟩
  choose enumerate henum using hone
  exact ⟨enumerate, henum⟩

/-- The keys of a map are those that were set. -/
theorem enumerates_setEntry {l : CoinsLayer} {order : List COutPoint} {o : COutPoint}
    {x : Option CCoinsCacheEntry} (h : Enumerates order l) (ho : o ∉ order) :
    Enumerates (order ++ [o]) (l.setEntry o x) := by
  refine ⟨nodup_append.2 ⟨h.nodup, nodup_singleton o, ?_⟩, fun p hp => ?_⟩
  · rintro a ha b hb rfl
    exact ho (mem_singleton.1 hb ▸ ha)
  by_cases hpo : p = o
  · exact mem_append_right _ (mem_singleton.2 hpo)
  · have hp : (l.cacheCoins p).isSome = true := by
      simpa [CoinsLayer.setEntry, hpo] using hp
    exact mem_append_left _ (h.complete p hp)

theorem enumerates_noChange {hash : UInt256} : Enumerates [] (noChange hash) :=
  ⟨nodup_nil, fun _ ho => by cases ho⟩

/-- A write of the first block, cut when the coin was written and the end
was not, is completed. -/
theorem forward_change_recovered : ∃ bs enumerate,
    rootDB.batches oneByOne (forwardLayer.entries [forkPoint 1]) (tipHash (forkTip 1)) = .ok bs ∧
    bs.length = 2 ∧
    Recovers coinbaseHashes sampleNode forkStore oneByOne enumerate
      ((bs.take 1).foldl CoinsDB.writeBatch rootDB) idleWorld (tipHash (forkTip 1))
      (chainCoins coinbaseHashes forkBody (forkTip 1)) := by
  obtain ⟨enumerate, henum⟩ := exists_enumerate
  refine ⟨_, enumerate, rfl, rfl, ?_⟩
  have hsound : forwardLayer.Sound rootDB.toCCoinsView :=
    CoinsLayer.Sound.setEntry (fun _ => entrySound_none) entrySound_new
  have hcoins : (forwardLayer.onto rootDB.toCCoinsView).getCoin =
      chainCoins coinbaseHashes forkBody (forkTip 1) := by
    rw [chainCoins_forkTip]
    exact CoinsLayer.getCoin_setEntry
  exact (replay_recovers_iff (A := forkRoot) henum forkRoot_intact
    (forkTip_intact (Or.inl rfl)) (by simp [forkTip]) ⟨rfl, rfl, rfl⟩ hsound.coherent hcoins
    (enumerates_setEntry enumerates_noChange (by simp)) rfl 1).2
    (Or.inr (Or.inr ⟨Nat.one_pos, suffix_cons _ _⟩))

/-- **A change to another branch is not completed:** cut after the first of
its batches, it leaves a database on which `ReplayBlocks` fails the
assertion of `DisconnectBlock`. -/
theorem reorg_not_recovered :
    Intact forkStore forkBody (forkTip 1) ∧ Intact forkStore forkBody (forkTip 2) ∧
    leftDB.AtTip (tipHash (forkTip 1)) (chainCoins coinbaseHashes forkBody (forkTip 1)) ∧
    reorgLayer.Sound leftDB.toCCoinsView ∧
    (reorgLayer.onto leftDB.toCCoinsView).getCoin =
      chainCoins coinbaseHashes forkBody (forkTip 2) ∧
    Enumerates [forkPoint 1, forkPoint 2] reorgLayer ∧
    ∃ bs, leftDB.batches oneByOne (reorgLayer.entries [forkPoint 1, forkPoint 2])
        (tipHash (forkTip 2)) = .ok bs ∧ bs.length = 3 ∧
      replayBlocks coinbaseHashes sampleNode forkStore oneByOne (fun _ => [])
        ((bs.take 1).foldl CoinsDB.writeBatch leftDB) idleWorld =
          .error (.fatal "assert(pindex->GetBlockHash() == view.GetBestBlock())") := by
  have hne : forkPoint 2 ≠ forkPoint 1 := by decide
  refine ⟨forkTip_intact (Or.inl rfl), forkTip_intact (Or.inr rfl), ⟨rfl, rfl, ?_⟩, ?_, ?_, ?_,
    _, rfl, rfl, rfl⟩
  · exact chainCoins_forkTip.symm
  · have hspent : ((noChange 902).setEntry (forkPoint 1)
        (some ⟨Coin.cleared, true, false⟩)).Sound leftDB.toCCoinsView :=
      CoinsLayer.Sound.setEntry (fun _ => entrySound_none) entrySound_spent
    refine hspent.setEntry ?_
    exact entrySound_new
  · have hbase : ((noChange 902).onto leftDB.toCCoinsView).getCoin =
        Function.update (fun _ => none) (forkPoint 1) (some forkCoin) :=
      funext fun _ => CoinsLayer.getCoin_onto
    rw [chainCoins_forkTip, reorgLayer, CoinsLayer.getCoin_setEntry, CoinsLayer.getCoin_setEntry,
      hbase, update_idem]
    exact congrArg (fun m : CoinSet => Function.update m (forkPoint 2) (some forkCoin))
      (update_eq_self_iff.2 rfl)
  · exact enumerates_setEntry (enumerates_setEntry enumerates_noChange (by simp)) (by simpa using hne)

end Slucore
