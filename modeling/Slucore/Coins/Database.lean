import Slucore.Coins.Stack
/-!
# Coins — the database and its batches

`CCoinsViewDB` keeps the coins, the best block and, while a change of tip
is being written, the two heads it leads from and to. `BatchWrite` goes
through a map of changes and hands the database one batch after another;
a crash leaves the first few of them written. The first batch marks the
change as begun and the last one as done, so in between the database is
a mixture: each coin is the old or the new one (`midChange_of_take`).
-/


namespace Slucore

open List

/-- `CCoinsViewDB`: the coins, `DB_BEST_BLOCK`, null where it is erased, and
`DB_HEAD_BLOCKS`. -/
structure CoinsDB extends CCoinsView where
  headBlocks : List UInt256

/-- One entry of a `CDBBatch`. A changed coin is erased if it is spent. -/
inductive DbWrite where
  | eraseBestBlock
  | writeHeadBlocks (hashes : List UInt256)
  | coin (o : COutPoint) (e : CCoinsCacheEntry)
  | eraseHeadBlocks
  | writeBestBlock (hash : UInt256)

/-- How `BatchWrite` cuts its writes into batches. -/
structure BatchSize where
  /-- `-dbbatchsize`. -/
  batchSize : ℕ
  /-- `CDBBatch::SizeEstimate`. -/
  sizeEstimate : List DbWrite → ℕ

namespace CoinsDB

variable (db : CoinsDB)

/-- The database after one write. -/
def applyWrite : DbWrite → CoinsDB
  | .eraseBestBlock => { db with bestBlock := 0 }
  | .writeHeadBlocks hashes => { db with headBlocks := hashes }
  | .coin o e => { db with toCCoinsView := db.toCCoinsView.writeCoin (o, e) }
  | .eraseHeadBlocks => { db with headBlocks := [] }
  | .writeBestBlock hash => { db with bestBlock := hash }

/-- The database after a batch; a batch is written as a whole. -/
def writeBatch (batch : List DbWrite) : CoinsDB := batch.foldl applyWrite db

/-- The tip that `BatchWrite` leads from. -/
def oldTip (hashBlock : UInt256) : Except Failure UInt256 :=
  if db.bestBlock = 0 then
    match db.headBlocks with
    | [new, old] =>
      if new = hashBlock then .ok old else .error (.fatal "assert(old_heads[0] == hashBlock)")
    | _ => .ok 0
  else .ok db.bestBlock

end CoinsDB

/-- The loop of `BatchWrite`: the batches it hands over, `batch` being the
one it has begun, and the last one. -/
def splitBatches (S : BatchSize) (hashBlock : UInt256) (batch : List DbWrite) :
    List (COutPoint × CCoinsCacheEntry) → List (List DbWrite)
  | [] => [batch ++ [.eraseHeadBlocks, .writeBestBlock hashBlock]]
  | (o, e) :: mapCoins =>
    let batch := if e.dirty then batch ++ [.coin o e] else batch
    if S.batchSize < S.sizeEstimate batch then batch :: splitBatches S hashBlock [] mapCoins
    else splitBatches S hashBlock batch mapCoins

namespace CoinsDB

variable (S : BatchSize) (db : CoinsDB)

/-- The batches of `CCoinsViewDB::BatchWrite`. -/
def batches (mapCoins : List (COutPoint × CCoinsCacheEntry)) (hashBlock : UInt256) :
    Except Failure (List (List DbWrite)) := do
  require (hashBlock != 0) (.fatal "assert(!hashBlock.IsNull())")
  let old ← db.oldTip hashBlock
  return splitBatches S hashBlock [.eraseBestBlock, .writeHeadBlocks [hashBlock, old]] mapCoins

/-- `CCoinsViewDB::BatchWrite`. -/
def batchWrite (mapCoins : List (COutPoint × CCoinsCacheEntry)) (hashBlock : UInt256) :
    Except Failure CoinsDB := do
  let bs ← db.batches S mapCoins hashBlock
  return bs.foldl writeBatch db

end CoinsDB

/-! ## What is written so far -/

variable {S : BatchSize} {hashBlock : UInt256} {batch : List DbWrite}
variable {mapCoins : List (COutPoint × CCoinsCacheEntry)} {db : CoinsDB}

/-- The writes of the changed coins of a map. -/
def coinWrites (mapCoins : List (COutPoint × CCoinsCacheEntry)) : List DbWrite :=
  (mapCoins.filter fun p => p.2.dirty).map fun p => .coin p.1 p.2

theorem coinWrites_cons (p : COutPoint × CCoinsCacheEntry)
    (mapCoins : List (COutPoint × CCoinsCacheEntry)) :
    coinWrites (p :: mapCoins) = coinWrites [p] ++ coinWrites mapCoins := by
  cases hd : p.2.dirty <;> simp [coinWrites, hd]

theorem splitBatches_cons {p : COutPoint × CCoinsCacheEntry} :
    splitBatches S hashBlock batch (p :: mapCoins) =
      if S.batchSize < S.sizeEstimate (batch ++ coinWrites [p]) then
        (batch ++ coinWrites [p]) :: splitBatches S hashBlock [] mapCoins
      else splitBatches S hashBlock (batch ++ coinWrites [p]) mapCoins := by
  have hbatch : batch ++ coinWrites [p] = if p.2.dirty then batch ++ [.coin p.1 p.2] else batch := by
    unfold coinWrites
    cases hd : p.2.dirty <;> simp [hd]
  rw [hbatch]
  rfl

/-- All batches together write the coins between the two marks. -/
theorem flatten_splitBatches : (splitBatches S hashBlock batch mapCoins).flatten =
    batch ++ coinWrites mapCoins ++ [.eraseHeadBlocks, .writeBestBlock hashBlock] := by
  induction mapCoins generalizing batch with
  | nil => simp [splitBatches, coinWrites]
  | cons p mapCoins ih =>
    rw [coinWrites_cons, splitBatches_cons]
    split <;> simp [ih]

/-- Some of the batches, but not all, write some of the coins after the
first mark. -/
theorem flatten_take_splitBatches {k : ℕ} (hk : 0 < k)
    (hlt : k < (splitBatches S hashBlock batch mapCoins).length) :
    ∃ done rest, mapCoins = done ++ rest ∧
      ((splitBatches S hashBlock batch mapCoins).take k).flatten = batch ++ coinWrites done := by
  induction mapCoins generalizing batch k with
  | nil =>
    rw [splitBatches, length_singleton] at hlt
    omega
  | cons p mapCoins ih =>
    rw [splitBatches_cons] at hlt ⊢
    split at hlt
    · rename_i hfull
      rw [if_pos hfull]
      obtain ⟨k, rfl⟩ := Nat.exists_eq_succ_of_ne_zero hk.ne'
      rcases Nat.eq_zero_or_pos k with rfl | hpos
      · exact ⟨[p], mapCoins, rfl, by simp⟩
      obtain ⟨done, rest, rfl, hw⟩ := ih hpos (Nat.lt_of_succ_lt_succ hlt)
      refine ⟨p :: done, rest, rfl, ?_⟩
      rw [take_succ_cons, flatten_cons, hw, coinWrites_cons p done, nil_append,
        List.append_assoc]
    · rename_i hfull
      rw [if_neg hfull]
      obtain ⟨done, rest, rfl, hw⟩ := ih hk hlt
      refine ⟨p :: done, rest, rfl, ?_⟩
      rw [hw, coinWrites_cons p done, List.append_assoc]

/-- The writes of coins change only the coins. -/
theorem foldl_coinWrites : (coinWrites mapCoins).foldl CoinsDB.applyWrite db =
    { db with toCCoinsView := mapCoins.foldl CCoinsView.writeCoin db.toCCoinsView } := by
  induction mapCoins generalizing db with
  | nil => rfl
  | cons p mapCoins ih =>
    rw [coinWrites_cons, foldl_append, ih]
    cases hd : p.2.dirty <;> simp [coinWrites, hd, CoinsDB.applyWrite, CCoinsView.writeCoin]

/-! ## The database between two batches and after the last -/

/-- The database in the middle of a change of tip: every coin is the old or
the new one. -/
structure CoinsDB.MidChange (db : CoinsDB) (new old : UInt256) (before after : CoinSet) : Prop where
  headBlocks : db.headBlocks = [new, old]
  bestBlock : db.bestBlock = 0
  mixture : ∀ o, db.getCoin o = before o ∨ db.getCoin o = after o

/-- The database at a tip, with no change begun. -/
structure CoinsDB.AtTip (db : CoinsDB) (tip : UInt256) (coins : CoinSet) : Prop where
  headBlocks : db.headBlocks = []
  bestBlock : db.bestBlock = tip
  getCoin : db.getCoin = coins

section Batches

variable {l : CoinsLayer} {order : List COutPoint} {old : UInt256} {bs : List (List DbWrite)}

theorem batches_eq_ok (h : db.batches S mapCoins hashBlock = .ok bs) :
    hashBlock ≠ 0 ∧ ∃ old, db.oldTip hashBlock = .ok old ∧
      bs = splitBatches S hashBlock [.eraseBestBlock, .writeHeadBlocks [hashBlock, old]] mapCoins := by
  simp only [CoinsDB.batches, bind_eq_ok, pure_eq_ok] at h
  obtain ⟨⟨⟩, hne, old, hold, hbs⟩ := h
  exact ⟨by simpa using hne, old, hold, hbs.symm⟩

theorem foldl_writeBatch (bs : List (List DbWrite)) :
    bs.foldl CoinsDB.writeBatch db = bs.flatten.foldl CoinsDB.applyWrite db :=
  foldl_flatten.symm

theorem bestBlock_foldl_writeCoin {view : CCoinsView} :
    (mapCoins.foldl CCoinsView.writeCoin view).bestBlock = view.bestBlock := by
  induction mapCoins generalizing view with
  | nil => rfl
  | cons p mapCoins ih =>
    rw [foldl_cons, ih]
    unfold CCoinsView.writeCoin
    split <;> rfl

/-- The best block, which the first batch erases, plays no part in what a
cache reads. -/
theorem coherent_onto_marked (hcoh : (l.onto db.toCCoinsView).Coherent) :
    (l.onto { db.toCCoinsView with bestBlock := 0 }).Coherent := ⟨hcoh.fresh, hcoh.clean⟩

section

variable (hcoh : (l.onto db.toCCoinsView).Coherent)
  (hbs : db.batches S (l.entries order) hashBlock = .ok bs)
include hcoh hbs

/-- **A write cut after some of its batches leaves a mixture.** -/
theorem midChange_of_take
    (hold : db.oldTip hashBlock = .ok old) {k : ℕ} (hk : 0 < k) (hlt : k < bs.length) :
    ((bs.take k).foldl CoinsDB.writeBatch db).MidChange hashBlock old db.getCoin
      (l.onto db.toCCoinsView).getCoin := by
  obtain ⟨-, old', hold', rfl⟩ := batches_eq_ok hbs
  obtain rfl : old = old' := Except.ok.inj (hold.symm.trans hold')
  obtain ⟨done, rest, hsplit, hwritten⟩ := flatten_take_splitBatches hk hlt
  rw [foldl_writeBatch, hwritten, foldl_append, foldl_coinWrites]
  refine ⟨rfl, bestBlock_foldl_writeCoin, fun o => ?_⟩
  -- what is written are entries of the cache
  have hget := getCoin_foldl_writeCoin (coherent_onto_marked hcoh) (fun p hp =>
    (mem_entries.1 (hsplit ▸ mem_append_left rest hp)).2) o
  split at hget
  · exact Or.inr (hget.trans (congrFun (CoinsLayer.getCoin_onto_congr rfl) o))
  · exact Or.inl hget

/-- **A write of all its batches leaves the new coins.** -/
theorem atTip_of_batches (horder : Enumerates order l) :
    (bs.foldl CoinsDB.writeBatch db).AtTip hashBlock (l.onto db.toCCoinsView).getCoin := by
  obtain ⟨-, old, -, rfl⟩ := batches_eq_ok hbs
  rw [foldl_writeBatch, flatten_splitBatches, foldl_append, foldl_append,
    foldl_coinWrites]
  exact ⟨rfl, rfl, (getCoin_foldl_entries horder (coherent_onto_marked hcoh)).trans
    (CoinsLayer.getCoin_onto_congr rfl)⟩

end

end Batches

end Slucore
