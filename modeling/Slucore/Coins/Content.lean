import Slucore.Coins.View
/-!
# Coins — what a view holds, and that its flags never distort it

The abstract coin set is a partial map from outpoints to coins. A cache
is `Coherent` when a FRESH entry has nothing below it and a clean entry
agrees with what is below; from such a cache, spending a coin is
erasing an outpoint of the abstract set and adding one is inserting it,
provided an insertion that is not announced as an overwrite meets no
coin (`addCoin_spec`). The two loops of `UpdateCoins` then are
`eraseInputs` and `insertOutputs`.
-/


namespace Slucore

open List Option Function

/-- The unspent coins a view holds. -/
abbrev CoinSet := COutPoint → Option Coin

namespace CCoinsViewCache

variable {H : Hashes} {view v v' w : CCoinsViewCache} {o : COutPoint} {c : Coin}

/-- The flags tell the truth about the view below. -/
structure Coherent (view : CCoinsViewCache) : Prop where
  fresh : ∀ o e, view.cacheCoins o = some e → e.fresh = true → view.base.getCoin o = none
  clean : ∀ o e, view.cacheCoins o = some e → e.dirty = false →
    view.base.getCoin o = if e.coin.isSpent then none else some e.coin

/-- A coherent cache over the same base, with the same block hash. -/
structure Follows (v w : CCoinsViewCache) : Prop where
  coherent : v.Coherent
  base : v.base = w.base
  hashBlock : v.hashBlock = w.hashBlock

theorem Follows.trans (h : v.Follows w) (h' : w.Follows view) : v.Follows view :=
  ⟨h.coherent, h.base.trans h'.base, h.hashBlock.trans h'.hashBlock⟩

theorem Coherent.follows (h : v.Coherent) : v.Follows v := ⟨h, rfl, rfl⟩

theorem coherent_ofBase (base : CCoinsView) : (ofBase base).Coherent :=
  ⟨fun _ _ h => by simp [ofBase] at h, fun _ _ h => by simp [ofBase] at h⟩

/-! ## Reads -/

theorem getCoin_eq : view.getCoin o =
    match view.cacheCoins o with
    | some e => if e.coin.isSpent then none else some e.coin
    | none => view.base.getCoin o := by
  unfold getCoin fetchCoin
  cases hc : view.cacheCoins o with
  | some e => rfl
  | none =>
    cases hb : view.base.getCoin o with
    | none => rfl
    | some c => simp [view.base.unspent o c hb]

theorem isSpent_of_getCoin (h : view.getCoin o = some c) : c.isSpent = false := by
  unfold getCoin at h
  split at h
  · split at h
    · cases h
    · rename_i e _ hs
      obtain rfl : e.coin = c := by simpa using h
      simpa using hs
  · cases h

/-- The view that a cache is to what reads it, and to what it is flushed
into. -/
def flushed (view : CCoinsViewCache) : CCoinsView :=
  ⟨view.getCoin, view.getBestBlock, fun _ _ => isSpent_of_getCoin⟩

theorem haveCoin_eq : view.haveCoin o = (view.getCoin o).isSome := by
  unfold haveCoin getCoin
  split
  · split <;> simp_all
  · rfl

theorem getCoin_eq_none_of_haveCoin (h : view.haveCoin o = false) : view.getCoin o = none := by
  simpa [haveCoin_eq] using h

theorem accessCoin_of_getCoin (h : view.getCoin o = some c) : view.accessCoin o = c := by
  unfold getCoin at h
  unfold accessCoin
  split at h
  · split at h
    · cases h
    · simpa using h
  · cases h

/-! ## Replacing one entry -/

variable {x y : Option CCoinsCacheEntry} {p : COutPoint}

theorem cacheCoins_setEntry (h : (view.setEntry o x).cacheCoins p = y) :
    p = o ∧ x = y ∨ view.cacheCoins p = y := by
  by_cases hpo : p = o
  · subst hpo
    exact .inl ⟨rfl, by simpa [setEntry] using h⟩
  · exact .inr (by simpa [setEntry, hpo] using h)

/-- A dirty entry may replace any other, and an entry may be dropped, as
long as nothing lies below where the flags say so. -/
theorem Coherent.setEntry (hc : view.Coherent)
    (hx : ∀ e, x = some e → e.dirty = true ∧ (e.fresh = true → view.base.getCoin o = none)) :
    (view.setEntry o x).Coherent := by
  refine ⟨fun p e hp hf => ?_, fun p e hp hd => ?_⟩ <;>
    rcases cacheCoins_setEntry hp with ⟨rfl, he⟩ | hp
  · exact (hx e he).2 hf
  · exact hc.fresh p e hp hf
  · rw [(hx e he).1] at hd
    cases hd
  · exact hc.clean p e hp hd

/-- What a view holds after an entry is replaced. -/
theorem getCoin_setEntry :
    (view.setEntry o x).getCoin = Function.update view.getCoin o
      (match x with
        | some e => if e.coin.isSpent then none else some e.coin
        | none => view.base.getCoin o) := by
  funext p
  by_cases hpo : p = o
  · subst hpo
    rw [getCoin_eq]
    simp [setEntry]
  · rw [update_of_ne hpo, getCoin_eq, getCoin_eq]
    simp [setEntry, update_of_ne hpo]

/-! ## Spending one coin -/

theorem spendCoin_eq_some : view.spendCoin o = some (c, v) ↔ ∃ e, view.fetchCoin o = some e ∧
    e.coin = c ∧ view.setEntry o (if e.fresh then none else some ⟨Coin.cleared, true, false⟩) = v := by
  unfold spendCoin
  cases view.fetchCoin o <;> simp

/-- A coin the view holds can be spent, and it is that coin that moves
out. -/
theorem spendCoin_of_getCoin (h : view.getCoin o = some c) :
    ∃ v, view.spendCoin o = some (c, v) := by
  unfold getCoin at h
  split at h
  · rename_i e he
    split at h
    · cases h
    · exact ⟨_, spendCoin_eq_some.2 ⟨e, he, Option.some.inj h, rfl⟩⟩
  · cases h

theorem getCoin_of_spendCoin_eq_none (h : view.spendCoin o = none) : view.getCoin o = none := by
  by_contra hc
  obtain ⟨c, hc⟩ := ne_none_iff_exists'.1 hc
  obtain ⟨v, hv⟩ := spendCoin_of_getCoin hc
  rw [h] at hv
  cases hv

/-- An entry that reads as FRESH has nothing below it. -/
theorem base_getCoin_of_fresh (hc : view.Coherent) {e : CCoinsCacheEntry}
    (he : view.fetchCoin o = some e) (hf : e.fresh = true) : view.base.getCoin o = none := by
  unfold fetchCoin at he
  split at he
  · obtain ⟨⟩ := he
    exact hc.fresh o _ ‹_› hf
  cases hb : view.base.getCoin o with
  | none => rfl
  | some d =>
    obtain rfl : (⟨d, false, d.isSpent⟩ : CCoinsCacheEntry) = e := by simpa [hb] using he
    simp [view.base.unspent o d hb] at hf

/-- **Spending erases the outpoint and nothing else.** -/
theorem spendCoin_spec (hc : view.Coherent) (h : view.spendCoin o = some (c, v)) :
    v.Follows view ∧ v.getCoin = Function.update view.getCoin o none := by
  obtain ⟨e, he, -, rfl⟩ := spendCoin_eq_some.1 h
  refine ⟨⟨hc.setEntry fun f hf => ?_, rfl, rfl⟩, ?_⟩
  · split at hf
    · cases hf
    · obtain ⟨⟩ := hf
      exact ⟨rfl, fun hff => by cases hff⟩
  · rw [getCoin_setEntry]
    by_cases hef : e.fresh = true
    · simp [hef, base_getCoin_of_fresh hc he hef]
    · simp [hef, Coin.isSpent, Coin.cleared, CTxOut.isNull, CTxOut.null]

/-! ## Adding one coin -/

variable {overwrite : Bool}

/-- What `AddCoin` leaves: a coin whose script can never be spent is passed
over, and any other gets a dirty entry. -/
theorem addCoin_cases (h : view.addCoin o c overwrite = .ok v) : c.isSpent = false ∧
    (c.out.scriptPubKey.isUnspendable = true ∧ v = view ∨
      c.out.scriptPubKey.isUnspendable = false ∧
        let old := (view.cacheCoins o).getD ⟨Coin.cleared, false, false⟩
        (overwrite = false → old.coin.isSpent = true) ∧
          v = view.setEntry o (some ⟨c, true, old.fresh || !overwrite && !old.dirty⟩)) := by
  unfold addCoin at h
  split at h
  · cases h
  rename_i hspent
  refine ⟨by simpa using hspent, ?_⟩
  split at h
  · exact .inl ⟨‹_›, (Except.ok.inj h).symm⟩
  rename_i hu
  dsimp only at h
  split at h
  · cases h
  · rename_i hold
    exact .inr ⟨by simpa using hu, by simpa using hold, (Except.ok.inj h).symm⟩

/-- A coin can be added where there is none, or where overwriting is
announced. -/
theorem addCoin_ok (hc : c.isSpent = false) (hn : overwrite = false →
    c.out.scriptPubKey.isUnspendable = false → view.getCoin o = none) :
    ∃ v, view.addCoin o c overwrite = .ok v := by
  unfold addCoin
  rw [hc, if_neg Bool.false_ne_true]
  split
  · exact ⟨view, rfl⟩
  rename_i hu
  dsimp only
  split
  · rename_i hold
    rw [Bool.and_eq_true, Bool.not_eq_true', Bool.not_eq_true'] at hold
    have hnone := hn hold.1 (by simpa using hu)
    rw [getCoin_eq] at hnone
    cases he : view.cacheCoins o with
    | none => simp [he, Coin.isSpent, Coin.cleared, CTxOut.isNull, CTxOut.null] at hold
    | some e =>
      simp only [he, getD_some] at hnone hold
      simp [hold.2] at hnone
  · exact ⟨_, rfl⟩

/-- Where the view holds no coin, a cached entry that is not dirty has
nothing below it. -/
theorem base_getCoin_of_not_dirty (hc : view.Coherent) (hn : view.getCoin o = none)
    (hd : ((view.cacheCoins o).getD ⟨Coin.cleared, false, false⟩).dirty = false) :
    view.base.getCoin o = none := by
  rw [getCoin_eq] at hn
  cases he : view.cacheCoins o with
  | none => simpa [he] using hn
  | some e =>
    simp only [he] at hn hd
    rw [hc.clean o e he hd]
    exact hn

/-- **Adding inserts the coin and nothing else**, unless its script can
never be spent, in which case the view stays as it is. An addition that
is not announced as an overwrite must meet no coin. -/
theorem addCoin_spec (hc : view.Coherent)
    (hn : overwrite = false → c.out.scriptPubKey.isUnspendable = false → view.getCoin o = none)
    (h : view.addCoin o c overwrite = .ok v) :
    v.Follows view ∧ v.getCoin = if c.out.scriptPubKey.isUnspendable then view.getCoin
      else Function.update view.getCoin o (some c) := by
  obtain ⟨hspent, ⟨hu, rfl⟩ | ⟨hu, -, rfl⟩⟩ := addCoin_cases h
  · exact ⟨hc.follows, by simp [hu]⟩
  refine ⟨⟨hc.setEntry fun f hf => ?_, rfl, rfl⟩, ?_⟩
  · obtain ⟨⟩ := hf
    refine ⟨rfl, fun hff => ?_⟩
    -- the flag is the old entry's, or set because the old one is clean
    simp only [Bool.or_eq_true, Bool.and_eq_true, Bool.not_eq_true'] at hff
    rcases hff with hff | ⟨how, hd⟩
    · cases he : view.cacheCoins o with
      | none => simp [he] at hff
      | some e => exact hc.fresh o e he (by simpa [he] using hff)
    · exact base_getCoin_of_not_dirty hc (hn how hu) hd
  · rw [getCoin_setEntry]
    simp [hspent, hu]

/-! ## Outpoints whose absence the cache can see

Without the overwrite flag `AddCoin` refuses to replace a coin of the
cache, but never looks below it. At a `Shielded` outpoint that makes no
difference: either the cache has an entry or there is nothing below. -/

/-- The cache has an entry for `o`, or the base has no coin there. -/
def Shielded (view : CCoinsViewCache) (o : COutPoint) : Prop :=
  view.cacheCoins o = none → view.base.getCoin o = none

theorem shielded_of_getCoin (h : view.getCoin o = none) : view.Shielded o := by
  intro hn
  rw [getCoin_eq, hn] at h
  exact h

theorem Shielded.setEntry (h : view.Shielded p)
    (hx : x = none → view.base.getCoin o = none) : (view.setEntry o x).Shielded p := by
  intro hn
  rcases cacheCoins_setEntry hn with ⟨rfl, hnone⟩ | hn
  · exact hx hnone
  · exact h hn

theorem Shielded.spendCoin (hc : view.Coherent) (h : view.Shielded p)
    (hs : view.spendCoin o = some (c, v)) : v.Shielded p := by
  obtain ⟨e, he, -, rfl⟩ := spendCoin_eq_some.1 hs
  refine h.setEntry fun hx => ?_
  split at hx
  · exact base_getCoin_of_fresh hc he ‹_›
  · cases hx

theorem Shielded.addCoin (h : view.Shielded p) (ha : view.addCoin o c overwrite = .ok v) :
    v.Shielded p := by
  obtain ⟨-, ⟨-, rfl⟩ | ⟨-, -, rfl⟩⟩ := addCoin_cases ha
  · exact h
  · exact h.setEntry fun hx => by cases hx

/-- **At a shielded outpoint an unannounced addition meets no coin.** -/
theorem getCoin_of_addCoin (hsh : view.Shielded o) (h : view.addCoin o c false = .ok v)
    (hu : c.out.scriptPubKey.isUnspendable = false) : view.getCoin o = none := by
  rw [getCoin_eq]
  cases he : view.cacheCoins o with
  | none => exact hsh he
  | some e =>
    obtain ⟨-, ⟨hu', -⟩ | ⟨-, hold, -⟩⟩ := addCoin_cases h
    · simp [hu] at hu'
    · rw [he] at hold
      exact if_pos (hold rfl)

end CCoinsViewCache

/-! ## The two loops of `UpdateCoins` -/

namespace CoinSet

/-- The coins left when every input has spent its own. -/
def eraseInputs (C : CoinSet) (vin : List CTxIn) : CoinSet :=
  fun o => if o ∈ vin.map CTxIn.prevout then none else C o

/-- The coin a transaction connected at height `nHeight` creates at `o`. -/
def created (H : Hashes) (tx : CTransaction) (nHeight : ℕ) : CoinSet := fun o =>
  if o.hash = tx.getHash H then
    match tx.vout[o.n]? with
    | some out =>
      if out.scriptPubKey.isUnspendable then none
      else some (Coin.make out nHeight tx.isCoinBase tx.isCoinStake)
    | none => none
  else none

/-- The coins of `C`, and those the transaction creates. -/
def insertOutputs (H : Hashes) (tx : CTransaction) (nHeight : ℕ) (C : CoinSet) : CoinSet :=
  fun o => (created H tx nHeight o).or (C o)

/-- The coins left when a transaction has spent its inputs; a coinbase
has none to spend. -/
def spend (tx : CTransaction) (C : CoinSet) : CoinSet :=
  if tx.isCoinBase then C else eraseInputs C tx.vin

variable {tx : CTransaction} {o : COutPoint}

/-- Spending makes no coin. -/
theorem of_spend_eq_some {C : CoinSet} {c : Coin} (h : spend tx C o = some c) : C o = some c := by
  unfold spend at h
  split at h
  · exact h
  · by_cases ho : o ∈ tx.vin.map CTxIn.prevout
    · simp [eraseInputs, ho] at h
    · simpa [eraseInputs, ho] using h

theorem eraseInputs_cons (C : CoinSet) (i : CTxIn) (vin : List CTxIn) :
    eraseInputs C (i :: vin) = eraseInputs (Function.update C i.prevout none) vin := by
  funext o
  by_cases ho : o = i.prevout
  · subst ho; simp [eraseInputs]
  · simp [eraseInputs, ho]

variable {H : Hashes} {nHeight : ℕ}

/-- What is created at `o`, in terms of the outputs and their indices. -/
theorem created_eq_some {c : Coin} : created H tx nHeight o = some c ↔ o.hash = tx.getHash H ∧
      ∃ out, (out, o.n) ∈ tx.vout.zipIdx ∧ out.scriptPubKey.isUnspendable = false ∧
        c = Coin.make out nHeight tx.isCoinBase tx.isCoinStake := by
  unfold created
  split
  · rename_i hh
    cases hv : tx.vout[o.n]? with
    | none => simp [List.mem_zipIdx_iff_getElem?, hv]
    | some out =>
      by_cases hu : out.scriptPubKey.isUnspendable = true
      · simp [List.mem_zipIdx_iff_getElem?, hv, hu]
      simp only [hu, Bool.false_eq_true, if_false, Option.some.injEq, hh, true_and,
        List.mem_zipIdx_iff_getElem?, hv]
      constructor
      · rintro rfl
        exact ⟨out, rfl, by simpa using hu, rfl⟩
      · rintro ⟨out', rfl, -, rfl⟩
        rfl
  · rename_i hh
    simp [hh]

/-- Nothing is created but the outputs that can be spent. -/
theorem created_eq_none (h : ∀ p ∈ tx.vout.zipIdx, p.1.scriptPubKey.isUnspendable = false →
    o ≠ ⟨tx.getHash H, p.2⟩) : created H tx nHeight o = none := by
  refine eq_none_iff_forall_ne_some.2 fun c hc => ?_
  obtain ⟨hhash, out, hmem, hu, -⟩ := created_eq_some.1 hc
  exact h _ hmem hu (by rw [← hhash])

/-- A set of coins with every spendable output of a transaction and nothing
else changed is the one with its outputs inserted. -/
theorem eq_insertOutputs {C C' : CoinSet}
    (hcreated : ∀ p ∈ tx.vout.zipIdx, p.1.scriptPubKey.isUnspendable = false →
      C' ⟨tx.getHash H, p.2⟩ = some (Coin.make p.1 nHeight tx.isCoinBase tx.isCoinStake))
    (hothers : ∀ o, (∀ p ∈ tx.vout.zipIdx, p.1.scriptPubKey.isUnspendable = false →
      o ≠ ⟨tx.getHash H, p.2⟩) → C' o = C o) :
    C' = insertOutputs H tx nHeight C := by
  funext o
  unfold insertOutputs
  cases hcr : created H tx nHeight o with
  | some c =>
    obtain ⟨hhash, out, hmem, hu, rfl⟩ := created_eq_some.1 hcr
    rw [some_or, ← hcreated _ hmem hu, ← hhash]
  | none =>
    refine hothers o fun p hp hu ho => ?_
    rw [ho, created_eq_some.2 ⟨rfl, p.1, hp, hu, rfl⟩] at hcr
    cases hcr

end CoinSet

namespace CCoinsViewCache

variable {H : Hashes} {view v v' : CCoinsViewCache} {tx : CTransaction} {nHeight : ℕ}

variable {undo : List Coin}

/-- What the loop over the inputs leaves of a view. -/
theorem foldlM_spendInput_spec {vin : List CTxIn} {acc : List Coin} (hc : view.Coherent)
    (h : vin.foldlM spendInput (view, acc) = .ok (v, undo)) :
    v.Follows view ∧ v.getCoin = CoinSet.eraseInputs view.getCoin vin ∧
      (∀ o, view.Shielded o → v.Shielded o) := by
  induction vin generalizing view acc with
  | nil =>
    obtain ⟨rfl, -⟩ := Prod.mk.inj (foldlM_nil_eq_ok.1 h)
    exact ⟨hc.follows, by funext o; simp [CoinSet.eraseInputs], fun _ => id⟩
  | cons i vin ih =>
    obtain ⟨⟨w, acc'⟩, hi, hrest⟩ := foldlM_cons_eq_ok.1 h
    unfold spendInput at hi
    split at hi
    · cases hi
    rename_i c w' hs
    obtain ⟨⟩ := hi
    obtain ⟨hf, hg⟩ := spendCoin_spec hc hs
    obtain ⟨hf', hg', hsh⟩ := ih hf.coherent hrest
    refine ⟨hf'.trans hf, ?_, fun o ho => hsh o (ho.spendCoin hc hs)⟩
    rw [hg', hg, CoinSet.eraseInputs_cons]

/-- What the loop over the inputs moves out, when it spends distinct coins
that are there. -/
theorem foldlM_spendInput_undo {vin : List CTxIn} {acc : List Coin} (hc : view.Coherent)
    (hnd : (vin.map CTxIn.prevout).Nodup)
    (hhave : ∀ i ∈ vin, view.haveCoin i.prevout = true)
    (h : vin.foldlM spendInput (view, acc) = .ok (v, undo)) :
    undo = acc ++ vin.map fun i => view.accessCoin i.prevout := by
  induction vin generalizing view acc with
  | nil =>
    obtain ⟨-, rfl⟩ := Prod.mk.inj (foldlM_nil_eq_ok.1 h)
    simp
  | cons i vin ih =>
    obtain ⟨⟨w, acc'⟩, hi, hrest⟩ := foldlM_cons_eq_ok.1 h
    rw [map_cons, nodup_cons] at hnd
    obtain ⟨c, hget⟩ := isSome_iff_exists.1
      (haveCoin_eq ▸ hhave i mem_cons_self)
    obtain ⟨w', hs⟩ := spendCoin_of_getCoin hget
    obtain ⟨rfl, rfl⟩ : w' = w ∧ acc ++ [c] = acc' := by
      simpa [spendInput, hs] using hi
    obtain ⟨hf, hg⟩ := spendCoin_spec hc hs
    -- the later inputs are other outpoints, so they still read the same coins
    have hsame : ∀ j ∈ vin, w'.getCoin j.prevout = view.getCoin j.prevout := by
      intro j hj
      rw [hg, update_of_ne]
      rintro heq
      exact hnd.1 (heq ▸ List.mem_map_of_mem hj)
    have hhave' : ∀ j ∈ vin, w'.haveCoin j.prevout = true := by
      intro j hj
      rw [haveCoin_eq, hsame j hj, ← haveCoin_eq]
      exact hhave j (mem_cons_of_mem i hj)
    rw [ih hf.coherent hnd.2 hhave' hrest, List.append_assoc, map_cons,
      accessCoin_of_getCoin hget, singleton_append]
    congr 2
    refine map_congr_left fun j hj => ?_
    obtain ⟨d, hd⟩ := isSome_iff_exists.1 (haveCoin_eq ▸ hhave' j hj)
    rw [accessCoin_of_getCoin hd, accessCoin_of_getCoin (hsame j hj ▸ hd)]

section Outputs

variable {txid : UInt256} {cb cs : Bool} {l : List (CTxOut × ℕ)}

/-- What the loop over the outputs does: it keeps the view coherent,
creates the spendable outputs where no coin was (unless the transaction
is a coinbase, which may overwrite), and touches nothing else. -/
structure AddedOutputs (txid : UInt256) (nHeight : ℕ) (cb cs : Bool) (l : List (CTxOut × ℕ))
    (view v : CCoinsViewCache) : Prop where
  coherent : v.Coherent
  base : v.base = view.base
  hashBlock : v.hashBlock = view.hashBlock
  created : ∀ out n, (out, n) ∈ l → out.scriptPubKey.isUnspendable = false →
    v.getCoin ⟨txid, n⟩ = some (Coin.make out nHeight cb cs)
  others : ∀ o, (∀ out, (out, o.n) ∈ l → o.hash = txid →
    out.scriptPubKey.isUnspendable = true) → v.getCoin o = view.getCoin o
  vacant : cb = false → ∀ out n, (out, n) ∈ l → out.scriptPubKey.isUnspendable = false →
    view.getCoin ⟨txid, n⟩ = none
  shielded : ∀ o, view.Shielded o → v.Shielded o

/-- **The loop over the outputs.** -/
theorem foldlM_addOutput_spec (hc : view.Coherent) (hnd : (l.map Prod.snd).Nodup)
    (hsh : cb = false → ∀ p ∈ l, p.1.scriptPubKey.isUnspendable = false →
      view.Shielded ⟨txid, p.2⟩)
    (h : l.foldlM (addOutput txid nHeight cb cs) view = .ok v) :
    AddedOutputs txid nHeight cb cs l view v := by
  induction l generalizing view with
  | nil =>
    obtain rfl := foldlM_nil_eq_ok.1 h
    exact ⟨hc, rfl, rfl, by simp, fun _ _ => rfl, by simp, fun _ => id⟩
  | cons p l ih =>
    obtain ⟨out, n⟩ := p
    obtain ⟨w, hadd, hrest⟩ := foldlM_cons_eq_ok.1 h
    rw [map_cons, nodup_cons] at hnd
    have hvac : cb = false → out.scriptPubKey.isUnspendable = false →
        view.getCoin ⟨txid, n⟩ = none := by
      rintro rfl hu
      exact getCoin_of_addCoin (hsh rfl _ mem_cons_self hu) hadd hu
    obtain ⟨hf, hg⟩ := addCoin_spec hc hvac hadd
    have hA := ih hf.coherent hnd.2
      (fun hcb q hq hu => (hsh hcb q (mem_cons_of_mem _ hq) hu).addCoin hadd) hrest
    -- this output's outpoint is not one of the later ones
    have hne : ∀ q ∈ l, q.2 ≠ n := fun q hq heq =>
      hnd.1 (List.mem_map.2 ⟨q, hq, heq⟩)
    have hw : ∀ o, o ≠ ⟨txid, n⟩ → w.getCoin o = view.getCoin o := by
      intro o ho
      rw [hg]
      split
      · rfl
      · exact update_of_ne ho ..
    refine ⟨hA.coherent, hA.base.trans hf.base, hA.hashBlock.trans hf.hashBlock, ?_, ?_, ?_,
      fun o ho => hA.shielded o (ho.addCoin hadd)⟩
    · intro out' n' hmem hu
      rcases mem_cons.1 hmem with heq | hmem
      · obtain ⟨⟩ := heq
        rw [hA.others _ fun out'' hm => absurd rfl (hne _ hm), hg]
        simp [Coin.make, hu]
      · exact hA.created out' n' hmem hu
    · intro o ho
      rw [hA.others o fun out' hm => ho out' (mem_cons_of_mem _ hm)]
      by_cases heq : o = ⟨txid, n⟩
      · subst heq
        have := ho out mem_cons_self rfl
        rw [hg]
        simp [Coin.make, this]
      · exact hw o heq
    · intro hcb out' n' hmem hu
      rcases mem_cons.1 hmem with heq | hmem
      · obtain ⟨⟩ := heq
        exact hvac hcb hu
      · rw [← hw ⟨txid, n'⟩ fun heq => hne _ hmem (COutPoint.mk.inj heq).2]
        exact hA.vacant hcb out' n' hmem hu

end Outputs

/-- The effect of `UpdateCoins` on what a view holds. -/
structure Updated (H : Hashes) (tx : CTransaction) (nHeight : ℕ) (view v : CCoinsViewCache) :
    Prop where
  coherent : v.Coherent
  base : v.base = view.base
  hashBlock : v.hashBlock = view.hashBlock
  getCoin : v.getCoin = CoinSet.insertOutputs H tx nHeight (CoinSet.spend tx view.getCoin)
  /-- Only a coinbase can write over a coin. -/
  vacant : tx.isCoinBase = false → ∀ o, (CoinSet.created H tx nHeight o).isSome →
    CoinSet.spend tx view.getCoin o = none
  shielded : ∀ o, view.Shielded o → v.Shielded o

/-- A coin after the update was there before or is created. -/
theorem Updated.cases (h : Updated H tx nHeight view v) (hc : v.getCoin o = some c) :
    view.getCoin o = some c ∨ CoinSet.created H tx nHeight o = some c := by
  rw [h.getCoin, CoinSet.insertOutputs, or_eq_some_iff] at hc
  exact hc.symm.imp (fun h => CoinSet.of_spend_eq_some h.2) id

/-- **What the transactions of `done` spent stays gone**, and what `tx` spends
is gone too. The outpoints of `K` are known, and `tx` creates none of them. -/
theorem Updated.gone {K : COutPoint → Prop} {done : List CTransaction}
    (h : Updated H tx nHeight view v)
    (hgone : ∀ t ∈ done, t.isCoinBase = false → ∀ o ∈ t.vin.map CTxIn.prevout,
      view.getCoin o = none ∧ K o)
    (hnew : ∀ o, K o → CoinSet.created H tx nHeight o = none)
    (hin : tx.isCoinBase = false → ∀ i ∈ tx.vin, K i.prevout) :
    ∀ t ∈ done ++ [tx], t.isCoinBase = false → ∀ o ∈ t.vin.map CTxIn.prevout,
      v.getCoin o = none ∧ K o := by
  intro t ht hcb o ho
  have hK : K o ∧ CoinSet.spend tx view.getCoin o = none := by
    rcases mem_append.1 ht with ht | ht
    · obtain ⟨hnone, hK⟩ := hgone t ht hcb o ho
      exact ⟨hK, eq_none_iff_forall_ne_some.2 fun c hc => by
        simp [CoinSet.of_spend_eq_some hc] at hnone⟩
    · obtain rfl := mem_singleton.1 ht
      obtain ⟨i, hi, rfl⟩ := List.mem_map.1 ho
      refine ⟨hin hcb i hi, ?_⟩
      rw [CoinSet.spend, if_neg (by simp [hcb]), CoinSet.eraseInputs, if_pos ho]
  rw [h.getCoin, CoinSet.insertOutputs, hnew o hK.1]
  exact hK.symm

theorem spendInputs_spec (hc : view.Coherent) (h : view.spendInputs tx = .ok (v, undo)) :
    v.Follows view ∧ v.getCoin = CoinSet.spend tx view.getCoin ∧
      (∀ o, view.Shielded o → v.Shielded o) := by
  unfold spendInputs at h
  unfold CoinSet.spend
  split at h
  · obtain ⟨⟩ := h
    exact ⟨hc.follows, by simp [*], fun _ => id⟩
  · rename_i hcb
    simp only [hcb]
    exact foldlM_spendInput_spec hc h

/-- `UpdateCoins` as its two loops: what matters is that the outpoints it
creates are shielded once the inputs are spent. -/
theorem updateCoins_of_shielded (hc : view.Coherent)
    (hsh : ∀ w : CCoinsViewCache, w.Coherent → w.getCoin = CoinSet.spend tx view.getCoin →
      (∀ o, view.Shielded o → w.Shielded o) → tx.isCoinBase = false →
      ∀ p ∈ tx.vout.zipIdx, p.1.scriptPubKey.isUnspendable = false →
        w.Shielded ⟨tx.getHash H, p.2⟩)
    (h : view.updateCoins H tx nHeight = .ok (v, undo)) : Updated H tx nHeight view v := by
  simp only [updateCoins, bind_eq_ok, Prod.exists] at h
  obtain ⟨w, undo', hspend, w', hadd, rfl, rfl⟩ := h
  obtain ⟨hf, hg, hshw⟩ := spendInputs_spec hc hspend
  have hnd : (tx.vout.zipIdx.map Prod.snd).Nodup := by
    rw [zipIdx_map_snd]
    exact nodup_range'
  have hA := foldlM_addOutput_spec hf.coherent hnd (hsh w hf.coherent hg hshw) hadd
  refine ⟨hA.coherent, hA.base.trans hf.base, hA.hashBlock.trans hf.hashBlock, ?_, ?_,
    fun o ho => hA.shielded o (hshw o ho)⟩
  · rw [← hg]
    refine CoinSet.eq_insertOutputs (fun p => hA.created p.1 p.2) fun o ho => ?_
    refine hA.others o fun out hmem hhash => by_contra fun hu => ?_
    exact ho _ hmem (by simpa using hu) (by rw [← hhash])
  intro hcb o ho
  obtain ⟨c, hcr⟩ := isSome_iff_exists.1 ho
  obtain ⟨hhash, out, hmem, hu, -⟩ := CoinSet.created_eq_some.1 hcr
  rw [← hg, ← hA.vacant hcb out o.n hmem hu, ← hhash]

/-- **`UpdateCoins` spends the inputs and inserts the outputs**, at any
view in which the new outpoints are shielded. -/
theorem updateCoins_spec (hc : view.Coherent)
    (hsh : tx.isCoinBase = false → ∀ n, view.Shielded ⟨tx.getHash H, n⟩)
    (h : view.updateCoins H tx nHeight = .ok (v, undo)) : Updated H tx nHeight view v :=
  updateCoins_of_shielded hc (fun _ _ _ hkeep hcb p _ _ => hkeep _ (hsh hcb p.2)) h

/-- The same where no coin is written over. -/
theorem updateCoins_of_vacant (hc : view.Coherent)
    (hvac : ∀ o, (CoinSet.created H tx nHeight o).isSome → CoinSet.spend tx view.getCoin o = none)
    (h : view.updateCoins H tx nHeight = .ok (v, undo)) : Updated H tx nHeight view v := by
  refine updateCoins_of_shielded hc (fun w _ hg _ _ p hp hu => shielded_of_getCoin ?_) h
  have hcr : CoinSet.created H tx nHeight ⟨tx.getHash H, p.2⟩ = some _ :=
    CoinSet.created_eq_some.2 ⟨rfl, p.1, hp, hu, rfl⟩
  rw [hg]
  exact hvac _ (by rw [hcr]; rfl)

end CCoinsViewCache

end Slucore
