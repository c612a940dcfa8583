import Slucore.Coins.Content
import Slucore.Common.Refinement
/-!
# Coins — stacks of caches over a plain map

Caches are stacked: each reads the one below it, and writes its changes
into it when it is flushed. `CoinsStack` is such a stack over a base map,
with the operations of the source: reads, which leave a copy in every
cache they pass through, `AddCoin` and `SpendCoin` on the top, `Uncache`,
`BatchWrite` and `Flush`. What the stack stands for is one plain map for
each cache and one for the base (`coinMaps`), and on those maps adding
inserts, spending deletes and a flush copies a map to the one below.

The flags are judged outpoint by outpoint: `EntrySound x b` says that an
entry `x` tells the truth about the coin `b` below it, and
`writeEntry_spec` is the whole of the flag algebra of `BatchWrite`.
-/


namespace Slucore

open List CCoinsViewCache Function CCoinsCacheEntry Option

namespace CCoinsCacheEntry

/-- What an entry means: its coin, unless that is spent. -/
def value (e : CCoinsCacheEntry) : Option Coin := if e.coin.isSpent then none else some e.coin

end CCoinsCacheEntry

/-- What is read through an entry that may be there, over what is below. -/
def valueOver (x : Option CCoinsCacheEntry) (b : Option Coin) : Option Coin :=
  match x with
  | some e => e.value
  | none => b

/-- `CCoinsViewCache` apart from the view it is over. -/
structure CoinsLayer where
  cacheCoins : COutPoint → Option CCoinsCacheEntry
  hashBlock : UInt256

namespace CoinsLayer

variable (l : CoinsLayer)

/-- The cache over a view. -/
def onto (base : CCoinsView) : CCoinsViewCache := ⟨base, l.cacheCoins, l.hashBlock⟩

/-- The cache with the entry of `o` replaced, or erased. -/
def setEntry (o : COutPoint) (entry : Option CCoinsCacheEntry) : CoinsLayer :=
  { l with cacheCoins := Function.update l.cacheCoins o entry }

/-- The cache after `cacheCoins.clear()`. -/
def cleared : CoinsLayer := { l with cacheCoins := fun _ => none }

/-- `CCoinsViewCache::Uncache`. -/
def uncache (o : COutPoint) : CoinsLayer :=
  if (l.cacheCoins o).any fun e => !e.dirty && !e.fresh then l.setEntry o none else l

/-- The entries of the cache in the order in which the map enumerates its
keys. -/
def entries (order : List COutPoint) : List (COutPoint × CCoinsCacheEntry) :=
  order.filterMap fun o => (l.cacheCoins o).map fun e => (o, e)

/-- What one turn of the loop of `BatchWrite` makes of the entry `us` of the
parent cache, for the entry `e` of the child. -/
def writeEntry (us : Option CCoinsCacheEntry) (e : CCoinsCacheEntry) :
    Except Failure (Option CCoinsCacheEntry) :=
  if !e.dirty then .ok us
  else
    match us with
    | none => if e.fresh && e.coin.isSpent then .ok none else .ok (some ⟨e.coin, true, e.fresh⟩)
    | some us =>
      if e.fresh && !us.coin.isSpent then
        .error (.fatal "FRESH flag misapplied to cache entry for base transaction with spendable outputs")
      else if us.fresh && e.coin.isSpent then .ok none
      else .ok (some ⟨e.coin, true, us.fresh⟩)

/-- One turn of the loop of `CCoinsViewCache::BatchWrite`. -/
def writeInto (parent : CoinsLayer) (p : COutPoint × CCoinsCacheEntry) :
    Except Failure CoinsLayer := do
  let us ← writeEntry (parent.cacheCoins p.1) p.2
  return parent.setEntry p.1 us

/-- `CCoinsViewCache::BatchWrite`. -/
def batchWrite (mapCoins : List (COutPoint × CCoinsCacheEntry)) (hashBlock : UInt256) :
    Except Failure CoinsLayer := do
  let l ← mapCoins.foldlM writeInto l
  return { l with hashBlock }

end CoinsLayer

namespace CCoinsView

/-- One turn of the loop of `BatchWrite` of a plain map: a spent coin is
erased and an unspent one stored. -/
def writeCoin (base : CCoinsView) (p : COutPoint × CCoinsCacheEntry) : CCoinsView :=
  if p.2.dirty then
    { base with
      getCoin := Function.update base.getCoin p.1 p.2.value
      unspent := by
        intro o c hc
        by_cases ho : o = p.1
        · subst ho
          rw [update_self, CCoinsCacheEntry.value] at hc
          split at hc
          · cases hc
          · simp_all
        · rw [update_of_ne ho] at hc
          exact base.unspent o c hc }
  else base

/-- `BatchWrite` of a plain map. -/
def batchWrite (base : CCoinsView) (mapCoins : List (COutPoint × CCoinsCacheEntry))
    (hashBlock : UInt256) : CCoinsView :=
  let base := mapCoins.foldl writeCoin base
  if hashBlock = 0 then base else { base with bestBlock := hashBlock }

end CCoinsView

/-! ## The stack and its operations -/

/-- The view that a stack of caches, top first, is to what lies over it. -/
def coinsView (base : CCoinsView) : List CoinsLayer → CCoinsView
  | [] => base
  | l :: below => (l.onto (coinsView base below)).flushed

/-- The plain map of every cache, top first, and of the base. -/
def coinMaps (base : CCoinsView) : List CoinsLayer → List CoinSet
  | [] => [base.getCoin]
  | l :: below => (coinsView base (l :: below)).getCoin :: coinMaps base below

/-- What `FetchCoin` on the top cache leaves: a copy of the coin in every
cache down to the one that has it. -/
def fetchLayers (base : CCoinsView) (o : COutPoint) : List CoinsLayer → List CoinsLayer
  | [] => []
  | l :: below =>
    l.setEntry o ((l.onto (coinsView base below)).fetchCoin o) ::
      if (l.cacheCoins o).isSome then below else fetchLayers base o below

/-- `AddCoin` on the top cache. -/
def addLayers (base : CCoinsView) (o : COutPoint) (coin : Coin) (possibleOverwrite : Bool) :
    List CoinsLayer → Except Failure (List CoinsLayer)
  | [] => .error (.fatal "no cache")
  | l :: below => do
    let v ← (l.onto (coinsView base below)).addCoin o coin possibleOverwrite
    return ⟨v.cacheCoins, v.hashBlock⟩ :: below

/-- `SpendCoin` on the top cache, with what it leaves in a `moveout` that
was empty. -/
def spendLayers (base : CCoinsView) (o : COutPoint) (layers : List CoinsLayer) :
    Coin × List CoinsLayer :=
  match fetchLayers base o layers with
  | [] => (Coin.cleared, [])
  | l :: below =>
    match (l.onto (coinsView base below)).spendCoin o with
    | none => (Coin.cleared, l :: below)
    | some (c, v) => (c, ⟨v.cacheCoins, v.hashBlock⟩ :: below)

/-- `Uncache` on the top cache. -/
def uncacheLayers (o : COutPoint) : List CoinsLayer → List CoinsLayer
  | [] => []
  | l :: below => l.uncache o :: below

/-- `Flush` of the top cache, whose map enumerates its keys in this order. -/
def flushLayers (base : CCoinsView) (order : List COutPoint) :
    List CoinsLayer → Except Failure (CCoinsView × List CoinsLayer)
  | [] => .error (.fatal "no cache")
  | [l] => .ok (base.batchWrite (l.entries order) l.hashBlock, [l.cleared])
  | l :: parent :: below => do
    let parent ← parent.batchWrite (l.entries order) l.hashBlock
    return (base, l.cleared :: parent :: below)

/-- An operation on the stack below the first `i` caches. -/
def atDepth (f : List CoinsLayer → List CoinsLayer) : ℕ → List CoinsLayer → List CoinsLayer
  | 0, layers => f layers
  | i + 1, l :: below => l :: atDepth f i below
  | _ + 1, [] => []

/-- `Flush` of the cache below the first `i`. -/
def flushAt (base : CCoinsView) (order : List COutPoint) :
    ℕ → List CoinsLayer → Except Failure (CCoinsView × List CoinsLayer)
  | 0, layers => flushLayers base order layers
  | i + 1, l :: below => do
    let (base, below) ← flushAt base order i below
    return (base, l :: below)
  | _ + 1, [] => .error (.fatal "no cache")

/-- A stack of caches over a base map. -/
structure CoinsStack where
  base : CCoinsView
  layers : List CoinsLayer

/-- The operations, on the cache number `i` from the top where one is given.
`BatchWrite` of the top cache into the next one empties the map it is
passed, so it is the flush of the top. -/
inductive CoinsOp where
  | getCoin (i : ℕ) (o : COutPoint)
  | haveCoin (i : ℕ) (o : COutPoint)
  | accessCoin (i : ℕ) (o : COutPoint)
  | addCoin (o : COutPoint) (coin : Coin) (possibleOverwrite : Bool)
  | spendCoin (o : COutPoint)
  | uncache (i : ℕ) (o : COutPoint)
  | flush (i : ℕ) (order : List COutPoint)

/-- What an operation answers; for `SpendCoin`, the coin it moves out. The
`bool` that it returns is not an answer about the coin: it is true of an
entry that is there, also where the coin was spent before. -/
inductive CoinsAnswer where
  | coin (c : Option Coin)
  | held (b : Bool)
  | access (c : Coin)
  | done
deriving DecidableEq, Repr

namespace CoinsStack

variable (s : CoinsStack)

/-- The cache number `i` from the top. -/
def cache (i : ℕ) : Option CCoinsViewCache :=
  match s.layers.drop i with
  | [] => none
  | l :: below => some (l.onto (coinsView s.base below))

/-- The stack after a read of the cache number `i`. -/
def fetched (i : ℕ) (o : COutPoint) : CoinsStack :=
  { s with layers := atDepth (fetchLayers s.base o) i s.layers }

/-- One operation. -/
def step : CoinsOp → Except Failure (CoinsAnswer × CoinsStack)
  | .getCoin i o => do
    let v ← orThrow (s.cache i) (.fatal "no cache")
    return (.coin (v.getCoin o), s.fetched i o)
  | .haveCoin i o => do
    let v ← orThrow (s.cache i) (.fatal "no cache")
    return (.held (v.haveCoin o), s.fetched i o)
  | .accessCoin i o => do
    let v ← orThrow (s.cache i) (.fatal "no cache")
    return (.access (v.accessCoin o), s.fetched i o)
  | .addCoin o coin possibleOverwrite => do
    let layers ← addLayers s.base o coin possibleOverwrite s.layers
    return (.done, { s with layers })
  | .spendCoin o =>
    let (c, layers) := spendLayers s.base o s.layers
    .ok (.access c, { s with layers })
  | .uncache i o => .ok (.done, { s with layers := atDepth (uncacheLayers o) i s.layers })
  | .flush i order => do
    let (base, layers) ← flushAt s.base order i s.layers
    return (.done, ⟨base, layers⟩)

end CoinsStack

/-! ## The plain maps -/

/-- One operation on plain maps, the top first: a query reads the map it is
put to, adding inserts into the first map unless the script can never be
spent, spending takes a coin out of it, a flush copies a map to the next,
and the rest does nothing. -/
def specStep (maps : List CoinSet) : CoinsOp → CoinsAnswer × List CoinSet
  | .getCoin i o => (.coin ((maps[i]?.getD fun _ => none) o), maps)
  | .haveCoin i o => (.held ((maps[i]?.getD fun _ => none) o).isSome, maps)
  | .accessCoin i o => (.access (((maps[i]?.getD fun _ => none) o).getD Coin.cleared), maps)
  | .addCoin o coin _ => (.done, maps.modify 0 fun m =>
      if coin.out.scriptPubKey.isUnspendable then m else Function.update m o (some coin))
  | .spendCoin o => (.access (((maps[0]?.getD fun _ => none) o).getD Coin.cleared),
      maps.modify 0 fun m => Function.update m o none)
  | .uncache _ _ => (.done, maps)
  | .flush i _ => (.done, maps.set (i + 1) (maps[i]?.getD fun _ => none))

/-! ## Entries that tell the truth -/

/-- The flags of an entry tell the truth about the coin below it, and a
spent coin is an empty one. -/
structure EntrySound (x : Option CCoinsCacheEntry) (b : Option Coin) : Prop where
  fresh : ∀ e, x = some e → e.fresh = true → b = none
  clean : ∀ e, x = some e → e.dirty = false → b = e.value
  cleared : ∀ e, x = some e → e.coin.isSpent = true → e.coin = Coin.cleared

/-- The entries of a cache tell the truth about the view below it. -/
def CoinsLayer.Sound (l : CoinsLayer) (base : CCoinsView) : Prop :=
  ∀ o, EntrySound (l.cacheCoins o) (base.getCoin o)

/-- Every cache of a stack tells the truth about the caches below it. -/
def StackSound (base : CCoinsView) : List CoinsLayer → Prop
  | [] => True
  | l :: below => l.Sound (coinsView base below) ∧ StackSound base below

variable {l parent : CoinsLayer} {base base' : CCoinsView} {o : COutPoint}
variable {x us : Option CCoinsCacheEntry} {e : CCoinsCacheEntry} {b : Option Coin}
variable {layers : List CoinsLayer}

theorem entrySound_none : EntrySound none b := by
  refine ⟨?_, ?_, ?_⟩ <;> rintro _ ⟨⟩

theorem CCoinsCacheEntry.value_eq_none : e.value = none ↔ e.coin.isSpent = true := by
  unfold value
  split <;> simp_all

variable {c : Coin}

/-- An entry without flags that holds what is below is sound. -/
theorem entrySound_copy (h : c.isSpent = false) :
    EntrySound (some ⟨c, false, false⟩) (some c) := by
  refine ⟨?_, ?_, ?_⟩ <;> rintro _ ⟨⟩ he
  · cases he
  · simp [CCoinsCacheEntry.value, h]
  · rw [h] at he
    cases he

/-- **The flag algebra of `BatchWrite`:** the entry of a child that tells the
truth about its parent is written into the parent without an error, and
what is then read in the parent is what was read in the child. -/
theorem writeEntry_spec (hus : EntrySound us b) (he : EntrySound (some e) (valueOver us b)) :
    ∃ us', CoinsLayer.writeEntry us e = .ok us' ∧ EntrySound us' b ∧ valueOver us' b = e.value := by
  unfold CoinsLayer.writeEntry
  rcases Bool.eq_false_or_eq_true e.dirty with hd | hd
  swap
  · -- a clean entry agrees with the parent, which stays as it is
    exact ⟨us, by simp [hd], hus, he.clean e rfl hd⟩
  simp only [hd, Bool.not_true, Bool.false_eq_true, if_false]
  cases us with
  | none =>
    have hfresh : e.fresh = true → b = none := he.fresh e rfl
    dsimp only
    split
    · -- fresh and spent: neither the parent nor what is below has the coin
      rename_i hfs
      obtain ⟨hf, hs⟩ := Bool.and_eq_true_iff.1 hfs
      refine ⟨none, rfl, entrySound_none, ?_⟩
      rw [show valueOver none b = b from rfl, hfresh hf, eq_comm, value_eq_none]
      exact hs
    · refine ⟨_, rfl, ⟨?_, ?_, ?_⟩, rfl⟩ <;> rintro _ ⟨⟩ h
      · exact hfresh h
      · cases h
      · exact he.cleared e rfl h
  | some us =>
    have hfresh : e.fresh = true → us.coin.isSpent = true := fun hf =>
      value_eq_none.1 (he.fresh e rfl hf)
    dsimp only
    split
    · -- a fresh entry over a coin of the parent would be a lie
      rename_i hbad
      obtain ⟨hf, hs⟩ := Bool.and_eq_true_iff.1 hbad
      simp [hfresh hf] at hs
    · split
      · rename_i hfs
        obtain ⟨hf, hs⟩ := Bool.and_eq_true_iff.1 hfs
        refine ⟨none, rfl, entrySound_none, ?_⟩
        rw [show valueOver none b = b from rfl, hus.fresh us rfl hf, eq_comm,
          value_eq_none]
        exact hs
      · refine ⟨_, rfl, ⟨?_, ?_, ?_⟩, rfl⟩ <;> rintro _ ⟨⟩ h
        · exact hus.fresh us rfl h
        · cases h
        · exact he.cleared e rfl h

/-! ## One cache -/

namespace CoinsLayer

theorem getCoin_onto :
    (l.onto base).getCoin o = valueOver (l.cacheCoins o) (base.getCoin o) := by
  rw [getCoin_eq]
  rfl

theorem Sound.coherent (h : l.Sound base) : (l.onto base).Coherent :=
  ⟨fun o => (h o).fresh, fun o => (h o).clean⟩

theorem Sound.congr (h : l.Sound base) (hb : base'.getCoin = base.getCoin) : l.Sound base' := by
  intro o
  rw [hb]
  exact h o

theorem getCoin_onto_congr (hb : base'.getCoin = base.getCoin) :
    (l.onto base').getCoin = (l.onto base).getCoin := by
  funext o
  rw [getCoin_onto, getCoin_onto, hb]

theorem Sound.setEntry (h : l.Sound base) (hx : EntrySound x (base.getCoin o)) :
    (l.setEntry o x).Sound base := by
  intro p
  by_cases hp : p = o
  · subst hp
    simpa [CoinsLayer.setEntry] using hx
  · simpa [CoinsLayer.setEntry, hp] using h p

theorem getCoin_setEntry : ((l.setEntry o x).onto base).getCoin =
    Function.update (l.onto base).getCoin o (valueOver x (base.getCoin o)) := by
  funext p
  by_cases hp : p = o
  · subst hp
    simp [getCoin_onto, CoinsLayer.setEntry]
  · simp [getCoin_onto, CoinsLayer.setEntry, hp]

/-- Replacing an entry by one that reads the same changes nothing that is
read. -/
theorem getCoin_setEntry_of_eq (h : valueOver x (base.getCoin o) = (l.onto base).getCoin o) :
    ((l.setEntry o x).onto base).getCoin = (l.onto base).getCoin := by
  rw [getCoin_setEntry, h, update_eq_self]

/-- The entry that `FetchCoin` finds or makes is sound and reads as the
cache does. -/
theorem Sound.fetchCoin (h : l.Sound base) (o : COutPoint) :
    EntrySound ((l.onto base).fetchCoin o) (base.getCoin o) ∧
      valueOver ((l.onto base).fetchCoin o) (base.getCoin o) = (l.onto base).getCoin o := by
  rw [getCoin_onto]
  have hx := h o
  cases hc : l.cacheCoins o with
  | some e =>
    rw [hc] at hx
    have hf : (l.onto base).fetchCoin o = some e := by simp [CCoinsViewCache.fetchCoin, onto, hc]
    rw [hf]
    exact ⟨hx, rfl⟩
  | none =>
    have hf : (l.onto base).fetchCoin o =
        (base.getCoin o).map fun c => ⟨c, false, c.isSpent⟩ := by
      simp [CCoinsViewCache.fetchCoin, onto, hc]
    rw [hf]
    cases hb : base.getCoin o with
    | none => exact ⟨entrySound_none, rfl⟩
    | some c =>
      have hs := base.unspent o c hb
      simp only [map_some, hs]
      exact ⟨entrySound_copy hs, by simp [valueOver, CCoinsCacheEntry.value, hs]⟩

/-- A spent coin that is referred to is an empty one, as a missing coin
is. -/
theorem Sound.accessCoin (h : l.Sound base) (o : COutPoint) :
    (l.onto base).accessCoin o = ((l.onto base).getCoin o).getD Coin.cleared := by
  obtain ⟨hentry, -⟩ := h.fetchCoin o
  unfold CCoinsViewCache.accessCoin CCoinsViewCache.getCoin
  cases hf : (l.onto base).fetchCoin o with
  | none => rfl
  | some e =>
    dsimp only
    split
    · rename_i hs
      exact hentry.cleared e hf hs
    · rfl

end CoinsLayer

/-! ## Whole stacks -/

theorem head?_coinMaps : (coinMaps base layers).head? = some (coinsView base layers).getCoin := by
  cases layers <;> rfl

variable {layers' : List CoinsLayer}

/-- A stack with the same maps reads the same. -/
theorem coinsView_eq_of_coinMaps (h : coinMaps base' layers' = coinMaps base layers) :
    (coinsView base' layers').getCoin = (coinsView base layers).getCoin := by
  have hh := congrArg List.head? h
  rw [head?_coinMaps, head?_coinMaps] at hh
  exact some.inj hh

/-- The caches above do not notice a change of the caches below that keeps
what is read. -/
theorem stackSound_cons_of_coinMaps
    (h : StackSound base (l :: layers)) (hs : StackSound base' layers')
    (hm : (coinsView base' layers').getCoin = (coinsView base layers).getCoin) :
    StackSound base' (l :: layers') ∧
      coinMaps base' (l :: layers') = (coinsView base (l :: layers)).getCoin ::
        coinMaps base' layers' := by
  refine ⟨⟨h.1.congr hm, hs⟩, ?_⟩
  show (l.onto (coinsView base' layers')).getCoin :: _ = _
  rw [CoinsLayer.getCoin_onto_congr hm]
  rfl

/-- The caches are sound and read as `layers` do. -/
def ReadsAs (base : CCoinsView) (layers layers' : List CoinsLayer) : Prop :=
  StackSound base layers' ∧ coinMaps base layers' = coinMaps base layers

/-- **A read changes nothing that is read**, in any cache. -/
theorem fetchLayers_spec (o : COutPoint) (h : StackSound base layers) :
    ReadsAs base layers (fetchLayers base o layers) := by
  induction layers with
  | nil => exact ⟨trivial, rfl⟩
  | cons l below ih =>
    obtain ⟨hentry, hvalue⟩ := h.1.fetchCoin o
    obtain ⟨hs, hm⟩ : ReadsAs base below
        (if (l.cacheCoins o).isSome then below else fetchLayers base o below) := by
      split
      · exact ⟨h.2, rfl⟩
      · exact ih h.2
    have hl : StackSound base (l.setEntry o ((l.onto (coinsView base below)).fetchCoin o) :: below) :=
      ⟨h.1.setEntry hentry, h.2⟩
    obtain ⟨hsound, hmaps⟩ := stackSound_cons_of_coinMaps hl hs (coinsView_eq_of_coinMaps hm)
    refine ⟨hsound, ?_⟩
    rw [fetchLayers, hmaps, hm]
    show ((l.setEntry o _).onto (coinsView base below)).getCoin :: _ = _
    rw [CoinsLayer.getCoin_setEntry_of_eq hvalue]
    rfl

/-- Nor does dropping an entry without flags. -/
theorem CoinsLayer.Sound.uncache (h : l.Sound base) (o : COutPoint) :
    (l.uncache o).Sound base ∧ ((l.uncache o).onto base).getCoin = (l.onto base).getCoin := by
  unfold CoinsLayer.uncache
  split
  · rename_i hany
    refine ⟨h.setEntry entrySound_none, CoinsLayer.getCoin_setEntry_of_eq ?_⟩
    rw [CoinsLayer.getCoin_onto]
    cases hc : l.cacheCoins o with
    | none => rfl
    | some e =>
      have hd : e.dirty = false := by
        rw [hc] at hany
        simpa using (Bool.and_eq_true_iff.1 hany).1
      exact (h o).clean e hc hd
  · exact ⟨h, rfl⟩

theorem uncacheLayers_spec (o : COutPoint) (h : StackSound base layers) :
    ReadsAs base layers (uncacheLayers o layers) := by
  cases layers with
  | nil => exact ⟨trivial, rfl⟩
  | cons l below =>
    obtain ⟨hsound, hget⟩ := h.1.uncache o
    refine ⟨⟨hsound, h.2⟩, ?_⟩
    show ((l.uncache o).onto (coinsView base below)).getCoin :: _ = _
    rw [hget]
    rfl

/-- What holds of an operation on every stack holds of it at every depth. -/
theorem atDepth_spec {f : List CoinsLayer → List CoinsLayer}
    (hf : ∀ layers, StackSound base layers → ReadsAs base layers (f layers))
    (i : ℕ) (h : StackSound base layers) : ReadsAs base layers (atDepth f i layers) := by
  induction i generalizing layers with
  | zero => exact hf layers h
  | succ i ih =>
    cases layers with
    | nil => exact ⟨trivial, rfl⟩
    | cons l below =>
      obtain ⟨hs, hm⟩ := ih h.2
      obtain ⟨hsound, hmaps⟩ := stackSound_cons_of_coinMaps h hs (coinsView_eq_of_coinMaps hm)
      exact ⟨hsound, by rw [atDepth, hmaps, hm]; rfl⟩

/-! ## Adding and spending -/

/-- The map of a cache, apart from the view it is over. -/
def CCoinsViewCache.layer (v : CCoinsViewCache) : CoinsLayer := ⟨v.cacheCoins, v.hashBlock⟩

variable {v : CCoinsViewCache}

theorem CCoinsViewCache.layer_onto (h : v.base = base) :
    v.layer.onto base = v := by
  subst h
  rfl

/-- A cache whose entries were changed at one outpoint is sound if it is
coherent and the new entry holds no spent coin but an empty one. -/
theorem CoinsLayer.Sound.of_coherent (h : l.Sound base)
    (hv : ((l.onto base).setEntry o x).Coherent)
    (hcleared : ∀ e, x = some e → e.coin.isSpent = true → e.coin = Coin.cleared) :
    (l.setEntry o x).Sound base := by
  refine fun p => ⟨hv.fresh p, hv.clean p, fun e he => ?_⟩
  rcases @cacheCoins_setEntry (l.onto base) _ _ _ _ he with ⟨-, he⟩ | he
  · exact hcleared e he
  · exact (h p).cleared e he

/-- **Adding inserts into the map of the top cache**, and fails with no
error where overwriting is announced. -/
theorem addLayers_spec {coin : Coin} {possibleOverwrite : Bool}
    (h : StackSound base (l :: layers)) (hcoin : coin.isSpent = false)
    (hover : (coinsView base (l :: layers)).getCoin o ≠ none → possibleOverwrite = true) :
    ∃ l', addLayers base o coin possibleOverwrite (l :: layers) = .ok (l' :: layers) ∧
      l'.Sound (coinsView base layers) ∧
      (l'.onto (coinsView base layers)).getCoin =
        if coin.out.scriptPubKey.isUnspendable then (coinsView base (l :: layers)).getCoin
        else Function.update (coinsView base (l :: layers)).getCoin o (some coin) := by
  have hnew : possibleOverwrite = false → coin.out.scriptPubKey.isUnspendable = false →
      (l.onto (coinsView base layers)).getCoin o = none := by
    intro hno _
    by_contra hc
    rw [hover hc] at hno
    cases hno
  obtain ⟨v, hok⟩ := addCoin_ok hcoin hnew
  obtain ⟨hf, hget⟩ := addCoin_spec h.1.coherent hnew hok
  refine ⟨v.layer, by simp [addLayers, hok, CCoinsViewCache.layer], ?_,
    (congrArg CCoinsViewCache.getCoin (layer_onto hf.base)).trans hget⟩
  obtain ⟨-, ⟨-, rfl⟩ | ⟨-, -, rfl⟩⟩ := addCoin_cases hok
  · exact h.1
  · refine h.1.of_coherent hf.coherent ?_
    rintro _ ⟨⟩ hs
    rw [hcoin] at hs
    cases hs

/-- **Spending takes the coin out of the map of the top cache.** -/
theorem spendLayers_spec (h : StackSound base (l :: layers)) :
    ∃ layers', spendLayers base o (l :: layers) =
        (((coinsView base (l :: layers)).getCoin o).getD Coin.cleared, layers') ∧
      StackSound base layers' ∧ coinMaps base layers' =
        Function.update (coinsView base (l :: layers)).getCoin o none :: coinMaps base layers := by
  obtain ⟨hs, hm⟩ := fetchLayers_spec o h
  unfold spendLayers
  cases hf : fetchLayers base o (l :: layers) with
  | nil => cases hf
  | cons l' below =>
    rw [hf] at hs hm
    obtain ⟨hget, hbelow⟩ := List.cons.inj hm
    have hget : (l'.onto (coinsView base below)).getCoin = (coinsView base (l :: layers)).getCoin :=
      hget
    dsimp only
    cases hv : (l'.onto (coinsView base below)).spendCoin o with
    | none =>
      have hno : (coinsView base (l :: layers)).getCoin o = none := by
        rw [← hget]
        exact getCoin_of_spendCoin_eq_none hv
      refine ⟨l' :: below, by rw [hno]; rfl, hs, ?_⟩
      rw [hm, update_eq_self_iff.2 hno.symm]
      rfl
    | some cv =>
      obtain ⟨c, v⟩ := cv
      obtain ⟨hfollows, hspent⟩ := spendCoin_spec hs.1.coherent hv
      obtain ⟨e, he, rfl, rfl⟩ := spendCoin_eq_some.1 hv
      refine ⟨_ :: below, ?_, ⟨hs.1.of_coherent hfollows.coherent fun f hf _ => ?_, hs.2⟩, ?_⟩
      · rw [← hget, ← hs.1.accessCoin, CCoinsViewCache.accessCoin, he]
        rfl
      · split at hf
        · cases hf
        · rw [← some.inj hf]
      · exact congrArg₂ cons (hspent.trans (by rw [hget])) hbelow

/-! ## Flushing -/

/-- The order is one in which the map of a cache can be gone through. -/
structure Enumerates (order : List COutPoint) (l : CoinsLayer) : Prop where
  nodup : order.Nodup
  complete : ∀ o, (l.cacheCoins o).isSome = true → o ∈ order

variable {order : List COutPoint}

theorem mem_entries {p : COutPoint × CCoinsCacheEntry} :
    p ∈ l.entries order ↔ p.1 ∈ order ∧ l.cacheCoins p.1 = some p.2 := by
  obtain ⟨o, e⟩ := p
  simp [CoinsLayer.entries]

theorem Enumerates.mem_entries (h : Enumerates order l) (he : l.cacheCoins o = some e) :
    (o, e) ∈ l.entries order :=
  Slucore.mem_entries.2 ⟨h.complete o (by simp [he]), he⟩

theorem Enumerates.nodup_entries (h : Enumerates order l) :
    ((l.entries order).map Prod.fst).Nodup := by
  refine pairwise_map.2 (pairwise_filterMap.2 (h.nodup.imp fun hne p hp q hq => ?_))
  obtain ⟨-, -, rfl⟩ := map_eq_some_iff.1 hp
  obtain ⟨-, -, rfl⟩ := map_eq_some_iff.1 hq
  exact hne

variable {mapCoins : List (COutPoint × CCoinsCacheEntry)}

/-- The loop of `BatchWrite`: what is in the list then reads as in the child,
the rest stays. -/
theorem foldlM_writeInto_spec (hparent : parent.Sound base)
    (hnodup : (mapCoins.map Prod.fst).Nodup)
    (hchild : ∀ p ∈ mapCoins, EntrySound (some p.2) ((parent.onto base).getCoin p.1)) :
    ∃ us, mapCoins.foldlM CoinsLayer.writeInto parent = .ok us ∧ us.Sound base ∧
      (∀ p ∈ mapCoins, (us.onto base).getCoin p.1 = p.2.value) ∧
      ∀ o ∉ mapCoins.map Prod.fst, (us.onto base).getCoin o = (parent.onto base).getCoin o := by
  induction mapCoins generalizing parent with
  | nil => exact ⟨parent, rfl, hparent, by simp, fun _ _ => rfl⟩
  | cons p mapCoins ih =>
    obtain ⟨hfresh, hrest⟩ := nodup_cons.1 hnodup
    obtain ⟨hp, hchild⟩ := forall_mem_cons.1 hchild
    rw [CoinsLayer.getCoin_onto] at hp
    obtain ⟨x, hx, hsound, hvalue⟩ := writeEntry_spec (hparent p.1) hp
    have hget : ((parent.setEntry p.1 x).onto base).getCoin =
        Function.update (parent.onto base).getCoin p.1 p.2.value := by
      rw [CoinsLayer.getCoin_setEntry, hvalue]
    obtain ⟨us, hus, hs, hin, hout⟩ := ih (hparent.setEntry hsound) hrest fun q hq => by
      rw [hget, update_of_ne (ne_of_mem_of_not_mem (List.mem_map_of_mem hq) hfresh)]
      exact hchild q hq
    refine ⟨us, by simp [CoinsLayer.writeInto, hx, hus], hs, forall_mem_cons.2 ⟨?_, hin⟩, ?_⟩
    · rw [hout _ hfresh, hget, update_self]
    · intro o ho
      rw [map_cons, mem_cons, not_or] at ho
      rw [hout o ho.2, hget, update_of_ne ho.1]

/-- **`BatchWrite` copies what is read in the child to the parent**, and
fails with no error. -/
theorem batchWrite_spec (horder : Enumerates order l)
    (hparent : parent.Sound base) (hchild : l.Sound (parent.onto base).flushed) :
    ∃ p, parent.batchWrite (l.entries order) l.hashBlock = .ok p ∧ p.Sound base ∧
      (p.onto base).getCoin = (l.onto (parent.onto base).flushed).getCoin := by
  obtain ⟨p, hp, hsound, hin, hout⟩ := foldlM_writeInto_spec hparent horder.nodup_entries
    fun q hq => (mem_entries.1 hq).2 ▸ hchild q.1
  refine ⟨{ p with hashBlock := l.hashBlock }, by simp [CoinsLayer.batchWrite, hp], hsound,
    funext fun o => ?_⟩
  rw [@CoinsLayer.getCoin_onto l]
  cases hc : l.cacheCoins o with
  | some e => exact hin _ (horder.mem_entries hc)
  | none =>
    refine hout o fun hmem => ?_
    obtain ⟨q, hq, rfl⟩ := List.mem_map.1 hmem
    rw [(mem_entries.1 hq).2] at hc
    cases hc

/-- What the loop of `BatchWrite` of the base map leaves when some entries of
a cache are written. -/
theorem getCoin_foldl_writeCoin (hchild : (l.onto base).Coherent)
    (hm : ∀ p ∈ mapCoins, l.cacheCoins p.1 = some p.2) (o : COutPoint) :
    (mapCoins.foldl CCoinsView.writeCoin base).getCoin o =
      if o ∈ mapCoins.map Prod.fst then (l.onto base).getCoin o else base.getCoin o := by
  induction mapCoins using List.reverseRecOn with
  | nil => rfl
  | append_singleton mapCoins p ih =>
    obtain ⟨hm, hp⟩ := forall_mem_append.1 hm
    have hp := hp p mem_cons_self
    have hread : (l.onto base).getCoin p.1 = p.2.value := by
      rw [CoinsLayer.getCoin_onto, hp]
      rfl
    simp only [foldl_append, foldl_cons, foldl_nil, CCoinsView.writeCoin, map_append, map_cons,
      map_nil, mem_append, mem_singleton]
    by_cases ho : o = p.1
    · subst ho
      split
      · simp [hread]
      · -- a clean entry agrees with the base
        rename_i hd
        have hclean : base.getCoin p.1 = p.2.value := hchild.clean p.1 p.2 hp (by simpa using hd)
        rw [ih hm, hread, hclean, ite_self, ite_self]
    · rw [if_congr (or_iff_left ho) rfl rfl, ← ih hm]
      split <;> simp [ho]

/-- All the changes of a cache, written into the base map. -/
theorem getCoin_foldl_entries (horder : Enumerates order l) (hchild : (l.onto base).Coherent) :
    ((l.entries order).foldl CCoinsView.writeCoin base).getCoin = (l.onto base).getCoin := by
  funext o
  rw [getCoin_foldl_writeCoin hchild fun p hp => (mem_entries.1 hp).2]
  split
  · rfl
  rename_i ho
  cases hc : l.cacheCoins o with
  | none => rw [CoinsLayer.getCoin_onto, hc]; rfl
  | some e => exact absurd (List.mem_map_of_mem (horder.mem_entries hc)) ho

/-- **A flush into the base map copies what is read in the cache to it.** -/
theorem base_batchWrite_spec (horder : Enumerates order l)
    (hchild : (l.onto base).Coherent) (hashBlock : UInt256) :
    (base.batchWrite (l.entries order) hashBlock).getCoin = (l.onto base).getCoin := by
  rw [← getCoin_foldl_entries horder hchild]
  unfold CCoinsView.batchWrite
  split <;> rfl

/-- An emptied cache reads as what is below it. -/
theorem getCoin_cleared : (l.cleared.onto base).getCoin = base.getCoin :=
  funext fun _ => CoinsLayer.getCoin_onto

theorem sound_cleared : l.cleared.Sound base := fun _ => entrySound_none

/-- **A flush of the top cache copies its map to the next one.** -/
theorem flushLayers_spec (horder : Enumerates order l) (h : StackSound base (l :: layers)) :
    ∃ base' layers', flushLayers base order (l :: layers) = .ok (base', layers') ∧
      StackSound base' layers' ∧ coinMaps base' layers' =
        (coinMaps base (l :: layers)).set 1 (coinsView base (l :: layers)).getCoin := by
  cases layers with
  | nil =>
    refine ⟨_, _, rfl, ⟨sound_cleared, trivial⟩, ?_⟩
    show [(l.cleared.onto _).getCoin, _] = _
    have hcoh : (l.onto base).Coherent := h.1.coherent
    rw [getCoin_cleared, coinsView, base_batchWrite_spec horder hcoh]
    rfl
  | cons parent below =>
    obtain ⟨p, hp, hsound, hget⟩ := batchWrite_spec horder h.2.1 h.1
    refine ⟨base, l.cleared :: p :: below, by simp [flushLayers, hp],
      ⟨sound_cleared, hsound, h.2.2⟩, ?_⟩
    show [(l.cleared.onto _).getCoin, (p.onto _).getCoin] ++ _ = _
    rw [getCoin_cleared]
    show [(p.onto _).getCoin, (p.onto _).getCoin] ++ _ = _
    rw [hget]
    rfl

/-- The same for a flush of the cache number `i`. -/
theorem flushAt_spec {i : ℕ} (h : StackSound base layers)
    (hl : layers[i]? = some l) (horder : Enumerates order l) :
    ∃ base' layers', flushAt base order i layers = .ok (base', layers') ∧
      StackSound base' layers' ∧ coinMaps base' layers' =
        (coinMaps base layers).set (i + 1) ((coinMaps base layers)[i]?.getD fun _ => none) := by
  induction i generalizing layers with
  | zero =>
    cases layers with
    | nil => cases hl
    | cons l' below =>
      obtain ⟨⟩ := hl
      exact flushLayers_spec horder h
  | succ i ih =>
    cases layers with
    | nil => cases hl
    | cons top below =>
      obtain ⟨base', layers', hf, hs, hm⟩ := ih h.2 hl
      -- the flush below does not change what is read just below this cache
      have hhead : (coinsView base' layers').getCoin = (coinsView base below).getCoin := by
        have hh := congrArg List.head? hm
        rw [head?_coinMaps, List.head?_eq_getElem?, List.getElem?_set_ne (Nat.succ_ne_zero i),
          ← List.head?_eq_getElem?, head?_coinMaps] at hh
        exact some.inj hh
      obtain ⟨hsound, hmaps⟩ := stackSound_cons_of_coinMaps h hs hhead
      refine ⟨base', top :: layers', by simp [flushAt, hf], hsound, ?_⟩
      rw [hmaps, hm]
      rfl

/-! ## Runs -/

namespace CoinsStack

variable {s : CoinsStack}

/-- The flags of every cache tell the truth. -/
def Sound (s : CoinsStack) : Prop := StackSound s.base s.layers

/-- The plain maps that a stack stands for, the top first. -/
def maps (s : CoinsStack) : List CoinSet := coinMaps s.base s.layers

/-- A stack of `n` caches just constructed over a base. -/
def ofBase (base : CCoinsView) (n : ℕ) : CoinsStack := ⟨base, List.replicate n ⟨fun _ => none, 0⟩⟩

/-- What the operations ask of their caller: a cache that is there, an
unspent coin, an overwriting announced wherever the top cache has the
coin; and that a map enumerates each of its keys once. -/
def Allowed (s : CoinsStack) : CoinsOp → Prop
  | .getCoin i _ | .haveCoin i _ | .accessCoin i _ | .uncache i _ => i < s.layers.length
  | .addCoin o coin possibleOverwrite => 0 < s.layers.length ∧ coin.isSpent = false ∧
      ((s.cache 0).bind (·.getCoin o) ≠ none → possibleOverwrite = true)
  | .spendCoin _ => 0 < s.layers.length
  | .flush i order => ∃ l, s.layers[i]? = some l ∧ Enumerates order l

theorem sound_ofBase (base : CCoinsView) (n : ℕ) : (ofBase base n).Sound := by
  induction n with
  | zero => trivial
  | succ n ih => exact ⟨fun _ => entrySound_none, ih⟩

/-- The cache number `i` reads the map number `i`. -/
theorem cache_spec {i : ℕ} (h : s.Sound) (hi : i < s.layers.length) :
    ∃ v, s.cache i = some v ∧ s.maps[i]?.getD (fun _ => none) = v.getCoin ∧
      ∀ o, v.accessCoin o = (v.getCoin o).getD Coin.cleared := by
  obtain ⟨base, layers⟩ := s
  induction i generalizing layers with
  | zero =>
    cases layers with
    | nil => cases hi
    | cons l below => exact ⟨_, rfl, rfl, h.1.accessCoin⟩
  | succ i ih =>
    cases layers with
    | nil => cases hi
    | cons l below => exact ih below h.2 (Nat.lt_of_succ_lt_succ hi)

theorem fetched_spec (i : ℕ) (o : COutPoint) (h : s.Sound) :
    (s.fetched i o).Sound ∧ (s.fetched i o).maps = s.maps :=
  atDepth_spec (fun _ => fetchLayers_spec o) i h

/-- **One operation does on the caches what it does on plain maps**, and
fails with no error. -/
theorem step_refines (s : CoinsStack) (op : CoinsOp) (h : s.Sound) (hop : s.Allowed op) :
    ∃ a s', s.step op = .ok (a, s') ∧ s'.Sound ∧ specStep s.maps op = (a, s'.maps) := by
  cases op with
  | getCoin i o =>
    obtain ⟨v, hv, hmap, -⟩ := cache_spec h hop
    obtain ⟨hs, hm⟩ := fetched_spec i o h
    exact ⟨.coin (v.getCoin o), s.fetched i o, by rw [step, hv]; rfl, hs,
      by rw [specStep, hmap, hm]⟩
  | haveCoin i o =>
    obtain ⟨v, hv, hmap, -⟩ := cache_spec h hop
    obtain ⟨hs, hm⟩ := fetched_spec i o h
    refine ⟨.held (v.haveCoin o), s.fetched i o, by rw [step, hv]; rfl, hs, ?_⟩
    rw [specStep, hmap, hm, haveCoin_eq]
  | accessCoin i o =>
    obtain ⟨v, hv, hmap, haccess⟩ := cache_spec h hop
    obtain ⟨hs, hm⟩ := fetched_spec i o h
    refine ⟨.access (v.accessCoin o), s.fetched i o, by rw [step, hv]; rfl, hs, ?_⟩
    rw [specStep, hmap, hm, haccess]
  | addCoin o coin possibleOverwrite =>
    obtain ⟨base, layers⟩ := s
    obtain ⟨hpos, hcoin, hover⟩ := hop
    cases layers with
    | nil => cases hpos
    | cons l below =>
      obtain ⟨l', hl', hsound, hget⟩ := addLayers_spec h hcoin hover
      refine ⟨.done, ⟨base, l' :: below⟩, by simp [step, hl'], ⟨hsound, h.2⟩, ?_⟩
      show _ = (_, (l'.onto _).getCoin :: _)
      rw [hget]
      rfl
  | spendCoin o =>
    obtain ⟨base, layers⟩ := s
    cases layers with
    | nil => cases hop
    | cons l below =>
      obtain ⟨layers', hl', hsound, hmaps⟩ := spendLayers_spec (o := o) h
      refine ⟨_, ⟨base, layers'⟩, by rw [step, hl'], hsound, ?_⟩
      show _ = (_, coinMaps base layers')
      rw [hmaps]
      rfl
  | uncache i o =>
    obtain ⟨hs, hm⟩ := atDepth_spec (fun _ => uncacheLayers_spec o) i h
    exact ⟨.done, _, rfl, hs, by exact congrArg _ hm.symm⟩
  | flush i order =>
    obtain ⟨l, hl, horder⟩ := hop
    obtain ⟨base', layers', hf, hsound, hmaps⟩ := flushAt_spec h hl horder
    refine ⟨.done, ⟨base', layers'⟩, by simp [step, hf], hsound, ?_⟩
    show _ = (_, coinMaps base' layers')
    rw [hmaps]
    rfl

end CoinsStack

/-- **A stack of caches is a stack of plain maps:** whatever sequence of
operations it is given, it fails with no error, answers as the maps do and
stands for the maps that they make. -/
theorem caches_refine_maps (s : CoinsStack) (ops : List CoinsOp) (h : s.Sound)
    (hops : AllAllowed CoinsStack.step CoinsStack.Allowed s ops) :
    ∃ answers s', runOps CoinsStack.step s ops = .ok (answers, s') ∧ s'.Sound ∧
      specOps specStep s.maps ops = (answers, s'.maps) :=
  runOps_refines CoinsStack.step_refines h hops

/-- Two new caches over an empty base. -/
def sampleStack : CoinsStack := .ofBase ⟨fun _ => none, 0, CCoinsView.unspent_none⟩ 2

/-- A coin is added on top, written to the cache below, found there and
spent on top. -/
def sampleOps : List CoinsOp :=
  [.addCoin ⟨7, 0⟩ ⟨⟨50, [0x51]⟩, false, false, 1⟩ false, .flush 0 [⟨7, 0⟩], .haveCoin 1 ⟨7, 0⟩,
    .spendCoin ⟨7, 0⟩, .getCoin 0 ⟨7, 0⟩]

theorem sampleOps_allowed :
    AllAllowed CoinsStack.step CoinsStack.Allowed sampleStack sampleOps := by
  refine allAllowed_cons rfl ⟨by decide, by decide, by decide⟩ ?_
  refine allAllowed_cons rfl ⟨_, rfl, by decide, fun o ho => ?_⟩ ?_
  · by_contra hne
    rw [mem_singleton] at hne
    simp [CCoinsViewCache.setEntry, CoinsLayer.onto, hne] at ho
  exact allAllowed_cons rfl Nat.one_lt_two (allAllowed_cons rfl Nat.two_pos
    (allAllowed_cons rfl Nat.two_pos trivial))

/-- The caches answer as the maps: the coin is found below the top cache,
moved out, and gone. -/
theorem sampleStack_answers : ∃ s',
    runOps CoinsStack.step sampleStack sampleOps =
      .ok ([.done, .done, .held true, .access ⟨⟨50, [0x51]⟩, false, false, 1⟩, .coin none], s') ∧
    s'.Sound := by
  obtain ⟨answers, s', hrun, hs, hspec⟩ := caches_refine_maps sampleStack sampleOps
    (CoinsStack.sound_ofBase _ 2) sampleOps_allowed
  have hanswers : answers =
      [.done, .done, .held true, .access ⟨⟨50, [0x51]⟩, false, false, 1⟩, .coin none] :=
    (congrArg Prod.fst hspec).symm.trans (by decide)
  exact ⟨s', hanswers ▸ hrun, hs⟩

/-- **A coin that can never be spent is not inserted:** `AddCoin` returns
before it touches the map. -/
theorem unspendable_coin_not_added :
    AllAllowed CoinsStack.step CoinsStack.Allowed sampleStack
      [.addCoin ⟨7, 0⟩ ⟨⟨50, [0x6a]⟩, false, false, 1⟩ false, .getCoin 0 ⟨7, 0⟩] ∧
    (runOps CoinsStack.step sampleStack
      [.addCoin ⟨7, 0⟩ ⟨⟨50, [0x6a]⟩, false, false, 1⟩ false, .getCoin 0 ⟨7, 0⟩]).toOption.map
        (·.1) = some [.done, .coin none] ∧
    Function.update (sampleStack.maps[0]?.getD fun _ => none) ⟨7, 0⟩
      (some ⟨⟨50, [0x6a]⟩, false, false, 1⟩) ⟨7, 0⟩ =
        some ⟨⟨50, [0x6a]⟩, false, false, 1⟩ :=
  ⟨allAllowed_cons rfl ⟨by decide, by decide, by decide⟩ (allAllowed_cons rfl Nat.two_pos trivial),
    by decide, update_self _ _ _⟩

end Slucore
