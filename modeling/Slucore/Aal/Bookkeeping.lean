import Slucore.Aal.Netting
import Slucore.Aal.Commit
/-!
# Aal — the books after condensing

A condensing transaction spends the coins of the parties, pays each the
balance it is left with, and `createVin` enters the payments as the new
coins. While the netting goes through, inputs, outputs and entries agree
(`condensing_nets`). When it breaks off there is no transaction, but the
balances of the addresses before the one that fell short have been
entered already, and `createVin` does not ask how the netting ended: the
books change exactly where such an address did not have the coin of the
null transaction before (`books_unchanged_iff`).
-/


namespace Slucore

open List Option SilubiumState Std.TreeMap

namespace CondensingTX

variable {ctx : CondensingTX} {a b : Address} {ts : List TransferInfo}

/-! ## A netting that goes through -/

/-- The coin of a party that may be spent: alive, or killed without its
address being noted for deletion, and worth something. -/
def usable (ctx : CondensingTX) (a : Address) : Option Vin :=
  (ctx.selected a).filter fun v => decide (0 < v.value) && ctx.spendable a v

/-- What a party is left with, in exact integers. -/
def newBalance (ctx : CondensingTX) (a : Address) : ℤ :=
  ((ctx.usable a).elim 0 fun v => v.value.toNat : ℕ) + inflow ctx.transfers a -
    outflow ctx.transfers a

/-- The parties, each once. -/
def owners (ctx : CondensingTX) : List Address := (parties ctx.transfers).dedup

/-- The input that spends a coin. -/
def inputOf (v : Vin) : CTxIn := { prevout := ⟨v.hash, v.nVout⟩, scriptSig := spendScript }

theorem mem_owners : a ∈ ctx.owners ↔ a ∈ parties ctx.transfers := mem_dedup

theorem usable_value : ((ctx.usable a).elim 0 fun v => v.value.toNat) = (ctx.available a).toNat := by
  unfold usable
  cases hs : ctx.selected a with
  | none => simp [available, hs]
  | some v =>
    rw [← available_toNat hs, filter_some]
    split <;> rfl

/-- Inside the bounds the netted balance is the new balance. -/
theorem netted_eq_newBalance (hcov : ctx.Covered) (hfit : ctx.Fits)
    (ha : a ∈ parties ctx.transfers) : ((ctx.netted a).toNat : ℤ) = ctx.newBalance a := by
  have hnet := hcov.netted_toNat hfit ha
  unfold newBalance
  rw [usable_value]
  omega

/-- The coins selected, as a list over the parties. -/
theorem selectionVin_perm (hlead : ctx.Leads) :
    ctx.selectionVin.toList.Perm
      (ctx.owners.filterMap fun a => (ctx.selected a).map fun v => (a, v)) := by
  have hnd : ctx.selectionVin.toList.Nodup := OrderedMap.keys_nodup.of_map
  have hnd' : (ctx.owners.filterMap fun a => (ctx.selected a).map fun v => (a, v)).Nodup := by
    refine (nodup_dedup _).filterMap fun a a' p hp hp' => ?_
    simp only [mem_def, map_eq_some_iff] at hp hp'
    obtain ⟨v, -, rfl⟩ := hp
    obtain ⟨v', -, heq⟩ := hp'
    exact (Prod.mk.inj heq).1.symm
  refine (perm_ext_iff_of_nodup hnd hnd').2 fun p => ?_
  simp only [mem_selectionVin hlead, mem_filterMap, map_eq_some_iff, mem_owners]
  constructor
  · rintro ⟨ha, hv⟩
    exact ⟨p.1, ha, p.2, hv, rfl⟩
  · rintro ⟨a, ha, v, hv, rfl⟩
    exact ⟨ha, hv⟩

/-- **The inputs are the usable coins.** -/
theorem createVins_perm (hlead : ctx.Leads) :
    ctx.createVins.Perm ((ctx.owners.filterMap ctx.usable).map inputOf) := by
  refine (((selectionVin_perm hlead).filter _).map _).trans (.of_eq ?_)
  rw [filter_filterMap, map_filterMap, map_filterMap]
  refine filterMap_congr fun a _ => ?_
  unfold usable
  cases ctx.selected a with
  | none => rfl
  | some v =>
    simp only [map_some, filter_some]
    split <;> rfl

/-- The balances, as a list over the parties. -/
theorem createNewBalances_perm (hall : ∀ b ∈ parties ctx.transfers, ¬ ctx.Short b) :
    ctx.createNewBalances.1.toList.Perm (ctx.owners.map fun a => (a, ctx.left a)) := by
  have hentered : ∀ b, ctx.Entered b := fun b c hc _ => hall c hc
  refine (perm_ext_iff_of_nodup OrderedMap.keys_nodup.of_map
    ((nodup_dedup _).map fun _ _ h => (Prod.mk.inj h).1)).2 fun p => ?_
  obtain ⟨b, x⟩ := p
  rw [mem_toList_iff_getElem?_eq_some, List.mem_map]
  constructor
  · intro hb
    by_cases hparty : b ∈ parties ctx.transfers
    · rw [getElem?_createNewBalances hparty (hentered b)] at hb
      exact ⟨b, mem_owners.2 hparty, by rw [Option.some.inj hb]⟩
    · rw [getElem?_createNewBalances_none fun h => hparty h.1] at hb
      cases hb
  · rintro ⟨c, hc, heq⟩
    obtain ⟨rfl, rfl⟩ := Prod.mk.inj heq
    exact getElem?_createNewBalances (mem_owners.1 hc) (hentered c)

/-- **The outputs pay every positive balance once.** -/
theorem createVout_perm (hlead : ctx.Leads) (hcov : ctx.Covered) (hfit : ctx.Fits)
    (hlim : ctx.createVout.overflow = false) :
    ctx.createVout.outs.Perm ((ctx.owners.filter fun a => 0 < ctx.newBalance a).map
      fun a => ⟨ctx.newBalance a, ctx.payScript a⟩) := by
  have hbalances := createNewBalances_perm
    (createNewBalances_snd_iff.1 ((createNewBalances_snd hlead).2 hcov))
  simp only [hlead.left_eq] at hbalances
  have houts : ctx.createVout.outs =
      (ctx.createNewBalances.1.toList.filter fun p => decide (0 < p.2)).map ctx.voutOf := by
    unfold createVout at hlim ⊢
    rw [voutsFrom_outs hlim]
    rfl
  rw [houts]
  refine ((hbalances.filter _).map _).trans (.of_eq ?_)
  rw [List.filter_map, List.map_map]
  have hnet : ∀ a ∈ ctx.owners, ((ctx.netted a).toNat : ℤ) = ctx.newBalance a :=
    fun a ha => netted_eq_newBalance hcov hfit (mem_owners.1 ha)
  have hfilter : (ctx.owners.filter ((fun p : Address × U256 => decide (0 < p.2)) ∘
      fun a => (a, ctx.netted a))) = ctx.owners.filter fun a => 0 < ctx.newBalance a := by
    refine filter_congr fun a ha => ?_
    have hpos : (0 : U256) < ctx.netted a ↔ 0 < ctx.newBalance a := by
      rw [← hnet a ha, Nat.cast_pos]
      rfl
    simp only [Function.comp_apply, hpos]
  rw [hfilter]
  refine map_congr_left fun a ha => ?_
  have hmem := (mem_filter.1 ha).1
  rw [Function.comp_apply, voutOf, toCAmount_eq (hcov.netted_lt hfit (mem_owners.1 hmem)),
    hnet a hmem]

/-- The null transaction `CTransaction()`. -/
def nullTransaction : CTransaction := { vin := [], vout := [] }

/-- What the usable coins are worth together is the pool. -/
theorem sum_usable :
    ((ctx.owners.filterMap ctx.usable).map fun v => (v.value.toNat : ℤ)).sum = ctx.pool := by
  have hsum : ∀ l : List Address,
      ((l.filterMap ctx.usable).map fun v => (v.value.toNat : ℤ)).sum =
        (l.map fun a => ((ctx.available a).toNat : ℤ)).sum := by
    intro l
    induction l with
    | nil => rfl
    | cons a l ih =>
      have hv : ((ctx.usable a).elim 0 fun v => v.value.toNat) = (ctx.available a).toNat :=
        usable_value
      cases hu : ctx.usable a with
      | none => simpa [hu, ih] using hv.symm
      | some v => simp_all
  rw [hsum, pool, Nat.cast_sum]
  unfold owners
  rw [← sum_toFinset _ (nodup_dedup _)]
  exact Finset.sum_congr (by ext a; simp [partySet]) fun _ _ => rfl

/-- Positive terms that add up to nothing are none. -/
theorem eq_nil_iff_sum_eq_zero {α : Type} {l : List α} {f : α → ℤ} (hpos : ∀ x ∈ l, 0 < f x) :
    l = [] ↔ (l.map f).sum = 0 := by
  refine ⟨fun h => by simp [h], fun hsum => ?_⟩
  by_contra hne
  have := sum_pos (l.map f) (by simpa using hpos) (by simpa using hne)
  omega

/-- The transaction has the inputs and outputs computed for it, also when
there are none. -/
theorem createCondensingTX_getD (hlead : ctx.Leads) (hcov : ctx.Covered) (hfit : ctx.Fits)
    (hlim : ctx.createVout.overflow = false) :
    ctx.createCondensingTX.getD nullTransaction =
      { vin := ctx.createVins, vout := ctx.createVout.outs } := by
  have hout : ∀ o ∈ ctx.createVout.outs, 0 < o.nValue := by
    intro o ho
    obtain ⟨a, ha, rfl⟩ := List.mem_map.1 ((createVout_perm hlead hcov hfit hlim).subset ho)
    simpa using (mem_filter.1 ha).2
  have hin : ∀ v ∈ ctx.owners.filterMap ctx.usable, (0 : ℤ) < v.value.toNat := by
    intro v hv
    obtain ⟨a, -, hu⟩ := mem_filterMap.1 hv
    have hpos := (filter_eq_some_iff.1 hu).2
    simp only [Bool.and_eq_true, decide_eq_true_eq, BitVec.lt_def] at hpos
    omega
  -- both sides are worth the pool, so they are empty together
  have hiff : ctx.createVins = [] ↔ ctx.createVout.outs = [] := by
    rw [eq_nil_iff_sum_eq_zero hout, createVout_sum hlead hcov hfit hlim, ← sum_usable,
      ← eq_nil_iff_sum_eq_zero hin]
    constructor
    · intro h
      have hnil := createVins_perm hlead
      rw [h] at hnil
      simpa using hnil.symm
    · intro h
      have hnil := createVins_perm hlead
      rw [h] at hnil
      simpa using hnil
  rw [createCondensingTX, if_pos ((createNewBalances_snd hlead).2 hcov)]
  by_cases hnil : ctx.createVout.outs = []
  · simp [hnil, hiff.2 hnil, nullTransaction]
  · simp [hnil, mt hiff.1 hnil]

/-- The coin entered for a party is the output that pays it. -/
theorem createVin_entered (hlead : ctx.Leads) (hcov : ctx.Covered) (hfit : ctx.Fits)
    (hlim : ctx.createVout.overflow = false) (txid : UInt256) (ha : a ∈ parties ctx.transfers)
    (hne : a ≠ ctx.transaction.sender) (hpos : 0 < ctx.newBalance a) :
    ∃ i v, ctx.createVout.outs[i]? = some ⟨ctx.newBalance a, ctx.payScript a⟩ ∧
      (v.toNat : ℤ) = ctx.newBalance a ∧ ctx.createVin txid a = some ⟨txid, i, v, true⟩ := by
  have hok := (createNewBalances_snd hlead).2 hcov
  have hnet := netted_eq_newBalance hcov hfit ha
  have hpos' : (0 : U256) < ctx.netted a := by
    rw [BitVec.lt_def]
    have h0 : (0 : U256).toNat = 0 := rfl
    omega
  have hget := createNewBalances_fst hlead hok a
  rw [if_pos ha] at hget
  have hmem := mem_toList_iff_getElem?_eq_some.2 hget
  obtain ⟨i, hi, hout⟩ :=
    (voutsFrom_nVouts OrderedMap.keys_nodup hlim).1 (a, ctx.netted a) hmem hpos'
  refine ⟨i, ctx.netted a, ?_, hnet, ?_⟩
  · have hv : ctx.voutOf (a, ctx.netted a) = ⟨ctx.newBalance a, ctx.payScript a⟩ := by
      rw [voutOf, toCAmount_eq (hcov.netted_lt hfit ha), hnet]
    rw [← hv]
    exact hout
  · have hn : ctx.nVoutOf a = i := by
      rw [nVoutOf, if_pos hok, getD_eq_getD_getElem?]
      exact congrArg (fun x => x.getD 0) hi
    rw [createVin, if_neg hne, get?_eq_getElem?, hget, map_some, if_pos hpos', hn]

/-- **Condensing is a correct netting.** The inputs are the usable coins of
the parties; every party with a positive new balance is paid that balance
by one output; inputs and outputs are worth the same; and the coin entered
for a paid party other than the sender is the output that pays it. -/
theorem condensing_nets (H : Hashes) (hlead : ctx.Leads)
    (hfit : ctx.Fits) (hok : ctx.createNewBalances.2 = true)
    (hlim : ctx.reachedVoutLimit = false) :
    let txid := SilubiumState.nullableHash H ctx.createCondensingTX
    let tx := ctx.createCondensingTX.getD nullTransaction
    tx.vin.Perm ((ctx.owners.filterMap ctx.usable).map inputOf) ∧
    tx.vout.Perm ((ctx.owners.filter fun a => 0 < ctx.newBalance a).map
      fun a => ⟨ctx.newBalance a, ctx.payScript a⟩) ∧
    (tx.vout.map CTxOut.nValue).sum =
      ((ctx.owners.filterMap ctx.usable).map fun v => (v.value.toNat : ℤ)).sum ∧
    ∀ a ∈ ctx.owners, a ≠ ctx.transaction.sender → 0 < ctx.newBalance a →
      ∃ i v, tx.vout[i]? = some ⟨ctx.newBalance a, ctx.payScript a⟩ ∧
        (v.toNat : ℤ) = ctx.newBalance a ∧ ctx.createVin txid a = some ⟨txid, i, v, true⟩ := by
  have hcov := (createNewBalances_snd hlead).1 hok
  have hover := overflow_eq_false hlead hcov hlim
  intro txid tx
  have htx : tx = { vin := ctx.createVins, vout := ctx.createVout.outs } :=
    createCondensingTX_getD hlead hcov hfit hover
  refine ⟨?_, ?_, ?_, fun a ha hne hpos => ?_⟩
  · rw [htx]
    exact createVins_perm hlead
  · rw [htx]
    exact createVout_perm hlead hcov hfit hover
  · rw [htx, sum_usable]
    exact createVout_sum hlead hcov hfit hover
  · rw [htx]
    exact createVin_entered hlead hcov hfit hover txid (mem_owners.1 ha) hne hpos

/-- A state without accounts in which `coins` is all there is. -/
def coinsOnly (coins : Address → Option Vin) : SilubiumState where
  trie := ⟨0, fun _ => none⟩
  cache := fun _ => none
  changeLog := []
  newAddress := 0
  transfers := []
  stateUTXO := ⟨0, coins⟩
  cacheUTXO := fun _ => none

/-- An output of `value` sent by `7`. -/
def sentBySeven (value : U256) : SilubiumTransaction where
  sender := 7
  receiveAddress := 3
  isCreation := false
  value := value
  gas := 0
  gasPrice := 0
  nonce := 0
  data := []
  hashWith := 100
  nVout := 0
  version := .evmDefault

/-- The contract `3`, which owns `5`, is sent `10` and passes `4` on. -/
def passingOn : CondensingTX where
  state := coinsOnly fun a => if a = 3 then some ⟨90, 1, 5, true⟩ else none
  transfers := [⟨7, 3, 10⟩, ⟨3, 5, 4⟩]
  transaction := sentBySeven 10
  deleteAddresses := [7]

theorem passingOn_leads : passingOn.Leads := fun _ => ⟨⟨7, 3, 10⟩, [⟨3, 5, 4⟩], rfl, rfl⟩

theorem passingOn_fits : passingOn.Fits where
  receipts a := by
    have hin : inflow passingOn.transfers a ≤ 14 := by
      simp only [inflow, passingOn, keyedSum_cons, keyedSum_nil]
      split <;> split <;> decide
    have hav : (passingOn.available a).toNat ≤ 10 := by
      simp only [available, selected]
      split
      · rename_i v hv
        split at hv
        · obtain ⟨⟩ := hv
          split <;> decide
        simp only [passingOn, coinsOnly, vin] at hv
        split at hv
        · obtain ⟨⟩ := hv
          split <;> decide
        · cases hv
      · decide
    omega
  payments a := by
    simp only [outflow, passingOn, keyedSum_cons, keyedSum_nil]
    split <;> split <;> decide
  pool := by decide

/-- **A contract that passes money on**: the coins of the output and of the
contract go in, and the two that are left with something are paid. -/
theorem passingOn_nets :
    passingOn.createNewBalances.2 = true ∧
    (passingOn.createCondensingTX.getD nullTransaction).vin.Perm
      ((passingOn.owners.filterMap passingOn.usable).map inputOf) ∧
    passingOn.owners.filterMap passingOn.usable = [⟨100, 0, 10, true⟩, ⟨90, 1, 5, true⟩] :=
  have hok : passingOn.createNewBalances.2 = true := by decide
  ⟨hok, (condensing_nets sampleHashes passingOn_leads
    passingOn_fits hok (by decide)).1, by decide⟩

/-- The index under which a payment is remembered: the number of payments
before it. -/
theorem voutsFrom_index {l : List (Address × U256)} {r : Vouts}
    (hl : l.Pairwise fun p q => p.1 < q.1) (h : (ctx.voutsFrom l r).overflow = false) :
    ∀ p ∈ l, 0 < p.2 → (ctx.voutsFrom l r).nVouts[p.1]? =
      some (r.outs.length + (l.filter fun q => decide (q.1 < p.1 ∧ 0 < q.2)).length) := by
  induction l generalizing r with
  | nil => simp
  | cons p l ih =>
    obtain ⟨hlt, hl⟩ := pairwise_cons.1 hl
    have hnd : (l.map Prod.fst).Nodup := (pairwise_map.2 (hl.imp fun h => h.ne))
    have hp : p.1 ∉ l.map Prod.fst := by
      intro hmem
      obtain ⟨q, hq, heq⟩ := List.mem_map.1 hmem
      exact absurd heq (hlt q hq).ne'
    rw [voutsFrom_cons] at h ⊢
    split at h
    · cases h
    rename_i hlim
    rw [if_neg hlim]
    intro q hq hpos
    rcases mem_cons.1 hq with rfl | hq
    · -- the first entry: no address is below it
      have hnone : (l.filter fun q' => decide (q'.1 < q.1 ∧ 0 < q'.2)) = [] := by
        refine filter_eq_nil_iff.2 fun q' hq' => ?_
        exact fun h => absurd (of_decide_eq_true h).1 (hlt q' hq').not_gt
      rw [(voutsFrom_nVouts hnd h).2 _ hp, Vouts.push, if_pos hpos, OrderedMap.getElem?_insert,
        if_pos rfl, filter_cons_of_neg (by simp), hnone]
      rfl
    · rw [ih hl h q hq hpos]
      congr 1
      have hbelow := hlt q hq
      by_cases hp0 : 0 < p.2
      · rw [Vouts.push, if_pos hp0, filter_cons_of_pos (by exact decide_eq_true ⟨hbelow, hp0⟩)]
        simp only [length_append, length_cons, length_nil]
        omega
      · rw [Vouts.push, if_neg hp0, filter_cons_of_neg fun h => hp0 (of_decide_eq_true h).2]

/-- The number of parties below `a` that are left with something. -/
def position (ctx : CondensingTX) (a : Address) : ℕ :=
  (ctx.owners.filter fun b => decide (b < a ∧ 0 < ctx.left b)).length

/-- Where a party that is left with something is paid. -/
theorem nVoutOf_eq (hall : ∀ b ∈ parties ctx.transfers, ¬ ctx.Short b)
    (hlim : ctx.reachedVoutLimit = false) (ha : a ∈ parties ctx.transfers)
    (hpos : 0 < ctx.left a) : ctx.nVoutOf a = ctx.position a := by
  have hok := createNewBalances_snd_iff.2 hall
  have hover : ctx.createVout.overflow = false := by simpa [reachedVoutLimit, hok] using hlim
  have hget := getElem?_createNewBalances ha fun b hb _ => hall b hb
  have hmem := mem_toList_iff_getElem?_eq_some.2 hget
  have hindex := voutsFrom_index toList_pairwise hover (a, ctx.left a) hmem hpos
  have hcount := ((createNewBalances_perm hall).filter fun q => decide (q.1 < a ∧ 0 < q.2)).length_eq
  rw [List.filter_map, length_map] at hcount
  rw [nVoutOf, if_pos hok, getD_eq_getD_getElem?, createVout, hindex, hcount]
  simp only [length_nil, Nat.zero_add]
  rfl

/-! ## A netting that makes no transaction -/

/-- What `createVin` enters for a party that the netting reached, when the
transaction is null. -/
def nullEntry (ctx : CondensingTX) (a : Address) (index : ℕ) : Vin :=
  if 0 < ctx.left a then ⟨0, index, ctx.left a, true⟩ else ⟨0, 0, 0, false⟩

/-- The coin of `a` is already what the null transaction would make of it:
none or an all-zero dead one where `a` is left with nothing, and otherwise
a coin of the null hash with that value, at the position of the payment
where nobody falls short. -/
def AlreadyBooked (ctx : CondensingTX) (a : Address) : Prop :=
  if 0 < ctx.left a then
    ∃ i, ctx.state.vin a = some ⟨0, i, ctx.left a, true⟩ ∧
      ((∀ b ∈ parties ctx.transfers, ¬ ctx.Short b) → i = ctx.position a) ∧
      ((∃ b ∈ parties ctx.transfers, ctx.Short b) → i = 0)
  else ctx.state.vin a = none ∨ ctx.state.vin a = some ⟨0, 0, 0, false⟩

theorem nVoutOf_of_short (h : ∃ b ∈ parties ctx.transfers, ctx.Short b) : ctx.nVoutOf a = 0 := by
  have hok : ¬ ctx.createNewBalances.2 = true := by
    rw [createNewBalances_snd_iff]
    obtain ⟨b, hb, hs⟩ := h
    exact fun hall => hall b hb hs
  rw [nVoutOf, if_neg hok]

/-- What is entered for a party that the netting reached. -/
theorem createVin_null (ha : a ∈ parties ctx.transfers) (hne : a ≠ ctx.transaction.sender)
    (he : ctx.Entered a) : ctx.createVin 0 a = some (ctx.nullEntry a (ctx.nVoutOf a)) := by
  rw [createVin, if_neg hne, get?_eq_getElem?, getElem?_createNewBalances ha he]
  rfl

/-- For that party nothing changes when it was booked already. -/
theorem booked_iff (hlim : ctx.reachedVoutLimit = false) (ha : a ∈ parties ctx.transfers) :
    (if (ctx.state.vin a).isSome || (ctx.nullEntry a (ctx.nVoutOf a)).alive then
        some (ctx.nullEntry a (ctx.nVoutOf a)) else none) = ctx.state.vin a ↔
      ctx.AlreadyBooked a := by
  unfold nullEntry AlreadyBooked
  by_cases hpos : 0 < ctx.left a
  · simp only [hpos, if_true, Bool.or_true]
    by_cases hall : ∀ b ∈ parties ctx.transfers, ¬ ctx.Short b
    · have hex : ¬ ∃ b ∈ parties ctx.transfers, ctx.Short b := fun ⟨b, hb, hs⟩ => hall b hb hs
      rw [nVoutOf_eq hall hlim ha hpos]
      constructor
      · intro h
        exact ⟨_, h.symm, fun _ => rfl, fun h => absurd h hex⟩
      · rintro ⟨i, hi, hp, -⟩
        rw [hi, hp hall]
    · have hex : ∃ b ∈ parties ctx.transfers, ctx.Short b := by
        simpa using hall
      rw [nVoutOf_of_short hex]
      constructor
      · intro h
        exact ⟨_, h.symm, fun h => absurd h hall, fun _ => rfl⟩
      · rintro ⟨i, hi, -, hp⟩
        rw [hi, hp hex]
  · simp only [hpos]
    cases ctx.state.vin a with
    | none => simp
    | some v => simp [eq_comm]

/-- **The books stay as they are exactly when nothing new was entered
before the netting broke off.** If there is no condensing transaction, the
step that `execute` makes with it changes no coin exactly when every party
that the netting reached, the sender apart, was booked already. -/
theorem books_unchanged_iff (H : Hashes) (hnull : ctx.createCondensingTX = none)
    (hlim : ctx.reachedVoutLimit = false) :
    (∀ a, (ctx.state.updateUTXO (ctx.createVin
        (SilubiumState.nullableHash H ctx.createCondensingTX))).vin a = ctx.state.vin a) ↔
      ∀ a ∈ parties ctx.transfers, a ≠ ctx.transaction.sender → ctx.Entered a →
        ctx.AlreadyBooked a := by
  have hhash : nullableHash H ctx.createCondensingTX = 0 := by
    rw [hnull]
    rfl
  rw [hhash]
  refine forall_congr' fun a => ?_
  rw [updateUTXO_vin]
  by_cases hparty : a ∈ parties ctx.transfers ∧ a ≠ ctx.transaction.sender ∧ ctx.Entered a
  · obtain ⟨ha, hne, he⟩ := hparty
    rw [createVin_null ha hne he]
    simp only [booked_iff hlim ha]
    exact ⟨fun h _ _ _ => h, fun h => h ha hne he⟩
  · -- nothing is entered for any other address
    have hnone : ctx.createVin 0 a = none := by
      unfold createVin
      split
      · rfl
      rename_i hne
      rw [get?_eq_getElem?, getElem?_createNewBalances_none fun h =>
        hparty ⟨h.1, hne, h.2⟩]
      rfl
    rw [hnone]
    exact ⟨fun _ ha hne he => absurd ⟨ha, hne, he⟩ hparty, fun _ => rfl⟩

/-- The contract `9` pays `5` to `4` out of nothing. -/
def overdrawn : CondensingTX where
  state := coinsOnly fun _ => none
  transfers := [⟨9, 4, 5⟩]
  transaction := sentBySeven 0
  deleteAddresses := [7]

/-- **Without a transaction the books change all the same**: the netting
breaks off at `9`, but `4` has been entered by then and owns a coin of no
transaction. -/
theorem overdrawn_books :
    overdrawn.createCondensingTX = none ∧ overdrawn.reachedVoutLimit = false ∧
    overdrawn.state.vin 4 = none ∧
    (overdrawn.state.updateUTXO (overdrawn.createVin (SilubiumState.nullableHash
      SilubiumState.sampleHashes overdrawn.createCondensingTX))).vin 4 =
        some ⟨0, 0, 5, true⟩ := by
  decide

/-- The other way round, `4` paying `9`, the one that falls short comes
first and nothing is entered. -/
def overdrawnFirst : CondensingTX := { overdrawn with transfers := [⟨4, 9, 5⟩] }

theorem overdrawnFirst_books (a : Address) (ha : a ∈ parties overdrawnFirst.transfers)
    (he : overdrawnFirst.Entered a) : overdrawnFirst.AlreadyBooked a := by
  have hshort : overdrawnFirst.Short 4 := by
    simp only [Short]
    decide
  have hmem : 4 ∈ parties overdrawnFirst.transfers := by decide
  have hle : 4 ≤ a := by
    have hor : a = 4 ∨ a = 9 := by simpa [overdrawnFirst, parties] using ha
    rcases hor with rfl | rfl <;> decide
  exact absurd hshort (he 4 hmem hle)

theorem overdrawnFirst_unchanged :
    overdrawnFirst.createCondensingTX = none ∧
    ∀ a, (overdrawnFirst.state.updateUTXO (overdrawnFirst.createVin (SilubiumState.nullableHash
      SilubiumState.sampleHashes overdrawnFirst.createCondensingTX))).vin a =
        overdrawnFirst.state.vin a :=
  have hnull : overdrawnFirst.createCondensingTX = none := by decide
  ⟨hnull, (books_unchanged_iff sampleHashes hnull (by decide)).2
    fun a ha _ he => overdrawnFirst_books a ha he⟩

end CondensingTX

end Slucore
