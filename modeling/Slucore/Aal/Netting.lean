import Slucore.Aal.Condensing
import Slucore.Common.OrderedMap
import Slucore.Evm.Payment
/-!
# Aal — what the condensing transaction computes

The maps of `CondensingTX`, read off once: which coin is selected for an
address (`selected`), what an address receives and pays, and the balance
it is left with. The addresses concerned are the parties of the
transfers. The coin of the executed output stands for the sender as soon
as the sender pays; that is the first thing to happen when the output
carries value (`Leads`).
-/


namespace Slucore

open List hiding lt_of_le_of_lt
open Option
open Std.TreeMap
open OrderedMap

/-- The addresses a list of transfers is about. -/
def parties (ts : List TransferInfo) : List Address := ts.flatMap fun t => [t.src, t.dst]

variable {ts : List TransferInfo} {a : Address}

theorem mem_parties_append {us : List TransferInfo} :
    a ∈ parties (ts ++ us) ↔ a ∈ parties ts ∨ a ∈ parties us := by
  simp [parties]

theorem mem_parties_singleton {t : TransferInfo} :
    a ∈ parties [t] ↔ a = t.src ∨ a = t.dst := by
  simp [parties]

/-- Only parties have a flow. -/
theorem inflow_eq_zero (h : a ∉ parties ts) :
    inflow ts a = 0 :=
  keyedSum_eq_zero fun t ht heq => h (mem_flatMap.2 ⟨t, ht, by simp [heq]⟩)

theorem outflow_eq_zero (h : a ∉ parties ts) :
    outflow ts a = 0 :=
  keyedSum_eq_zero fun t ht heq => h (mem_flatMap.2 ⟨t, ht, by simp [heq]⟩)

theorem toCAmount_eq {v : U256} (h : v.toNat < 2 ^ 63) : toCAmount v = v.toNat := by
  exact wrap64_eq_self ⟨by omega, by omega⟩

namespace CondensingTX

variable {ctx : CondensingTX} {a b : Address} {vins : AddrMap Vin} {ts : List TransferInfo}
  {ti : TransferInfo}

/-! ## The coins selected -/

/-- The coin selected for a party. -/
def selected (ctx : CondensingTX) (a : Address) : Option Vin :=
  if a = ctx.transaction.sender ∧ 0 < ctx.transaction.value then some ctx.transactionVin
  else ctx.state.vin a

theorem getElem?_insertVin (h : ¬ vins.contains a = true) :
    (ctx.insertVin vins a)[b]? = if b = a then ctx.state.vin a else vins[b]? := by
  unfold insertVin
  split
  · rename_i v hv
    rw [OrderedMap.getElem?_insert, hv]
  rename_i hv
  by_cases hb : b = a
  · rw [if_pos hb, hv, hb, getElem?_of_not_contains h]
  · rw [if_neg hb]

/-- The coin picked for the sender of an output with value: that of the
output as soon as the sender pays, its own if it is paid before that. -/
def senderCoin (ctx : CondensingTX) : List TransferInfo → Option Vin
  | [] => none
  | ti :: ts =>
    if ti.src = ctx.transaction.sender then some ctx.transactionVin
    else if ti.dst = ctx.transaction.sender then
      (ctx.state.vin ctx.transaction.sender).or (ctx.senderCoin ts)
    else ctx.senderCoin ts

/-- The coin picked for a party. -/
def picked (ctx : CondensingTX) (a : Address) : Option Vin :=
  if a = ctx.transaction.sender ∧ 0 < ctx.transaction.value then ctx.senderCoin ctx.transfers
  else ctx.state.vin a

/-- The coin of a receiver is entered. -/
def enterReceiver (ctx : CondensingTX) (a : Address) (vins : AddrMap Vin) : AddrMap Vin :=
  if vins.contains a then vins else ctx.insertVin vins a

/-- The coin of a payer is entered. -/
def enterPayer (ctx : CondensingTX) (a : Address) (vins : AddrMap Vin) : AddrMap Vin :=
  if vins.contains a then vins
  else if a = ctx.transaction.sender ∧ 0 < ctx.transaction.value then
    (ctx.insertVin vins a).insert a ctx.transactionVin
  else ctx.insertVin vins a

variable {vins : AddrMap Vin} {ti : TransferInfo}

theorem selectVin_eq :
    ctx.selectVin vins ti = ctx.enterReceiver ti.dst (ctx.enterPayer ti.src vins) := rfl

theorem getElem?_enterReceiver :
    (ctx.enterReceiver a vins)[b]? =
      if b = a then (vins[a]?).or (ctx.state.vin a) else vins[b]? := by
  unfold enterReceiver
  by_cases hc : vins.contains a = true
  · obtain ⟨v, hv⟩ := contains_iff.1 hc
    rw [if_pos hc]
    by_cases hb : b = a <;> simp [hb, hv]
  · rw [if_neg hc, getElem?_insertVin hc, getElem?_of_not_contains hc]
    rfl

theorem getElem?_enterPayer :
    (ctx.enterPayer a vins)[b]? =
      if b = a then (vins[a]?).or (ctx.selected a) else vins[b]? := by
  unfold enterPayer
  by_cases hc : vins.contains a = true
  · obtain ⟨v, hv⟩ := contains_iff.1 hc
    rw [if_pos hc]
    by_cases hb : b = a <;> simp [hb, hv]
  · rw [if_neg hc, getElem?_of_not_contains hc]
    unfold selected
    split
    · rw [OrderedMap.getElem?_insert, getElem?_insertVin hc]
      split <;> rfl
    · rw [getElem?_insertVin hc]
      rfl

/-- The coin that one transfer enters for an address. -/
def coinIn (ctx : CondensingTX) (a : Address) (ti : TransferInfo) : Option Vin :=
  (if a = ti.src then ctx.selected a else none).or (if a = ti.dst then ctx.state.vin a else none)

/-- One turn of `selectionVin` enters the coins that are not there yet. -/
theorem getElem?_selectVin : (ctx.selectVin vins ti)[a]? = (vins[a]?).or (ctx.coinIn a ti) := by
  rw [selectVin_eq, getElem?_enterReceiver, coinIn]
  by_cases hd : a = ti.dst
  · rw [if_pos hd, if_pos hd, ← hd, getElem?_enterPayer]
    by_cases hs : a = ti.src
    · rw [if_pos hs, if_pos hs, ← hs, Option.or_assoc]
    · rw [if_neg hs, if_neg hs, Option.none_or]
  · rw [if_neg hd, if_neg hd, Option.or_none, getElem?_enterPayer]
    by_cases hs : a = ti.src
    · rw [if_pos hs, if_pos hs, ← hs]
    · rw [if_neg hs, if_neg hs, or_none]

theorem getElem?_foldl_selectVin :
    (ts.foldl ctx.selectVin vins)[a]? = (vins[a]?).or (ts.findSome? (ctx.coinIn a)) := by
  induction ts generalizing vins with
  | nil => simp
  | cons ti ts ih =>
    rw [foldl_cons, ih, getElem?_selectVin, Option.or_assoc, findSome?_cons]
    cases ctx.coinIn a ti <;> rfl

/-- The sender of an output with value. -/
theorem findSome?_coinIn_sender (hv : 0 < ctx.transaction.value) :
    ts.findSome? (ctx.coinIn ctx.transaction.sender) = ctx.senderCoin ts := by
  have hsel : ctx.selected ctx.transaction.sender = some ctx.transactionVin := if_pos ⟨rfl, hv⟩
  induction ts with
  | nil => rfl
  | cons ti ts ih =>
    rw [findSome?_cons, ih, senderCoin, coinIn, hsel]
    by_cases hs : ti.src = ctx.transaction.sender
    · rw [if_pos hs.symm, if_pos hs, some_or]
    · rw [if_neg (Ne.symm hs), if_neg hs, none_or]
      by_cases hd : ti.dst = ctx.transaction.sender
      · rw [if_pos hd.symm, if_pos hd]
        cases ctx.state.vin ctx.transaction.sender <;> rfl
      · rw [if_neg (Ne.symm hd), if_neg hd]

/-- Anyone else. -/
theorem findSome?_coinIn_other (hs : ¬ (a = ctx.transaction.sender ∧ 0 < ctx.transaction.value))
    (ha : a ∈ parties ts) : ts.findSome? (ctx.coinIn a) = ctx.state.vin a := by
  have hsel : ctx.selected a = ctx.state.vin a := if_neg hs
  cases hv : ctx.state.vin a with
  | none => simp [coinIn, hsel, hv]
  | some v =>
    have hcoin : ∀ ti, ctx.coinIn a ti = if a = ti.src ∨ a = ti.dst then some v else none := by
      intro ti
      rw [coinIn, hsel, hv]
      by_cases hsrc : a = ti.src
      · rw [if_pos hsrc, some_or, if_pos (.inl hsrc)]
      · rw [if_neg hsrc]
        exact if_congr (or_iff_right hsrc).symm rfl rfl
    obtain ⟨ti, hti, hparty⟩ := mem_flatMap.1 ha
    have hsome : (ctx.coinIn a ti).isSome := by
      rw [hcoin, if_pos (by simpa using hparty)]
      rfl
    obtain ⟨w, hw⟩ := isSome_iff_exists.1 (findSome?_isSome_iff.2 ⟨ti, hti, hsome⟩)
    obtain ⟨ti', -, hti'⟩ := exists_of_findSome?_eq_some hw
    rw [hcoin] at hti'
    split at hti'
    · rw [hw, hti']
    · cases hti'

/-- **The coin `selectionVin` picks for an address**, whatever the
transfers. -/
theorem getElem?_selectionVin :
    ctx.selectionVin[a]? = if a ∈ parties ctx.transfers then ctx.picked a else none := by
  rw [selectionVin, getElem?_foldl_selectVin, getElem?_emptyc, none_or]
  split
  · rename_i ha
    unfold picked
    split
    · rename_i hs
      rw [hs.1, findSome?_coinIn_sender hs.2]
    · exact findSome?_coinIn_other ‹_› ha
  · rename_i ha
    refine findSome?_eq_none_iff.2 fun ti hti => ?_
    have hne : a ≠ ti.src ∧ a ≠ ti.dst := by
      refine ⟨?_, ?_⟩ <;> rintro rfl <;> exact ha (mem_flatMap.2 ⟨ti, hti, by simp⟩)
    simp [coinIn, hne]

/-- An output with value is paid for first. -/
def Leads (ctx : CondensingTX) : Prop :=
  0 < ctx.transaction.value →
    ∃ ti ts, ctx.transfers = ti :: ts ∧ ti.src = ctx.transaction.sender

/-- The sender of an output with value is a party. -/
theorem Leads.sender_mem (hlead : ctx.Leads) (hv : 0 < ctx.transaction.value) :
    ctx.transaction.sender ∈ parties ctx.transfers := by
  obtain ⟨ti, ts, heq, hsrc⟩ := hlead hv
  rw [heq, ← hsrc]
  simp [parties]

/-- Then its coin stands for the sender. -/
theorem Leads.picked_eq (hlead : ctx.Leads) : ctx.picked a = ctx.selected a := by
  unfold picked selected
  split
  · rename_i hs
    obtain ⟨ti, ts, heq, hsrc⟩ := hlead hs.2
    rw [heq, senderCoin, if_pos hsrc]
  · rfl

/-- **`selectionVin` selects the coin of every party.** -/
theorem mem_selectionVin (hlead : ctx.Leads) {p : Address × Vin} :
    p ∈ ctx.selectionVin.toList ↔ p.1 ∈ parties ctx.transfers ∧ ctx.selected p.1 = some p.2 := by
  rw [mem_toList_iff_getElem?_eq_some, getElem?_selectionVin, hlead.picked_eq]
  split <;> simp [*]

/-! ## What a party receives and pays -/

/-- The entry of a party in the map of flows. -/
def flows (ts : List TransferInfo) (a : Address) : U256 × U256 :=
  (BitVec.ofNat 256 (inflow ts a), BitVec.ofNat 256 (outflow ts a))

theorem flows_eq_zero (h : a ∉ parties ts) : flows ts a = (0, 0) := by
  simp [flows, inflow_eq_zero h, outflow_eq_zero h]

/-- The map of flows of a list of transfers. -/
def IsPlusMinus (m : AddrMap (U256 × U256)) (ts : List TransferInfo) : Prop :=
  ∀ b, m[b]? = if b ∈ parties ts then some (flows ts b) else none

variable {m : AddrMap (U256 × U256)}

theorem IsPlusMinus.getD (h : IsPlusMinus m ts) (a : Address) :
    m.getD a (0, 0) = flows ts a := by
  rw [getD_eq_getD_getElem?, h]
  split
  · rfl
  · rw [flows_eq_zero ‹_›]
    rfl

/-- One more transfer adds its value on both sides. -/
theorem flows_append_singleton :
    flows (ts ++ [ti]) a =
      ((flows ts a).1 + (if a = ti.dst then ti.value else 0),
        (flows ts a).2 + if a = ti.src then ti.value else 0) := by
  simp only [flows, inflow, outflow, keyedSum_append, keyedSum_cons, BitVec.ofNat_add,
    eq_comm (a := a)]
  congr 1 <;> split <;> simp

/-- One turn of `calculatePlusAndMinus`. -/
theorem IsPlusMinus.plusMinus (ti : TransferInfo) (h : IsPlusMinus m ts) :
    IsPlusMinus (CondensingTX.plusMinus m ti) (ts ++ [ti]) := by
  intro b
  have hq : ∀ p : U256 × U256, (m.insert ti.src p).getD ti.dst (0, 0) =
      if ti.dst = ti.src then p else flows ts ti.dst := by
    intro p
    rw [getD_eq_getD_getElem?, OrderedMap.getElem?_insert]
    split
    · rfl
    · rw [← getD_eq_getD_getElem?, h.getD]
  simp only [CondensingTX.plusMinus, OrderedMap.getElem?_insert, hq, h.getD, mem_parties_append,
    mem_parties_singleton, flows_append_singleton]
  by_cases hd : b = ti.dst
  · -- the destination, which may be the source as well
    by_cases hs : ti.dst = ti.src <;> simp [hd, hs]
  by_cases hs : b = ti.src
  · have hne : ti.src ≠ ti.dst := hs ▸ hd
    simp [hs, hne]
  · simp [hd, hs, h b]

/-- **`calculatePlusAndMinus` sums up both sides of every party.** -/
theorem calculatePlusAndMinus_eq : IsPlusMinus ctx.calculatePlusAndMinus ctx.transfers := by
  have hfold : ∀ us ts m, IsPlusMinus m ts →
      IsPlusMinus (us.foldl CondensingTX.plusMinus m) (ts ++ us) := by
    intro us
    induction us with
    | nil => intro ts m h; simpa using h
    | cons ti us ih => intro ts m h; simpa using ih _ _ (h.plusMinus ti)
  exact hfold ctx.transfers [] ∅ fun b => by
    rw [getElem?_emptyc, if_neg (by simp [parties])]

/-! ## The balance a party is left with -/

/-- What a party can pay from: the value of its selected coin, unless the
coin was killed with an address noted for deletion. -/
def available (ctx : CondensingTX) (a : Address) : U256 :=
  match ctx.selected a with
  | some v => if ctx.spendable a v then v.value else 0
  | none => 0

/-- The balance after netting, in the wrapping arithmetic of the source. -/
def netted (ctx : CondensingTX) (a : Address) : U256 :=
  ctx.available a + (flows ctx.transfers a).1 - (flows ctx.transfers a).2

/-- No party pays more than it has. -/
def Covered (ctx : CondensingTX) : Prop :=
  ∀ a ∈ parties ctx.transfers,
    (flows ctx.transfers a).2 ≤ ctx.available a + (flows ctx.transfers a).1

/-- The loop of `createNewBalances` succeeds when no entry falls short. -/
theorem newBalancesFrom_snd {l : List (Address × (U256 × U256))} {balances : AddrMap U256} :
    (ctx.newBalancesFrom l balances).2 = true ↔
      ∀ p ∈ l, p.2.2 ≤ ctx.startBalance p.1 + p.2.1 := by
  induction l generalizing balances with
  | nil => simp [newBalancesFrom]
  | cons p l ih =>
    simp only [newBalancesFrom, forall_mem_cons]
    split
    · rename_i hlt
      simp only [Bool.false_eq_true, false_iff, not_and]
      intro hle
      exact absurd hle (BitVec.not_le.2 hlt)
    · rename_i hlt
      rw [ih]
      exact ⟨fun h => ⟨BitVec.not_lt.1 hlt, h⟩, fun h => h.2⟩

/-- The entries of the map of flows are those of the parties. -/
theorem mem_calculatePlusAndMinus {p : Address × (U256 × U256)} :
    p ∈ ctx.calculatePlusAndMinus.toList ↔
      p.1 ∈ parties ctx.transfers ∧ p.2 = flows ctx.transfers p.1 := by
  rw [mem_toList_iff_getElem?_eq_some, calculatePlusAndMinus_eq]
  split
  · simp [*, eq_comm]
  · simp [*]

/-- What a party starts from. -/
def start (ctx : CondensingTX) (a : Address) : U256 :=
  (ctx.picked a).elim 0 fun v => if ctx.spendable a v then v.value else 0

/-- A party pays more than it starts from and receives. -/
def Short (ctx : CondensingTX) (a : Address) : Prop :=
  ctx.start a + (flows ctx.transfers a).1 < (flows ctx.transfers a).2

/-- What a party that does not fall short is left with. -/
def left (ctx : CondensingTX) (a : Address) : U256 :=
  ctx.start a + (flows ctx.transfers a).1 - (flows ctx.transfers a).2

theorem startBalance_eq_start (ha : a ∈ parties ctx.transfers) :
    ctx.startBalance a = ctx.start a := by
  unfold startBalance start vinOf
  rw [getD_eq_getD_getElem?, getElem?_selectionVin, if_pos ha]
  cases ctx.picked a with
  | none => simp
  | some v => rfl

/-- An entry of the map of flows pays more than its address has. -/
def Exceeds (ctx : CondensingTX) (p : Address × (U256 × U256)) : Prop :=
  ctx.startBalance p.1 + p.2.1 < p.2.2

/-- The loop of `createNewBalances` over entries in the order of their
addresses: it enters every address up to which no entry exceeds, and no
other. -/
theorem newBalancesFrom_ordered (ctx : CondensingTX) {l : List (Address × (U256 × U256))}
    (balances : AddrMap U256) (hl : l.Pairwise fun p q => p.1 < q.1) :
    (∀ p ∈ l, (∀ q ∈ l, q.1 ≤ p.1 → ¬ ctx.Exceeds q) →
      (ctx.newBalancesFrom l balances).1[p.1]? =
        some (ctx.startBalance p.1 + p.2.1 - p.2.2)) ∧
    ∀ a, (∀ p ∈ l, p.1 = a → ∃ q ∈ l, q.1 ≤ a ∧ ctx.Exceeds q) →
      (ctx.newBalancesFrom l balances).1[a]? = balances[a]? := by
  induction l generalizing balances with
  | nil => simp [newBalancesFrom]
  | cons p l ih =>
    obtain ⟨hlt, hl⟩ := pairwise_cons.1 hl
    have heq : ctx.newBalancesFrom (p :: l) balances =
        if ctx.startBalance p.1 + p.2.1 < p.2.2 then (balances, false)
        else ctx.newBalancesFrom l
          (balances.insert p.1 (ctx.startBalance p.1 + p.2.1 - p.2.2)) := rfl
    by_cases hp : ctx.Exceeds p
    · rw [heq, if_pos (show _ < _ from hp)]
      refine ⟨fun q hq hall => absurd hp (hall p mem_cons_self ?_), fun a _ => rfl⟩
      rcases mem_cons.1 hq with rfl | hq
      · exact le_rfl
      · exact (hlt q hq).le
    · rw [heq, if_neg (show ¬ _ < _ from hp)]
      obtain ⟨hin, hout⟩ := ih (balances.insert p.1 _) hl
      refine ⟨fun q hq hall => ?_, fun a ha => ?_⟩
      · rcases mem_cons.1 hq with rfl | hq
        · rw [hout q.1 fun q' hq' h => absurd h (hlt q' hq').ne', OrderedMap.getElem?_insert,
            if_pos rfl]
        · exact hin q hq fun q' hq' => hall q' (mem_cons_of_mem _ hq')
      · have hne : a ≠ p.1 := by
          rintro rfl
          obtain ⟨q, hq, hle, hex⟩ := ha p mem_cons_self rfl
          rcases mem_cons.1 hq with rfl | hq
          · exact hp hex
          · exact absurd hle (hlt q hq).not_ge
        rw [hout a fun q hq h => ?_, OrderedMap.getElem?_insert, if_neg hne]
        obtain ⟨q', hq', hle, hex⟩ := ha q (mem_cons_of_mem _ hq) h
        rcases mem_cons.1 hq' with rfl | hq'
        · exact absurd hex hp
        · exact ⟨q', hq', hle, hex⟩

theorem toList_pairwise {α : Type} {m : AddrMap α} : m.toList.Pairwise fun p q => p.1 < q.1 :=
  ordered_keys_toList.imp fun h => Nat.compare_eq_lt.1 h

/-- No party up to `a` falls short: the netting reaches `a`. -/
def Entered (ctx : CondensingTX) (a : Address) : Prop :=
  ∀ b ∈ parties ctx.transfers, b ≤ a → ¬ ctx.Short b

theorem exceeds_iff (ha : a ∈ parties ctx.transfers) :
    ctx.Exceeds (a, flows ctx.transfers a) ↔ ctx.Short a := by
  unfold Exceeds Short
  rw [startBalance_eq_start ha]

/-- **The balances entered, whether or not the netting goes through.** -/
theorem getElem?_createNewBalances (ha : a ∈ parties ctx.transfers) (he : ctx.Entered a) :
    ctx.createNewBalances.1[a]? = some (ctx.left a) := by
  have hall : ∀ q ∈ ctx.calculatePlusAndMinus.toList, q.1 ≤ a → ¬ ctx.Exceeds q := by
    rintro ⟨b, f⟩ hq hle
    obtain ⟨hb, hf⟩ := mem_calculatePlusAndMinus.1 hq
    obtain rfl : f = flows ctx.transfers b := hf
    exact fun hex => he b hb hle ((exceeds_iff hb).1 hex)
  have hin := (newBalancesFrom_ordered ctx {} toList_pairwise).1
    (a, flows ctx.transfers a) (mem_calculatePlusAndMinus.2 ⟨ha, rfl⟩) hall
  rw [createNewBalances, hin, startBalance_eq_start ha]
  rfl

/-- Nothing else is entered. -/
theorem getElem?_createNewBalances_none (h : ¬ (a ∈ parties ctx.transfers ∧ ctx.Entered a)) :
    ctx.createNewBalances.1[a]? = none := by
  rw [createNewBalances,
    (newBalancesFrom_ordered ctx {} toList_pairwise).2 a,
    getElem?_emptyc]
  intro p hp hpa
  have ha : a ∈ parties ctx.transfers := hpa ▸ (mem_calculatePlusAndMinus.1 hp).1
  have hshort : ¬ ctx.Entered a := fun he => h ⟨ha, he⟩
  simp only [Entered, not_forall, not_not] at hshort
  obtain ⟨b, hb, hle, hs⟩ := hshort
  exact ⟨(b, flows ctx.transfers b), mem_calculatePlusAndMinus.2 ⟨hb, rfl⟩, hle,
    (exceeds_iff hb).2 hs⟩

/-- The netting goes through when nobody falls short. -/
theorem createNewBalances_snd_iff :
    ctx.createNewBalances.2 = true ↔ ∀ b ∈ parties ctx.transfers, ¬ ctx.Short b := by
  unfold createNewBalances
  rw [newBalancesFrom_snd]
  simp only [mem_calculatePlusAndMinus, Prod.forall]
  constructor
  · intro h b hb hs
    have hle := h b _ _ ⟨hb, rfl⟩
    rw [startBalance_eq_start hb] at hle
    exact absurd hs (BitVec.not_lt.2 hle)
  · rintro h b plus minus ⟨hb, heq⟩
    have hs := h b hb
    rw [startBalance_eq_start hb]
    rw [Short, ← heq] at hs
    exact BitVec.not_lt.1 hs

/-- What a party has available is what it starts from. -/
theorem Leads.start_eq (hlead : ctx.Leads) : ctx.start a = ctx.available a := by
  unfold start available
  rw [hlead.picked_eq]
  cases ctx.selected a <;> rfl

theorem Leads.left_eq (hlead : ctx.Leads) : ctx.left a = ctx.netted a := by
  rw [left, hlead.start_eq]
  rfl

/-- **`createNewBalances` succeeds exactly when everything is covered.** -/
theorem createNewBalances_snd (hlead : ctx.Leads) :
    ctx.createNewBalances.2 = true ↔ ctx.Covered := by
  simp only [createNewBalances_snd_iff, Short, hlead.start_eq, BitVec.not_lt]
  rfl

/-- **It then leaves every party its netted balance.** -/
theorem createNewBalances_fst (hlead : ctx.Leads) (h : ctx.createNewBalances.2 = true)
    (a : Address) :
    ctx.createNewBalances.1[a]? = if a ∈ parties ctx.transfers then some (ctx.netted a) else none := by
  split
  · rename_i ha
    rw [getElem?_createNewBalances ha fun b hb _ => createNewBalances_snd_iff.1 h b hb,
      hlead.left_eq]
  · rename_i ha
    exact getElem?_createNewBalances_none fun h => ha h.1

/-! ## Value in and value out -/

/-- The parties as a set. -/
def partySet (ctx : CondensingTX) : Finset Address := (parties ctx.transfers).toFinset

/-- All that the selected coins have to give. -/
def pool (ctx : CondensingTX) : ℕ := ∑ a ∈ ctx.partySet, (ctx.available a).toNat

/-- Nothing wraps: what a party has and receives fits 256 bits, so does
what it pays, and the coins together fit an amount. -/
structure Fits (ctx : CondensingTX) : Prop where
  receipts : ∀ a, (ctx.available a).toNat + inflow ctx.transfers a < 2 ^ 256
  payments : ∀ a, outflow ctx.transfers a < 2 ^ 256
  pool : ctx.pool < 2 ^ 63

/-- Inside the bounds cover and balance are statements about numbers. -/
theorem Covered.netted_toNat (hcov : ctx.Covered) (hfit : ctx.Fits)
    (ha : a ∈ parties ctx.transfers) :
    (ctx.netted a).toNat + outflow ctx.transfers a =
      (ctx.available a).toNat + inflow ctx.transfers a := by
  have hf := hfit.receipts a
  have hle := hcov a ha
  have hin : (flows ctx.transfers a).1.toNat = inflow ctx.transfers a := by
    exact Nat.mod_eq_of_lt (by omega)
  have hout' : (flows ctx.transfers a).2.toNat = outflow ctx.transfers a := by
    exact Nat.mod_eq_of_lt (hfit.payments a)
  have hsum : (ctx.available a + (flows ctx.transfers a).1).toNat =
      (ctx.available a).toNat + inflow ctx.transfers a := by
    rw [BitVec.toNat_add, hin]
    exact Nat.mod_eq_of_lt hf
  have hle' : outflow ctx.transfers a ≤ (ctx.available a).toNat + inflow ctx.transfers a := by
    rw [← hout', ← hsum]
    exact hle
  rw [netted, BitVec.toNat_sub_of_le hle]
  omega

/-- What everyone pays is what everyone receives. -/
theorem sum_inflow_eq_sum_outflow :
    ∑ a ∈ ctx.partySet, inflow ctx.transfers a = ∑ a ∈ ctx.partySet, outflow ctx.transfers a := by
  have hmem : ∀ t ∈ ctx.transfers, t.src ∈ ctx.partySet ∧ t.dst ∈ ctx.partySet := by
    intro t ht
    simp only [partySet, List.mem_toFinset, parties, mem_flatMap]
    exact ⟨⟨t, ht, by simp⟩, ⟨t, ht, by simp⟩⟩
  unfold inflow outflow
  rw [sum_keyedSum fun t ht => (hmem t ht).2, sum_keyedSum fun t ht => (hmem t ht).1]

/-- **Netting conserves value.** -/
theorem Covered.sum_netted (hcov : ctx.Covered) (hfit : ctx.Fits) :
    ∑ a ∈ ctx.partySet, (ctx.netted a).toNat = ctx.pool := by
  have hsum : ∑ a ∈ ctx.partySet, ((ctx.netted a).toNat + outflow ctx.transfers a) =
      ∑ a ∈ ctx.partySet, ((ctx.available a).toNat + inflow ctx.transfers a) :=
    Finset.sum_congr rfl fun a ha => hcov.netted_toNat hfit (List.mem_toFinset.1 ha)
  rw [Finset.sum_add_distrib, Finset.sum_add_distrib, sum_inflow_eq_sum_outflow] at hsum
  unfold pool
  omega

theorem Covered.netted_lt (hcov : ctx.Covered) (hfit : ctx.Fits) (ha : a ∈ parties ctx.transfers) :
    (ctx.netted a).toNat < 2 ^ 63 := by
  have hle := Finset.single_le_sum (f := fun a => (ctx.netted a).toNat)
    (fun _ _ => Nat.zero_le _) (List.mem_toFinset.2 ha : a ∈ ctx.partySet)
  have hpool := hfit.pool
  rw [← hcov.sum_netted hfit] at hpool
  exact lt_of_le_of_lt hle hpool

/-- The value of a selected coin that is spent, and nothing for any other,
is what its address has available. -/
theorem available_toNat {v : Vin} (h : ctx.selected a = some v) :
    (if decide (0 < v.value) && ctx.spendable a v then v.value.toNat else 0) =
      (ctx.available a).toNat := by
  simp only [available, h]
  by_cases hs : ctx.spendable a v = true
  · by_cases hv : 0 < v.value
    · rw [decide_eq_true hv, hs]
      rfl
    · have hzero : v.value = 0 := BitVec.le_zero_iff.1 (BitVec.not_lt.1 hv)
      simp [hzero]
  · simp [hs]

/-- **The inputs are worth the pool**, for any valuation of outpoints that
knows the selected coins. -/
theorem createVins_sum (hlead : ctx.Leads) (value : COutPoint → ℤ)
    (hvalue : ∀ a v, ctx.selected a = some v → 0 < v.value →
      value ⟨v.hash, v.nVout⟩ = v.value.toNat) :
    (ctx.createVins.map fun i => value i.prevout).sum = ctx.pool := by
  unfold createVins
  rw [List.map_map, sum_map_filter]
  have hterm : (ctx.selectionVin.toList.map fun p =>
      if decide (0 < p.2.value) && ctx.spendable p.1 p.2 then
        ((fun i : CTxIn => value i.prevout) ∘
          fun p : Address × Vin => { prevout := ⟨p.2.hash, p.2.nVout⟩, scriptSig := spendScript }) p
      else 0) =
      (ctx.selectionVin.toList.map fun p => (ctx.available p.1).toNat).map Nat.cast := by
    rw [List.map_map]
    refine map_congr_left fun p hp => ?_
    obtain ⟨-, hs⟩ := (mem_selectionVin hlead).1 hp
    simp only [Function.comp_apply, ← available_toNat hs]
    split
    · rename_i hif
      rw [Bool.and_eq_true, decide_eq_true_iff] at hif
      exact hvalue p.1 p.2 hs hif.1
    · rfl
  rw [hterm, ← Nat.cast_list_sum]
  congr 1
  rw [sum_toList (s := ctx.partySet) (fun a _ => (ctx.available a).toNat)]
  · refine Finset.sum_congr rfl fun a ha => ?_
    rw [getElem?_selectionVin, if_pos (List.mem_toFinset.1 ha), hlead.picked_eq]
    cases hs : ctx.selected a with
    | none => simp [available, hs]
    | some v => rfl
  · intro a v hget
    have hmem := mem_toList_iff_getElem?_eq_some.2 hget
    exact List.mem_toFinset.2 ((mem_selectionVin hlead).1 hmem).1

/-- The output that pays `p`. -/
def voutOf (ctx : CondensingTX) (p : Address × U256) : CTxOut :=
  ⟨toCAmount p.2, ctx.payScript p.1⟩

variable {p : Address × U256}

/-- What a balance adds to the outputs. -/
theorem voutOf_nValue (h : p.2.toNat < 2 ^ 63) :
    (if decide (0 < p.2) then (ctx.voutOf p).nValue else 0) = p.2.toNat := by
  rw [voutOf, toCAmount_eq h]
  by_cases hp : 0 < p.2
  · rw [decide_eq_true hp, if_pos rfl]
  · have hzero : p.2 = 0 := BitVec.le_zero_iff.1 (BitVec.not_lt.1 hp)
    rw [hzero]
    simp

/-- One turn of the loop of `createVout`. -/
def Vouts.push (ctx : CondensingTX) (p : Address × U256) (r : Vouts) : Vouts :=
  if 0 < p.2 then ⟨r.outs ++ [ctx.voutOf p], r.nVouts.insert p.1 r.outs.length, r.overflow⟩ else r

variable {l : List (Address × U256)} {r : Vouts}

theorem voutsFrom_cons :
    ctx.voutsFrom (p :: l) r =
      if maxContractVouts < (Vouts.push ctx p r).outs.length then
        { Vouts.push ctx p r with overflow := true }
      else ctx.voutsFrom l (Vouts.push ctx p r) := rfl

/-- Without overflow the loop pays every positive balance. -/
theorem voutsFrom_outs (h : (ctx.voutsFrom l r).overflow = false) :
    (ctx.voutsFrom l r).outs =
      r.outs ++ (l.filter fun p => decide (0 < p.2)).map ctx.voutOf := by
  induction l generalizing r with
  | nil => simp [voutsFrom]
  | cons p l ih =>
    rw [voutsFrom_cons] at h ⊢
    split at h
    · cases h
    rename_i hlim
    rw [if_neg hlim, ih h]
    by_cases hp : 0 < p.2
    · rw [Vouts.push, if_pos hp, filter_cons_of_pos (by simpa using hp)]
      simp
    · rw [Vouts.push, if_neg hp, filter_cons_of_neg (by simpa using hp)]

/-- Without overflow the loop remembers where it paid an address. -/
theorem voutsFrom_nVouts (hnd : (l.map Prod.fst).Nodup) (h : (ctx.voutsFrom l r).overflow = false) :
    (∀ p ∈ l, 0 < p.2 → ∃ i, (ctx.voutsFrom l r).nVouts[p.1]? = some i ∧
        (ctx.voutsFrom l r).outs[i]? = some (ctx.voutOf p)) ∧
      ∀ a, a ∉ l.map Prod.fst → (ctx.voutsFrom l r).nVouts[a]? = r.nVouts[a]? := by
  induction l generalizing r with
  | nil => simp [voutsFrom]
  | cons p l ih =>
    have houts := voutsFrom_outs h
    rw [voutsFrom_cons] at h houts ⊢
    simp only [map_cons, nodup_cons] at hnd
    split at h
    · cases h
    rename_i hlim
    rw [if_neg hlim] at houts ⊢
    obtain ⟨hin, hout⟩ := ih hnd.2 h
    refine ⟨?_, ?_⟩
    · intro q hq hpos
      rcases mem_cons.1 hq with rfl | hq
      · -- the entry just pushed: later entries have other keys
        refine ⟨r.outs.length, ?_, ?_⟩
        · rw [hout _ hnd.1, Vouts.push, if_pos hpos, OrderedMap.getElem?_insert, if_pos rfl]
        · rw [houts, filter_cons_of_pos (by simpa using hpos)]
          simp
      · exact hin q hq hpos
    · intro b hb
      simp only [map_cons, mem_cons, not_or] at hb
      rw [hout b hb.2, Vouts.push]
      split
      · rw [OrderedMap.getElem?_insert, if_neg hb.1]
      · rfl

/-- The balances are those of the parties. -/
theorem mem_createNewBalances (hlead : ctx.Leads) (h : ctx.createNewBalances.2 = true)
    :
    p ∈ ctx.createNewBalances.1.toList ↔
      p.1 ∈ parties ctx.transfers ∧ p.2 = ctx.netted p.1 := by
  rw [mem_toList_iff_getElem?_eq_some, createNewBalances_fst hlead h]
  split
  · simp [*, eq_comm]
  · simp [*]

/-- **The outputs are worth the pool.** -/
theorem createVout_sum (hlead : ctx.Leads) (hcov : ctx.Covered) (hfit : ctx.Fits)
    (hlim : ctx.createVout.overflow = false) :
    (ctx.createVout.outs.map CTxOut.nValue).sum = ctx.pool := by
  have hok := (createNewBalances_snd hlead).2 hcov
  unfold createVout at hlim ⊢
  have hmap : ∀ l : List (Address × U256), (l.map ctx.voutOf).map CTxOut.nValue =
      l.map fun p => (ctx.voutOf p).nValue := fun l => List.map_map ..
  have hcast : ∀ l : List (Address × U256), (l.map fun p => p.2.toNat).map (Nat.cast : ℕ → ℤ) =
      l.map fun p => (p.2.toNat : ℤ) := fun l => List.map_map ..
  rw [voutsFrom_outs hlim, nil_append, hmap, sum_map_filter]
  have hterm : (ctx.createNewBalances.1.toList.map fun p =>
      if decide (0 < p.2) then (ctx.voutOf p).nValue else 0) =
      (ctx.createNewBalances.1.toList.map fun p => p.2.toNat).map Nat.cast := by
    rw [hcast]
    refine map_congr_left fun p hp => ?_
    obtain ⟨hparty, hnet⟩ := (mem_createNewBalances hlead hok).1 hp
    have hlt : p.2.toNat < 2 ^ 63 := by
      rw [hnet]
      exact hcov.netted_lt hfit hparty
    exact voutOf_nValue hlt
  rw [hterm, ← Nat.cast_list_sum, ← hcov.sum_netted hfit]
  congr 1
  rw [sum_toList (s := ctx.partySet) (fun (_ : Address) (b : U256) => b.toNat)]
  · refine Finset.sum_congr rfl fun a ha => ?_
    rw [createNewBalances_fst hlead hok, if_pos (List.mem_toFinset.1 ha)]
    rfl
  · intro a b hget
    have hmem := mem_toList_iff_getElem?_eq_some.2 hget
    exact List.mem_toFinset.2 ((mem_createNewBalances hlead hok).1 hmem).1

/-! ## The transaction -/

/-- The outpoints a condensing transaction spends. -/
theorem mem_createVins (hlead : ctx.Leads) {o : COutPoint} :
    o ∈ ctx.createVins.map CTxIn.prevout ↔
      ∃ a v, a ∈ parties ctx.transfers ∧ ctx.selected a = some v ∧ 0 < v.value ∧
        ctx.spendable a v = true ∧ o = ⟨v.hash, v.nVout⟩ := by
  simp only [createVins, List.map_map, List.mem_map, mem_filter,
    Bool.and_eq_true, decide_eq_true_iff, Prod.exists, mem_selectionVin hlead]
  constructor
  · rintro ⟨a, v, ⟨⟨ha, hsel⟩, hpos, hsp⟩, rfl⟩
    exact ⟨a, v, ha, hsel, hpos, hsp, rfl⟩
  · rintro ⟨a, v, ha, hsel, hpos, hsp, rfl⟩
    exact ⟨a, v, ⟨⟨ha, hsel⟩, hpos, hsp⟩, rfl⟩

/-- **An output with value is an input of its condensing transaction.** -/
theorem own_mem_createVins (hlead : ctx.Leads)
    (hv : 0 < ctx.transaction.value) :
    ⟨ctx.transaction.hashWith, ctx.transaction.nVout⟩ ∈
      ctx.createVins.map CTxIn.prevout :=
  (mem_createVins hlead).2 ⟨ctx.transaction.sender, ctx.transactionVin,
    hlead.sender_mem hv, if_pos ⟨rfl, hv⟩, hv, rfl, rfl⟩

/-- Any other input is a coin of the state. -/
theorem state_of_mem_createVins (hlead : ctx.Leads)
    {o : COutPoint} (h : o ∈ ctx.createVins.map CTxIn.prevout)
    (hne : o ≠ ⟨ctx.transaction.hashWith, ctx.transaction.nVout⟩) :
    ∃ a v, ctx.state.vin a = some v ∧ 0 < v.value ∧ o = ⟨v.hash, v.nVout⟩ := by
  obtain ⟨a, v, -, hsel, hpos, -, rfl⟩ := (mem_createVins hlead).1 h
  unfold selected at hsel
  split at hsel
  · obtain ⟨⟩ := hsel
    exact absurd rfl hne
  · exact ⟨a, v, hsel, hpos, rfl⟩

/-- What cannot be covered makes no transaction. -/
theorem createCondensingTX_of_not_covered (hlead : ctx.Leads)
    (h : ¬ ctx.Covered) :
    ctx.createCondensingTX = none := by
  rw [createCondensingTX, if_neg fun hok => h ((createNewBalances_snd hlead).1 hok)]

/-- A transaction has the inputs and outputs computed for it. -/
theorem createCondensingTX_eq_some (hlead : ctx.Leads) {tx : CTransaction}
    (h : ctx.createCondensingTX = some tx) :
    ctx.Covered ∧ tx = { vin := ctx.createVins, vout := ctx.createVout.outs } := by
  unfold createCondensingTX at h
  split at h
  · rename_i hok
    refine ⟨(createNewBalances_snd hlead).1 hok, ?_⟩
    simp only at h
    split at h
    · cases h
    · exact (some.inj h).symm
  · cases h

/-- Below the limit every balance is paid out. -/
theorem overflow_eq_false (hlead : ctx.Leads) (hcov : ctx.Covered)
    (hlim : ctx.reachedVoutLimit = false) : ctx.createVout.overflow = false := by
  simpa [reachedVoutLimit, (createNewBalances_snd hlead).2 hcov] using hlim

/-- **What is covered makes a transaction, if there is anything to spend.** -/
theorem createCondensingTX_isSome (hlead : ctx.Leads) (hcov : ctx.Covered) (hfit : ctx.Fits)
    (hlim : ctx.createVout.overflow = false) (hvins : ctx.createVins ≠ [])
    (hpool : 0 < ctx.pool) : ctx.createCondensingTX.isSome := by
  have hvout : ctx.createVout.outs ≠ [] := by
    intro hnil
    have hsum := createVout_sum hlead hcov hfit hlim
    rw [hnil] at hsum
    simp only [map_nil, sum_nil] at hsum
    omega
  rw [createCondensingTX, if_pos ((createNewBalances_snd hlead).2 hcov)]
  simp [hvins, hvout]

end CondensingTX

end Slucore
