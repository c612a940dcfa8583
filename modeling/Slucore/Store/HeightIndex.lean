import Slucore.Store.StakeIndex
/-!
# Store — the height index

A record of the height index has the key `h`, the height of a block, most
significant byte first, and an address; its value is a list of the hashes
of transactions. So the keys are sorted by height, and among the records
of the store they stand together. `ReadHeightIndex` goes to the first key
that is not below the lowest height, and stops at the first that is not
asked for; `EraseHeightIndex` likewise. Nothing behind the stop is asked
for either, so both are exact (`height_index_exact`).
-/


namespace Slucore

open List CBlockTreeDB SortedStore

/-- `uint256`, as it is stored. -/
abbrev Hash256 : Type := { bytes : List Byte // bytes.length = 32 }

namespace HeightIndex

/-! ## The records -/

/-- The elements of a vector of hashes. -/
def readElements : ℕ → List Byte → Option (List Hash256)
  | 0, _ => some []
  | n + 1, stream =>
    if h : 32 ≤ stream.length then
      (readElements n (stream.drop 32)).map (⟨stream.take 32, length_take_of_le h⟩ :: ·)
    else none

/-- `GetValue` of a vector of hashes. -/
def readHashes (stream : List Byte) : Option (List Hash256) :=
  (readCompactSize stream).bind fun r => readElements r.1 r.2

/-- The bytes of `CHeightTxIndexIteratorKey`, and of the height of a key. -/
def heightBytes (height : ℕ) : List Byte := (toLE 4 height).reverse

/-- The arguments of `ReadHeightIndex`, with the height of the active chain. -/
structure Query where
  low : ℤ
  high : ℤ
  minconf : ℤ
  addresses : List Hash160
  chainHeight : ℤ

/-- An `unsigned int` that becomes an `int`. -/
def asInt (n : ℕ) : ℤ := if n < 2 ^ 31 then n else n - 2 ^ 32

/-- What is stored for a height and an address: the bytes of a list of hashes. -/
structure Entry where
  height : ℕ
  address : Hash160
  value : List Byte
  hashes : List Hash256
  height_lt : height < 2 ^ 31
  reads : readHashes value = some hashes

namespace Entry

def key (e : Entry) : CHeightTxIndexKey := ⟨e.height, e.address⟩

def record (e : Entry) : List Byte × List Byte := (dbHeightIndex :: e.key.serialize, e.value)

end Entry

/-- The records of the height index in a store are those of these entries. -/
def Holds (db : CBlockTreeDB) (entries : List Entry) : Prop :=
  db.records.filter (fun r => r.1.head? == some dbHeightIndex) = entries.map Entry.record

end HeightIndex

namespace CBlockTreeDB

open HeightIndex

variable (db : CBlockTreeDB)

/-- The loop of `ReadHeightIndex`: the height it has come to, and the lists. -/
def readHeights (q : Query) :
    List (List Byte × List Byte) → ℤ → List (List Hash256) → ℤ × List (List Hash256)
  | [], curheight, blocksOfHashes => (curheight, blocksOfHashes)
  | (key, value) :: rest, curheight, blocksOfHashes =>
    let (read, first, second) := getKey key
    let nextHeight := asInt second.height
    if (!read || decide (first ≠ dbHeightIndex)) = true then (curheight, blocksOfHashes)
    else if -1 < q.high ∧ q.high < nextHeight then (curheight, blocksOfHashes)
    else if 0 < q.minconf ∧ q.chainHeight - nextHeight < q.minconf then (curheight, blocksOfHashes)
    else if q.addresses ≠ [] ∧ second.address ∉ q.addresses then
      readHeights q rest nextHeight blocksOfHashes
    else match readHashes value with
      | none => (nextHeight, blocksOfHashes)
      | some hashesTx => readHeights q rest nextHeight (blocksOfHashes ++ [hashesTx])

/-- `ReadHeightIndex`. -/
def readHeightIndex (q : Query) (blocksOfHashes : List (List Hash256)) : ℤ × List (List Hash256) :=
  if (q.high < q.low ∧ -1 < q.high) ∨ (q.high = 0 ∧ q.low = 0) ∨ q.high < -1 ∨ q.low < 0 then
    (-1, blocksOfHashes)
  else readHeights q (SortedStore.seek db (dbHeightIndex :: heightBytes q.low.toNat)) 0 blocksOfHashes

/-- `EraseHeightIndex`. Its loop is that of `EraseStakeIndex`. -/
def eraseHeightIndex (height : UInt32) : CBlockTreeDB :=
  (erasedKeys height (SortedStore.seek db (dbHeightIndex :: heightBytes height.toNat))).foldl
    SortedStore.erase db

end CBlockTreeDB

namespace HeightIndex

/-! ## Reading what was written -/

theorem length_toLE (count n : ℕ) : (toLE count n).length = count := by
  induction count generalizing n with
  | zero => rfl
  | succ count ih => rw [toLE, length_cons, ih]

theorem readBytes_append {count : ℕ} {l : List Byte} (h : l.length = count) (rest : List Byte) :
    readBytes count (l ++ rest) = some (l, rest) := by
  subst h
  simp [readBytes]

/-- **A key is read as it was written.** -/
theorem Entry.getKey_record (e : Entry) : getKey e.record.1 = (true, dbHeightIndex, e.key) := by
  have hheight : readBytes 4 e.key.serialize = some (heightBytes e.height, 20 :: e.address.1) :=
    readBytes_append (by rw [length_reverse, length_toLE]) _
  have hsize : readCompactSize (20 :: e.address.1) = some (20, e.address.1) :=
    by simp [readCompactSize, readBytes, fromLE, maxSize]
  have haddress : readBytes 20 e.address.1 = some (e.address.1, []) := by
    simp [readBytes, e.address.2]
  have hvalue : fromLE (heightBytes e.height).reverse = e.height := by
    have hlt := e.height_lt
    rw [heightBytes, reverse_reverse, fromLE_toLE, Nat.mod_eq_of_lt (by omega)]
  rw [Entry.record, getKey, hheight]
  simp only [hsize, Option.bind_some, haddress, hvalue, Hash160.ofBytes, e.address.2]
  rfl

/-! ## The order of the keys -/

/-- Numbers written with the most significant byte first are sorted as numbers. -/
theorem reverse_toLE_lt {count a b : ℕ} (h : a < b) (hb : b < 256 ^ count) (s t : List Byte) :
    (toLE count a).reverse ++ s < (toLE count b).reverse ++ t := by
  induction count generalizing a b s t with
  | zero =>
    omega
  | succ count ih =>
    rw [toLE, toLE, reverse_cons, reverse_cons, append_assoc, append_assoc]
    rcases Nat.lt_or_ge (a / 256) (b / 256) with hlt | hge
    · exact ih hlt (Nat.div_lt_of_lt_mul (by rwa [pow_succ'] at hb)) _ _
    -- the bytes before the last are the same
    · have heq : a / 256 = b / 256 := by omega
      rw [heq]
      refine append_left_lt (cons_lt_cons_iff.2 (.inl ?_))
      rw [Fin.lt_def]
      simp only [Fin.ofNat]
      omega

variable {db : CBlockTreeDB} {entries : List Entry} {e e' : Entry} {low : ℕ}

theorem heightBytes_lt {height : ℕ} (h : low < height) (hlt : height < 2 ^ 32) (s t : List Byte) :
    dbHeightIndex :: (heightBytes low ++ s) < dbHeightIndex :: (heightBytes height ++ t) :=
  cons_lt_cons_iff.2 (.inr ⟨rfl, reverse_toLE_lt h (show height < 256 ^ 4 from hlt) s t⟩)

/-- A cursor stands behind the keys of the heights below. -/
theorem Entry.seek_le_record (hlow : low < 2 ^ 32) :
    dbHeightIndex :: heightBytes low ≤ e.record.1 ↔ low ≤ e.height := by
  constructor
  · intro hle
    by_contra hbelow
    exact not_lt.2 hle (heightBytes_lt (Nat.not_le.1 hbelow) hlow _ _)
  · intro hle
    rcases Nat.lt_or_eq_of_le hle with hbelow | rfl
    · exact (heightBytes_lt hbelow (e.height_lt.trans (by decide)) _ _).le
    · have hlt : dbHeightIndex :: heightBytes e.height ++ [] < e.record.1 :=
        append_left_lt (nil_lt_cons _ _)
      exact hlt.le

theorem Entry.height_le_of_lt (h : e.record.1 < e'.record.1) : e.height ≤ e'.height := by
  by_contra hgt
  exact lt_asymm h (heightBytes_lt (Nat.not_le.1 hgt) (e.height_lt.trans (by decide)) _ _)

/-- **The entries stand in the order of their heights.** -/
theorem Holds.pairwise (h : Holds db entries) :
    entries.Pairwise fun e e' => e.height ≤ e'.height := by
  have hsorted : (entries.map Entry.record).Pairwise fun r r' => r.1 < r'.1 :=
    h ▸ db.sorted.filter _
  exact (pairwise_map.1 hsorted).imp Entry.height_le_of_lt

theorem Entry.height_eq_of_record {height : ℕ} {address : Hash160} (hlt : height < 2 ^ 32)
    (h : e.record.1 = dbHeightIndex :: (CHeightTxIndexKey.mk height address).serialize) :
    e.height = height := by
  have hbytes := reverse_injective (append_inj (cons.inj h).2 (by simp [length_toLE])).1
  have hvalue := congrArg fromLE hbytes
  have he := e.height_lt
  rw [fromLE_toLE, fromLE_toLE] at hvalue
  simp only [Entry.key] at hvalue
  omega

/-! ## The scans -/

/-- The record is one of the height index, of a height that passes. -/
def visits (test : ℕ → Bool) (r : List Byte × List Byte) : Bool :=
  (getKey r.1).1 && decide ((getKey r.1).2.1 = dbHeightIndex) && test (getKey r.1).2.2.height

theorem visits_record (test : ℕ → Bool) (e : Entry) : visits test e.record = test e.height := by
  simp [visits, e.getKey_record, Entry.key]

theorem head?_of_visits {test : ℕ → Bool} {r : List Byte × List Byte} (h : visits test r = true) :
    r.1.head? = some dbHeightIndex := by
  simp only [visits, Bool.and_eq_true, decide_eq_true_eq] at h
  obtain ⟨key, value⟩ := r
  cases key with
  | nil => cases h.1.1
  | cons first rest =>
    rw [← h.1.2, getKey_first]
    rfl

/-- A record that begins with the byte of the height index is an entry. -/
theorem Holds.exists_entry (h : Holds db entries) {r : List Byte × List Byte} (hr : r ∈ db.records)
    (hfirst : r.1.head? = some dbHeightIndex) : ∃ e ∈ entries, e.record = r := by
  have hmem : r ∈ entries.map Entry.record := h ▸ mem_filter.2 ⟨hr, by simp [hfirst]⟩
  exact mem_map.1 hmem

/-- **A scan from a height on** visits the entries whose height passes, if none
passes behind one that does not. -/
theorem Holds.takeWhile_seek (h : Holds db entries) (hlow : low < 2 ^ 32) (test : ℕ → Bool)
    (htest : ∀ a b, low ≤ a → a ≤ b → b < 2 ^ 31 → test b = true → test a = true) :
    (SortedStore.seek db (dbHeightIndex :: heightBytes low)).takeWhile (visits test) =
      (entries.filter fun e => test e.height && decide (low ≤ e.height)).map Entry.record := by
  rw [SortedStore.takeWhile_seek]
  · -- what is visited is among the records of the index
    have hsub : (fun r : List Byte × List Byte => visits test r &&
        decide (dbHeightIndex :: heightBytes low ≤ r.1)) = fun r => (visits test r &&
          decide (dbHeightIndex :: heightBytes low ≤ r.1)) &&
            (r.1.head? == some dbHeightIndex) := by
      funext r
      cases hv : visits test r with
      | false => rfl
      | true => simp [head?_of_visits hv]
    rw [hsub, ← filter_filter, h, filter_map]
    refine congrArg _ (filter_congr fun e _ => ?_)
    simp [visits_record, Entry.seek_le_record hlow]
  · intro r hr r' hr' hle hlt hv
    obtain ⟨e', -, rfl⟩ := h.exists_entry hr' (head?_of_visits hv)
    obtain ⟨e, -, rfl⟩ := h.exists_entry hr (first_of_between hle hlt.le)
    rw [visits_record] at hv ⊢
    exact htest _ _ ((Entry.seek_le_record hlow).1 hle) (Entry.height_le_of_lt hlt) e'.height_lt hv

namespace Query

variable {q : Query} {l : List (List Byte × List Byte)} {curheight : ℤ}
  {blocksOfHashes : List (List Hash256)}

/-- A height at which `ReadHeightIndex` goes on. -/
def inRange (q : Query) (height : ℕ) : Bool :=
  decide (¬ (-1 < q.high ∧ q.high < asInt height)) &&
    decide (¬ (0 < q.minconf ∧ q.chainHeight - asInt height < q.minconf))

/-- The loop of `ReadHeightIndex` stops at a record that it does not visit. -/
theorem readHeights_of_not_visits {r : List Byte × List Byte} (h : visits q.inRange r = false) :
    readHeights q (r :: l) curheight blocksOfHashes = (curheight, blocksOfHashes) := by
  rw [readHeights]
  unfold visits inRange at h
  generalize getKey r.1 = k at h ⊢
  dsimp only
  split_ifs with hkey hhigh hconf
  · rfl
  · rfl
  · rfl
  all_goals simp_all

/-- It collects the lists of the entries that it visits. -/
theorem readHeights_eq (h : l.takeWhile (visits q.inRange) = entries.map Entry.record) :
    (readHeights q l curheight blocksOfHashes).2 = blocksOfHashes ++
      (entries.filter fun e => decide (q.addresses ≠ [] → e.address ∈ q.addresses)).map
        Entry.hashes := by
  induction l generalizing entries curheight blocksOfHashes with
  | nil =>
    obtain rfl := map_eq_nil_iff.1 h.symm
    exact (append_nil _).symm
  | cons r l ih =>
    cases hv : visits q.inRange r with
    | false =>
      rw [takeWhile_cons_of_neg (by simp [hv])] at h
      obtain rfl := map_eq_nil_iff.1 h.symm
      rw [readHeights_of_not_visits hv]
      exact (append_nil _).symm
    | true =>
      rw [takeWhile_cons_of_pos hv] at h
      cases entries with
      | nil => cases h
      | cons e entries =>
        obtain ⟨rfl, htail⟩ := cons.inj h
        rw [visits_record, inRange, Bool.and_eq_true, decide_eq_true_eq, decide_eq_true_eq] at hv
        have hvalue : readHashes e.record.2 = some e.hashes := e.reads
        rw [readHeights]
        simp only [e.getKey_record, hvalue, Entry.key, Bool.not_true, Bool.false_or,
          ne_self_iff_false, decide_false, Bool.false_eq_true, if_false, if_neg hv.1, if_neg hv.2]
        split_ifs with hskip
        · rw [ih htail, filter_cons_of_neg (by simpa using hskip)]
        · have hin : q.addresses ≠ [] → e.address ∈ q.addresses := fun hne =>
            not_not.1 fun hout => hskip ⟨hne, hout⟩
          rw [ih htail, filter_cons, if_pos (decide_eq_true hin), append_assoc]
          rfl

end Query

/-- The loop of `EraseHeightIndex` erases the keys that it visits. -/
theorem erasedKeys_eq (height : UInt32) (l : List (List Byte × List Byte)) :
    erasedKeys height l =
    (l.takeWhile (visits fun n => decide (n = height.toNat))).map fun r =>
      (getKey r.1).2.1 :: (getKey r.1).2.2.serialize := by
  induction l with
  | nil => rfl
  | cons r l ih =>
    rw [erasedKeys, takeWhile_cons, visits]
    generalize hkey : getKey r.1 = k
    split_ifs <;> simp_all

/-- The arguments are valid: `low` is an `int`. -/
def Query.Valid (q : Query) : Prop :=
  0 ≤ q.low ∧ q.low < 2 ^ 31 ∧ -1 ≤ q.high ∧ (-1 < q.high → q.low ≤ q.high) ∧
    ¬ (q.high = 0 ∧ q.low = 0)

/-- What a query asks of an entry. -/
def Query.Selects (q : Query) (e : Entry) : Prop :=
  q.low ≤ e.height ∧ (-1 < q.high → e.height ≤ q.high) ∧
    (0 < q.minconf → e.height + q.minconf ≤ q.chainHeight) ∧
    (q.addresses ≠ [] → e.address ∈ q.addresses)

instance (q : Query) (e : Entry) : Decidable (q.Selects e) :=
  inferInstanceAs (Decidable (_ ∧ _ ∧ _ ∧ _))

/-- **The height index is exact.** The entries of a store stand in the order of
their heights. `ReadHeightIndex` adds the lists of those that were asked for, in
this order, and `EraseHeightIndex` deletes the keys of its height and no others. -/
theorem height_index_exact (h : Holds db entries) :
    (entries.Pairwise fun e e' => e.height ≤ e'.height) ∧
    (∀ (q : Query) (blocksOfHashes : List (List Hash256)), q.Valid →
      (db.readHeightIndex q blocksOfHashes).2 =
        blocksOfHashes ++ (entries.filter fun e => decide (q.Selects e)).map Entry.hashes) ∧
    ∀ (height : UInt32) (r : List Byte × List Byte), r ∈ (db.eraseHeightIndex height).records ↔
      r ∈ db.records ∧ ¬ ∃ address, r.1 = dbHeightIndex ::
        (CHeightTxIndexKey.mk height.toNat address).serialize := by
  refine ⟨h.pairwise, ?_, fun height r => ?_⟩
  · rintro q blocksOfHashes ⟨hlow, hlt, hhigh, hle, hzero⟩
    have hscan := h.takeWhile_seek (show q.low.toNat < 2 ^ 32 by omega) q.inRange ?_
    · rw [readHeightIndex, if_neg (by omega), Query.readHeights_eq hscan, filter_filter]
      refine congrArg (fun l => _ ++ map _ l) (filter_congr fun e _ => ?_)
      have hint : asInt e.height = e.height := if_pos e.height_lt
      rw [Query.inRange, ← Bool.decide_and, ← Bool.decide_and, ← Bool.decide_and]
      refine decide_eq_decide.2 ⟨?_, ?_⟩
      · rintro ⟨haddress, ⟨hh, hconf⟩, hheight⟩
        exact ⟨by omega, by omega, by omega, haddress⟩
      · rintro ⟨hheight, hh, hconf, haddress⟩
        exact ⟨haddress, ⟨by omega, by omega⟩, by omega⟩
    · intro a b _ hab hb hin
      rw [Query.inRange, Bool.and_eq_true, decide_eq_true_eq, decide_eq_true_eq, asInt] at hin ⊢
      omega
  · have hscan := h.takeWhile_seek height.toNat_lt (fun n => decide (n = height.toNat)) ?_
    · rw [eraseHeightIndex, mem_foldl_erase, erasedKeys_eq, hscan, map_map]
      refine and_congr_right fun hr => not_congr ?_
      simp only [mem_map, mem_filter, Function.comp_apply, Entry.getKey_record, Bool.and_eq_true,
        decide_eq_true_eq]
      constructor
      · rintro ⟨e, ⟨-, hheight, -⟩, heq⟩
        exact ⟨e.address, by rw [← heq, ← hheight]; rfl⟩
      · rintro ⟨address, heq⟩
        obtain ⟨e, he, rfl⟩ := h.exists_entry hr (by rw [heq]; rfl)
        have hheight := e.height_eq_of_record height.toNat_lt heq
        exact ⟨e, ⟨he, hheight, hheight.ge⟩, rfl⟩
    · intro a b ha hab _ hb
      rw [decide_eq_true_eq] at hb ⊢
      omega

section

local instance byte_neZero : NeZero 256 := ⟨by decide⟩

theorem no_records_sorted : ([] : List (List Byte × List Byte)).Pairwise fun p q => p.1 < q.1 := .nil

/-- Two transactions of one address, at heights that their last bytes do not sort. -/
def sampleEntries : List Entry :=
  [⟨255, .zero, 1 :: List.replicate 32 1, [⟨List.replicate 32 1, by simp⟩], by decide, by decide⟩,
    ⟨256, .zero, 1 :: List.replicate 32 2, [⟨List.replicate 32 2, by simp⟩], by decide, by decide⟩]

/-- A store with them and a record of the stake index. -/
def sampleHeights : CBlockTreeDB :=
  sampleEntries.foldl (fun db e => SortedStore.put db e.record.1 e.record.2)
    (CBlockTreeDB.writeStakeIndex ⟨[], no_records_sorted⟩ 256 .zero)

end

theorem sample_heights_read :
    (sampleHeights.readHeightIndex ⟨256, -1, 10, [.zero], 300⟩ []).2 =
      [[⟨List.replicate 32 2, by simp⟩]] := by
  have hdb : Holds sampleHeights sampleEntries := by
    unfold Holds
    decide
  exact (height_index_exact hdb).2.1 _ []
    ⟨by decide, by decide, by decide, by decide, by decide⟩

end HeightIndex

end Slucore
