import Slucore.Common.SortedStore
/-!
# Store — the stake index

`CBlockTreeDB` keeps its indexes as records of one store, sorted by the
bytes of their keys. A record of the stake index has the key `s` and the
height of the block, least significant byte first, and the address that
staked the block as its value. `ReadStakeIndex` and `EraseStakeIndex` go to
the first key that is not below the one they look for, and read it as a key
of the height index.

A stake key is too short for that: `GetKey` fails after it has read the
first byte and the height. `ReadStakeIndex` does not ask for more than the
first byte, so it takes the record of any height at or after the one asked
for, in the order of the bytes. `EraseStakeIndex` asks for the first byte of
the height index, and erases nothing (`eraseStakeIndex_eq`).
-/


namespace Slucore

open SortedStore List

/-- A byte. -/
abbrev Byte : Type := Fin 256

/-! ## Serialized keys -/

/-- The number with the given bytes, the least significant first. -/
def fromLE (bytes : List Byte) : ℕ := bytes.foldr (fun b n => b.val + 256 * n) 0

/-- `count` bytes of a number, the least significant first. -/
def toLE : ℕ → ℕ → List Byte
  | 0, _ => []
  | count + 1, n => Fin.ofNat 256 n :: toLE count (n / 256)

/-- `read` of a stream: it throws at the end of the data. -/
def readBytes (count : ℕ) (stream : List Byte) : Option (List Byte × List Byte) :=
  if count ≤ stream.length then some (stream.take count, stream.drop count) else none

/-- `MAX_SIZE`. -/
def maxSize : ℕ := 0x10000000

/-- `ReadCompactSize`. -/
def readCompactSize (stream : List Byte) : Option (ℕ × List Byte) := do
  let (chSize, stream) ← readBytes 1 stream
  let sized (width least : ℕ) : Option (ℕ × List Byte) := do
    let (bytes, stream) ← readBytes width stream
    if fromLE bytes < least then none else some (fromLE bytes, stream)
  let (nSizeRet, stream) ←
    if fromLE chSize < 253 then some (fromLE chSize, stream)
    else if fromLE chSize = 253 then sized 2 253
    else if fromLE chSize = 254 then sized 4 0x10000
    else sized 8 0x100000000
  if maxSize < nSizeRet then none else some (nSizeRet, stream)

/-- Twenty bytes: `uint160`, and `dev::h160`. -/
abbrev Hash160 : Type := { bytes : List Byte // bytes.length = 20 }

/-- `h160()`. -/
def Hash160.zero : Hash160 := ⟨List.replicate 20 0, by simp⟩

/-- `h160(bytes)`: bytes of another size are dropped. -/
def Hash160.ofBytes (bytes : List Byte) : Hash160 :=
  if h : bytes.length = 20 then ⟨bytes, h⟩ else Hash160.zero

structure CHeightTxIndexKey where
  height : ℕ
  address : Hash160

/-- `CHeightTxIndexKey::Serialize`. -/
def CHeightTxIndexKey.serialize (key : CHeightTxIndexKey) : List Byte :=
  (toLE 4 key.height).reverse ++ 20 :: key.address.1

/-- `GetKey` of a pair of a byte and a `CHeightTxIndexKey`: whether it was
read, and the key as far as it was. -/
def getKey (stream : List Byte) : Bool × Byte × CHeightTxIndexKey :=
  match stream with
  | [] => (false, 0, ⟨0, .zero⟩)
  | first :: stream =>
    match readBytes 4 stream with
    | none => (false, first, ⟨0, .zero⟩)
    | some (height, stream) =>
      match (readCompactSize stream).bind fun r => readBytes r.1 r.2 with
      | none => (false, first, ⟨fromLE height.reverse, .zero⟩)
      | some (address, _) => (true, first, ⟨fromLE height.reverse, .ofBytes address⟩)

/-! ## The index -/

/-- The store of `CBlockTreeDB`. -/
abbrev CBlockTreeDB : Type := SortedStore (List Byte) (List Byte)

/-- `DB_HEIGHTINDEX`. -/
def dbHeightIndex : Byte := 0x68

/-- `DB_STAKEINDEX`. -/
def dbStakeIndex : Byte := 0x73

/-- The key of a record of the stake index. -/
def stakeKey (height : UInt32) : List Byte := dbStakeIndex :: toLE 4 height.toNat

namespace CBlockTreeDB

variable (db : CBlockTreeDB)

/-- `WriteStakeIndex`. -/
def writeStakeIndex (height : UInt32) (address : Hash160) : CBlockTreeDB :=
  SortedStore.put db (stakeKey height) address.1

/-- `ReadStakeIndex`. `GetValue` leaves the address as it is if the value is
too short. -/
def readStakeIndex (height : UInt32) (address : Hash160) : Bool × Hash160 :=
  match SortedStore.seek db (stakeKey height) with
  | [] => (false, address)
  | (key, value) :: _ =>
    if (getKey key).2.1 = dbStakeIndex then
      (true, if 20 ≤ value.length then .ofBytes (value.take 20) else address)
    else (false, address)

/-- The keys that the loop of `EraseStakeIndex` erases. -/
def erasedKeys (height : UInt32) : List (List Byte × List Byte) → List (List Byte)
  | [] => []
  | (key, _) :: rest =>
    let (read, first, second) := getKey key
    if read && decide (first = dbHeightIndex) && decide (second.height = height.toNat) then
      (first :: second.serialize) :: erasedKeys height rest
    else []

/-- `EraseStakeIndex`. -/
def eraseStakeIndex (height : UInt32) : CBlockTreeDB :=
  (erasedKeys height (SortedStore.seek db (stakeKey height))).foldl SortedStore.erase db

end CBlockTreeDB

/-! ## Keys -/

theorem fromLE_toLE (count n : ℕ) : fromLE (toLE count n) = n % 256 ^ count := by
  induction count generalizing n with
  | zero => rw [pow_zero, Nat.mod_one]; rfl
  | succ count ih =>
    have hcons : fromLE (toLE (count + 1) n) = n % 256 + 256 * fromLE (toLE count (n / 256)) := rfl
    rw [hcons, ih, pow_succ', Nat.mod_mul]

theorem stakeKey_injective : Function.Injective stakeKey := by
  intro h h' heq
  have hbytes : toLE 4 h.toNat = toLE 4 h'.toNat := (cons.inj heq).2
  have hnat : h.toNat % 256 ^ 4 = h'.toNat % 256 ^ 4 := by
    rw [← fromLE_toLE, hbytes, fromLE_toLE]
  have hlt := h.toNat_lt
  have hlt' := h'.toNat_lt
  refine UInt32.toNat_inj.1 ?_
  omega

/-- The first byte of a key is read, whatever the rest is. -/
theorem getKey_first (first : Byte) (rest : List Byte) : (getKey (first :: rest)).2.1 = first := by
  unfold getKey
  split
  · next h => exact absurd h (by simp)
  next h =>
  obtain ⟨rfl, rfl⟩ := cons.inj h
  split
  · rfl
  · split <;> rfl

/-- A key that is not below another begins with no lower byte. -/
theorem first_of_le {b : Byte} {l key : List Byte} (h : b :: l ≤ key) :
    ∃ first rest, key = first :: rest ∧ b ≤ first := by
  cases key with
  | nil => exact absurd (nil_lt_cons _ _) (not_lt.2 h)
  | cons first rest =>
    refine ⟨first, rest, rfl, ?_⟩
    by_contra hlt
    exact not_lt.2 h (cons_lt_cons_iff.2 (Or.inl (not_le.1 hlt)))

/-- A key between two that begin with one byte begins with it. -/
theorem first_of_between {b : Byte} {l l' key : List Byte} (hl : b :: l ≤ key)
    (hh : key ≤ b :: l') : key.head? = some b := by
  obtain ⟨first, rest, rfl, hfirst⟩ := first_of_le hl
  by_contra hne
  have hne : first ≠ b := fun h => hne (by rw [h]; rfl)
  have hlt : b < first := lt_of_le_of_ne hfirst hne.symm
  exact not_lt.2 hh (cons_lt_cons_iff.2 (Or.inl hlt))

namespace CBlockTreeDB

variable {db : CBlockTreeDB}

/-- **`EraseStakeIndex` erases nothing**: no key at or after a stake key begins
like one of the height index. -/
theorem eraseStakeIndex_eq (height : UInt32) : db.eraseStakeIndex height = db := by
  have hnone : erasedKeys height (SortedStore.seek db (stakeKey height)) = [] := by
    cases hseek : SortedStore.seek db (stakeKey height) with
    | nil => rfl
    | cons p rest =>
      obtain ⟨-, hle, -⟩ := seek_eq_cons hseek
      obtain ⟨first, tail, hkey, hfirst⟩ := first_of_le hle
      have hread := getKey_first first tail
      rw [← hkey] at hread
      have hne : (getKey p.1).2.1 ≠ dbHeightIndex := by
        rw [hread]
        rintro rfl
        exact absurd hfirst (by decide)
      rw [erasedKeys]
      generalize getKey p.1 = r at hne
      exact if_neg (by simp_all)
  rw [eraseStakeIndex, hnone]
  rfl

end CBlockTreeDB

/-! ## Sequences of operations -/

/-- A change of a record of another index. -/
structure ForeignRecord where
  key : List Byte
  /-- The value written, or `none` if the record is erased. -/
  value : Option (List Byte)
  foreign : key.head? ≠ some dbStakeIndex

/-- The operations on the store. -/
inductive StakeOp where
  | write (height : UInt32) (address : Hash160)
  | erase (height : UInt32)
  | read (height : UInt32)
  | other (record : ForeignRecord)

namespace StakeOp

/-- The store after an operation. -/
def apply (db : CBlockTreeDB) : StakeOp → CBlockTreeDB
  | write height address => db.writeStakeIndex height address
  | erase height => db.eraseStakeIndex height
  | read _ => db
  | other record =>
    match record.value with
    | some value => SortedStore.put db record.key value
    | none => SortedStore.erase db record.key

/-- The store after a sequence of operations. -/
def run (db : CBlockTreeDB) (ops : List StakeOp) : CBlockTreeDB := ops.foldl apply db

/-- The address a finite map has for a height after an operation. -/
def expect (height : UInt32) (address : Option Hash160) : StakeOp → Option Hash160
  | write h a => if h = height then some a else address
  | erase h => if h = height then none else address
  | _ => address

/-- What the last operation on the height left: the address it wrote. -/
def lastWrite (ops : List StakeOp) (height : UInt32) : Option Hash160 :=
  ops.foldl (expect height) none

/-- An operation, with erasures left out. -/
def keep (height : UInt32) (address : Option Hash160) : StakeOp → Option Hash160
  | write h a => if h = height then some a else address
  | _ => address

/-- The address that was last written for the height, erased or not. -/
def written (ops : List StakeOp) (height : UInt32) : Option Hash160 :=
  ops.foldl (keep height) none

variable {ops : List StakeOp} {op : StakeOp} {db : CBlockTreeDB} {height : UInt32} {a : Hash160}

theorem run_concat : run db (ops ++ [op]) = apply (run db ops) op := by
  rw [run, foldl_append]
  rfl

theorem lastWrite_concat :
    lastWrite (ops ++ [op]) height = expect height (lastWrite ops height) op := by
  rw [lastWrite, foldl_append]
  rfl

theorem written_concat : written (ops ++ [op]) height = keep height (written ops height) op := by
  rw [written, foldl_append]
  rfl

/-- What was written last and not erased was written last. -/
theorem written_of_lastWrite (h : lastWrite ops height = some a) : written ops height = some a := by
  induction ops using reverseRecOn with
  | nil => exact h
  | append_singleton ops op ih =>
    rw [lastWrite_concat] at h
    rw [written_concat]
    cases op with
    | write h' a' =>
      simp only [expect, keep] at h ⊢
      split_ifs at h ⊢
      · exact h
      · exact ih h
    | erase h' =>
      simp only [expect] at h
      split_ifs at h
      exact ih h
    | read h' => exact ih h
    | other record => exact ih h

/-- A height has an address if it was written. -/
theorem isSome_written : (written ops height).isSome ↔ ∃ a, write height a ∈ ops := by
  induction ops using reverseRecOn with
  | nil => simp [written]
  | append_singleton ops op ih =>
    rw [written_concat]
    cases op with
    | write h' a' =>
      simp only [keep, mem_append, mem_singleton, write.injEq]
      split_ifs with hh
      · exact iff_of_true rfl ⟨a', Or.inr ⟨hh.symm, rfl⟩⟩
      · rw [ih]
        refine exists_congr fun a => ⟨Or.inl, fun h => h.resolve_right fun h => hh h.1.symm⟩
    | erase h' => simpa [keep] using ih
    | read h' => simpa [keep] using ih
    | other record => simpa [keep] using ih

/-- The stake records of a store are those of a map. -/
structure Holds (db : CBlockTreeDB) (m : UInt32 → Option Hash160) : Prop where
  record : ∀ h v, (stakeKey h, v) ∈ db.records ↔ ∃ a, m h = some a ∧ v = a.1
  key : ∀ p ∈ db.records, p.1.head? = some dbStakeIndex → ∃ h, p.1 = stakeKey h

/-- **An operation writes its own record only**, and erases none. -/
theorem Holds.apply (H : Holds db (written ops)) (op : StakeOp) :
    Holds (op.apply db) (written (ops ++ [op])) := by
  have hsame : (∀ h', written (ops ++ [op]) h' = written ops h') → Holds db (written (ops ++ [op])) :=
    fun h => ⟨fun h' v => by rw [h h']; exact H.record h' v, H.key⟩
  cases op with
  | write h a =>
    refine ⟨fun h' v => ?_, fun p hp hs => ?_⟩
    · have hput : (stakeKey h', v) ∈ (SortedStore.put db (stakeKey h) a.1).records ↔ _ :=
        mem_put
      refine hput.trans ?_
      rw [written_concat, keep]
      by_cases hh : h = h'
      · subst hh
        simp
      · have hne : stakeKey h' ≠ stakeKey h := fun heq => hh (stakeKey_injective heq).symm
        rw [if_neg hh]
        simp [hne, H.record h' v]
    · obtain ⟨k, v⟩ := p
      rcases mem_put.1 hp with ⟨rfl, -⟩ | ⟨-, hp⟩
      · exact ⟨h, rfl⟩
      · exact H.key (k, v) hp hs
  | erase h =>
    rw [StakeOp.apply, CBlockTreeDB.eraseStakeIndex_eq]
    exact hsame fun h' => written_concat
  | read h => exact hsame fun h' => written_concat
  | other record =>
    obtain ⟨key, value, hforeign⟩ := record
    have hrest : ∀ k v, k.head? = some dbStakeIndex →
        ((k, v) ∈ (StakeOp.apply db (other ⟨key, value, hforeign⟩)).records ↔
          (k, v) ∈ db.records) := by
      intro k v hs
      have hne : k ≠ key := fun h => hforeign (h ▸ hs)
      cases value with
      | some value => exact mem_put.trans (by simp [hne])
      | none => exact mem_erase.trans (by simp [hne])
    refine ⟨fun h' v => (hrest _ v rfl).trans ?_, fun p hp hs => H.key p ((hrest _ _ hs).1 hp) hs⟩
    rw [written_concat]
    exact H.record h' v

theorem Holds.run (hempty : ∀ p ∈ db.records, p.1.head? ≠ some dbStakeIndex)
    (ops : List StakeOp) : Holds (StakeOp.run db ops) (written ops) := by
  induction ops using reverseRecOn with
  | nil =>
    refine ⟨fun h v => ?_, fun p hp hs => absurd hs (hempty p hp)⟩
    refine iff_of_false (fun hmem => hempty _ hmem rfl) ?_
    rintro ⟨a, ha, -⟩
    exact absurd ha (by simp [written])
  | append_singleton ops op ih =>
    rw [run_concat]
    exact ih.apply op

/-- The first byte of a key, as `GetKey` reads it. -/
theorem getKey_of_head {key : List Byte} {first : Byte} (h : key.head? = some first) :
    (getKey key).2.1 = first := by
  cases key with
  | nil => exact absurd h (by simp)
  | cons first' rest => exact (getKey_first first' rest).trans (Option.some.inj h)

theorem hash160_ofBytes_take (a : Hash160) : Hash160.ofBytes (a.1.take 20) = a := by
  have htake : a.1.take 20 = a.1 := take_of_length_le a.2.le
  rw [Hash160.ofBytes, dif_pos (by rw [htake]; exact a.2)]
  exact Subtype.ext htake

/-- **What `ReadStakeIndex` reads**: the record of the height, if there is one, and
else that of any height whose key comes after. -/
theorem Holds.read {m : UInt32 → Option Hash160} (H : Holds db m) (height : UInt32)
    (address : Hash160) :
    (∀ a, m height = some a → db.readStakeIndex height address = (true, a)) ∧
    ((db.readStakeIndex height address).1 = true ↔
      ∃ w, (m w).isSome ∧ stakeKey height ≤ stakeKey w) := by
  have hrecord : ∀ w a, m w = some a → (stakeKey w, a.1) ∈ db.records :=
    fun w a hw => (H.record w a.1).2 ⟨a, hw, rfl⟩
  unfold CBlockTreeDB.readStakeIndex
  cases hseek : SortedStore.seek db (stakeKey height) with
  | nil =>
    have hbelow := seek_eq_nil.1 hseek
    refine ⟨fun a ha => absurd (hbelow _ (hrecord _ a ha)) (lt_irrefl _), ?_⟩
    refine iff_of_false (by simp) ?_
    rintro ⟨w, hw, hle⟩
    obtain ⟨a, ha⟩ := Option.isSome_iff_exists.1 hw
    exact not_lt.2 hle (hbelow _ (hrecord w a ha))
  | cons p rest =>
    obtain ⟨hmem, hle, hleast⟩ := seek_eq_cons hseek
    obtain ⟨key, value⟩ := p
    dsimp only at hle hleast ⊢
    refine ⟨fun a ha => ?_, ?_⟩
    · have hp := (hleast _ (hrecord _ a ha) le_rfl).resolve_right (not_lt.2 hle)
      obtain ⟨⟩ := hp
      rw [if_pos (getKey_of_head rfl), if_pos a.2.ge, hash160_ofBytes_take]
    · by_cases hs : (getKey key).2.1 = dbStakeIndex
      · rw [if_pos hs]
        obtain ⟨first, tail, rfl, -⟩ := first_of_le hle
        rw [getKey_first] at hs
        obtain ⟨w, hw⟩ := H.key _ hmem (congrArg some hs)
        dsimp only at hw
        rw [hw] at hmem hle
        obtain ⟨a, ha, -⟩ := (H.record w value).1 hmem
        exact iff_of_true rfl ⟨w, by rw [ha]; rfl, hle⟩
      · rw [if_neg hs]
        refine iff_of_false (by simp) ?_
        rintro ⟨w, hw, hlew⟩
        obtain ⟨a, ha⟩ := Option.isSome_iff_exists.1 hw
        -- a key between two stake keys is one
        have hbetween : key ≤ stakeKey w := by
          rcases hleast _ (hrecord w a ha) hlew with h | h
          · exact (congrArg Prod.fst h).le
          · exact h.le
        exact hs (getKey_of_head (first_of_between hle hbetween))

/-- **When the stake index is a finite map.** After any operations on a store that
had no stake records, `ReadStakeIndex` of a height returns what a finite map would
if and only if the last operation on the height wrote it, or no height was ever
written whose key is not below. -/
theorem readStakeIndex_iff (hempty : ∀ p ∈ db.records, p.1.head? ≠ some dbStakeIndex)
    (ops : List StakeOp) (height : UInt32) (address : Hash160) :
    (((run db ops).readStakeIndex height address).1 = true ↔ (lastWrite ops height).isSome) ∧
      (∀ a, lastWrite ops height = some a →
        ((run db ops).readStakeIndex height address).2 = a) ↔
    (lastWrite ops height).isSome ∨ ∀ w a, write w a ∈ ops → stakeKey w < stakeKey height := by
  obtain ⟨hwritten, htrue⟩ := (Holds.run hempty ops).read height address
  cases hlast : lastWrite ops height with
  | some a =>
    have hread := hwritten a (written_of_lastWrite hlast)
    simp [hread]
  | none =>
    rw [htrue]
    simp only [isSome_written, Option.isSome_none, iff_false, false_or, reduceCtorEq, false_implies,
      implies_true, and_true, not_exists, not_and, not_le]
    constructor
    · exact fun h w a hmem => h w ⟨a, hmem⟩
    · rintro h w ⟨a, hmem⟩
      exact h w a hmem

/-- A store with one record of the height index. -/
def sampleStore : CBlockTreeDB :=
  SortedStore.put ⟨[], .nil⟩ (dbHeightIndex :: (CHeightTxIndexKey.mk 5 .zero).serialize) []

/-- A sample address. -/
def sampleAddress : Hash160 := ⟨List.replicate 20 7, by simp⟩

/-- Heights that are written, and a height that comes after all of them. -/
theorem sample_reads_match :
    (run sampleStore [.write 256 sampleAddress, .erase 5]).readStakeIndex 1 .zero =
      (false, .zero) ∧
    ((run sampleStore [.erase 5, .write 5 sampleAddress]).readStakeIndex 5 .zero).2 =
      sampleAddress :=
  have hempty : ∀ p ∈ sampleStore.records, p.1.head? ≠ some dbStakeIndex := by decide
  ⟨by decide, ((readStakeIndex_iff hempty [.erase 5, .write 5 sampleAddress] 5 .zero).2
    (Or.inl (by decide))).2 _ (by decide)⟩

/-- **The stake index is no finite map**: a height that was erased is still read. -/
theorem erased_height_read : ¬ ∀ (ops : List StakeOp) (height : UInt32) (address : Hash160),
    (((run sampleStore ops).readStakeIndex height address).1 = true ↔
      (lastWrite ops height).isSome) ∧
    ∀ a, lastWrite ops height = some a →
      ((run sampleStore ops).readStakeIndex height address).2 = a := by
  intro h
  have hread := (h [.write 5 sampleAddress, .erase 5] 5 .zero).1.1 (by decide)
  exact absurd hread (by decide)

end StakeOp

end Slucore
