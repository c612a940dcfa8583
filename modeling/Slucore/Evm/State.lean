import Slucore.Common.UndoLog
import Slucore.Primitives.Transaction
/-!
# Evm — accounts, the cache over the trie, and the change log

The account state as `State` and its subclass `SilubiumState` keep it:
a trie, a cache of accounts over it, a log of changes that `rollback`
unwinds, the list of value transfers, and beside them the trie of the
coins that contracts own (`Vin`) with its own cache. A trie is the map
it stores and the root that names it.

Looking an account up in the source copies it into the cache as an
unchanged entry. Such copies are never written back, so lookups leave
the state alone here; where the source indexes the cache directly
(`m_cache[a]`) the account is the one a lookup finds.
-/


namespace Slucore

/-- A 160-bit address; `0` is the null address. -/
abbrev Address := ℕ

/-- `u256`: unsigned, and wrapping. -/
abbrev U256 := BitVec 256

/-- `Account`. An account has code when the byte string is not empty. -/
structure Account where
  isAlive : Bool
  isUnchanged : Bool
  nonce : ℕ
  balance : U256
  code : List UInt8
  storage : ℕ → ℕ

namespace Account

/-- The default constructor: a dead account. -/
def dead : Account := ⟨false, false, 0, 0, [], fun _ => 0⟩

/-- `Account(nonce, balance)`, changed from the start. -/
def fresh (nonce : ℕ) (balance : U256) : Account := ⟨true, false, nonce, balance, [], fun _ => 0⟩

def isDirty (a : Account) : Bool := !a.isUnchanged

def isEmpty (a : Account) : Bool := a.nonce == 0 && a.balance == 0 && a.code.isEmpty

def kill (_ : Account) : Account := dead

def untouch (a : Account) : Account := { a with isUnchanged := true }

def addBalance (a : Account) (v : U256) : Account :=
  { a with balance := a.balance + v, isUnchanged := false }

def incNonce (a : Account) : Account := { a with nonce := a.nonce + 1, isUnchanged := false }

def setNonce (a : Account) (n : ℕ) : Account := { a with nonce := n, isUnchanged := false }

def setStorage (a : Account) (key value : ℕ) : Account :=
  { a with storage := Function.update a.storage key value, isUnchanged := false }

def setNewCode (a : Account) (code : List UInt8) : Account := { a with code := code }

def resetCode (a : Account) : Account := { a with code := [] }

end Account

/-- `detail::Change`: one entry of the change log. -/
inductive Change where
  | storage (addr : Address) (key value : ℕ)
  | balance (addr : Address) (value : U256)
  | nonce (addr : Address)
  | create (addr : Address)
  | newCode (addr : Address)
  | touch (addr : Address)
deriving DecidableEq, Repr

/-- `TransferInfo`. -/
structure TransferInfo where
  src : Address
  dst : Address
  value : U256
deriving DecidableEq, Repr

/-- `Vin`: the coin a contract owns. -/
structure Vin where
  hash : UInt256
  nVout : ℕ
  value : U256
  alive : Bool
deriving DecidableEq, Repr

/-- A trie: its root and the map it stores. -/
structure SecureTrieDB (α : Type) where
  root : UInt256
  find : Address → Option α

/-- `SilubiumState`, with the fields of `State`. The newest entry of the
change log is its head; the transfers are in the order they were made. -/
structure SilubiumState where
  trie : SecureTrieDB Account
  cache : Address → Option Account
  changeLog : List Change
  newAddress : Address
  transfers : List TransferInfo
  stateUTXO : SecureTrieDB Vin
  cacheUTXO : Address → Option Vin

namespace SilubiumState

variable (s : SilubiumState)

/-- `State::account`. -/
def account (a : Address) : Option Account := (s.cache a).or (s.trie.find a)

/-- The entry `m_cache[a]`. -/
def entry (a : Address) : Account := (s.account a).getD Account.dead

/-- `State::addressInUse`. -/
def addressInUse (a : Address) : Bool := (s.account a).isSome

/-- `State::addressHasCode`. -/
def addressHasCode (a : Address) : Bool := !(s.entry a).code.isEmpty

/-- `State::balance`. -/
def balance (a : Address) : U256 := (s.entry a).balance

/-- `State::getNonce`, with the start nonce `0`. -/
def getNonce (a : Address) : ℕ := (s.entry a).nonce

/-- `SilubiumState::vin`. -/
def vin (a : Address) : Option Vin := (s.cacheUTXO a).or (s.stateUTXO.find a)

/-- Write the cache entry of `a` and log the changes, newest first. -/
def write (a : Address) (acc : Account) (log : List Change) : SilubiumState :=
  { s with
    cache := Function.update s.cache a (some acc)
    changeLog := log ++ s.changeLog }

/-- `State::createAccount`. -/
def createAccount (a : Address) (acc : Account) : SilubiumState :=
  s.write a acc [.create a]

/-- `State::incNonce`. -/
def incNonce (a : Address) : SilubiumState :=
  match s.account a with
  | some acc => s.write a acc.incNonce [.nonce a]
  | none => s.createAccount a (Account.fresh 1 0)

/-- The log entry of a balance change; a change by zero leaves none. -/
def logBalance (a : Address) (amount : U256) : List Change :=
  if amount = 0 then [] else [.balance a amount]

/-- `SilubiumState::addBalance`, with the address it finally wrote to: the
first account to be created while `newAddress` is set is created there
instead, unless that address is taken. -/
def addBalance (a : Address) (amount : U256) : SilubiumState × Address :=
  match s.account a with
  | some acc =>
    let touch := if !acc.isDirty && acc.isEmpty then [Change.touch a] else []
    (s.write a (acc.addBalance amount) (logBalance a amount ++ touch), a)
  | none =>
    if !s.addressInUse s.newAddress && s.newAddress != 0 then
      let s' := { s with newAddress := 0 }
      (s'.write s.newAddress (Account.fresh 0 amount)
        (logBalance s.newAddress amount ++ [.create s.newAddress]), s.newAddress)
    else
      (s.write a (Account.fresh 0 amount) (logBalance a amount ++ [.create a]), a)

/-- `State::subBalance`; `none` is `NotEnoughCash`. -/
def subBalance (a : Address) (value : U256) : Option SilubiumState :=
  if value = 0 then some s
  else
    match s.account a with
    | none => none
    | some acc =>
      if acc.balance < value then none else some (s.addBalance a (0 - value)).1

/-- `SilubiumState::transferBalance`, with the address that was paid. -/
def transferBalance (src dst : Address) (value : U256) : Option (SilubiumState × Address) :=
  (s.subBalance src value).map fun s₁ =>
    let (s₂, dst') := s₁.addBalance dst value
    (if value = 0 then s₂ else { s₂ with transfers := s₂.transfers ++ [⟨src, dst', value⟩] }, dst')

/-- `State::setStorage`. -/
def setStorage (a : Address) (key value : ℕ) : SilubiumState :=
  s.write a ((s.entry a).setStorage key value) [.storage a key ((s.entry a).storage key)]

/-- `State::setNewCode`. -/
def setNewCode (a : Address) (code : List UInt8) : SilubiumState :=
  s.write a ((s.entry a).setNewCode code) [.newCode a]

/-- `State::savepoint`. -/
def savepoint : ℕ := s.changeLog.length

/-- The cache after one turn of the loop of `State::rollback`. -/
def undoChange (trie : Address → Option Account) (change : Change)
    (cache : Address → Option Account) : Address → Option Account :=
  let entry a := ((cache a).or (trie a)).getD Account.dead
  match change with
  | .storage a key value => Function.update cache a (some ((entry a).setStorage key value))
  | .balance a value => Function.update cache a (some ((entry a).addBalance (0 - value)))
  | .nonce a => Function.update cache a (some ((entry a).setNonce ((entry a).nonce - 1)))
  | .create a => Function.update cache a none
  | .newCode a => Function.update cache a (some (entry a).resetCode)
  | .touch a => Function.update cache a (some (entry a).untouch)

/-- `State::rollback`. The transfers are not part of what it unwinds. -/
def rollback (savepoint : ℕ) : SilubiumState :=
  let unwound := unwind (undoChange s.trie.find) savepoint s.changeLog s.cache
  { s with changeLog := unwound.1, cache := unwound.2 }

end SilubiumState

end Slucore
