import Slucore.Wallet.CoinStake
/-!
# Wallet — the cache of reward scripts

`AddMPoSScript` keeps the scripts it has made in `scriptsMap`, by height and
with the hash of the block they were made for. It cleans the map before it
reads it and before it adds to it, so an entry is used only while its block
is the one at its height (`script_cache_transparent`). `StakeIndex` has the
same function without the map.
-/

namespace Slucore

open Option

/-- What is read of a block of the active chain, with the address that
`ConnectBlock` writes to the stake index. -/
structure StakedBlock where
  hash : UInt256
  isProofOfStake : Bool
  stakeAddress : Address
deriving DecidableEq

/-- `ScriptsElement`. -/
structure ScriptsElement where
  script : CScript
  hash : UInt256

/-- The active chain from the genesis block up, the last write to the stake
index for each height, and `scriptsMap`. -/
structure ScriptNode where
  chainActive : List StakedBlock
  stakeIndex : ℤ → Option Address
  scriptsMap : ℤ → Option ScriptsElement

/-- The consensus parameters that are read. -/
structure ScriptParams where
  nMPoSRewardRecipients : ℕ
  fPoSNoRetargeting : Bool

/-- `nMPoSRewardRecipients * 1.5`. -/
def ScriptParams.cacheScripts (P : ScriptParams) : ℤ := P.nMPoSRewardRecipients * 3 / 2

/-- The script for the staker of a block. -/
def mposScript (stakeAddress : Address) : CScript :=
  if stakeAddress = 0 then burnScript else payToPubkeyHash stakeAddress

namespace ScriptNode

variable (P : ScriptParams) (s : ScriptNode) (nHeight : ℤ)

/-- `chainActive[nHeight]`. -/
def blockAt : Option StakedBlock :=
  if nHeight < 0 then none else s.chainActive[nHeight.toNat]?

/-- `NeedToEraseScriptFromCache`. -/
def needToErase (nScriptHeight : ℤ) (scriptElement : ScriptsElement) : Bool :=
  decide (nScriptHeight < nHeight - P.cacheScripts ∨ nScriptHeight > nHeight + P.cacheScripts) ||
    (s.blockAt nScriptHeight).any (·.hash != scriptElement.hash)

/-- `CleanScriptCache`. -/
def cleanScriptCache : ScriptNode :=
  { s with
    scriptsMap := fun nScriptHeight => (s.scriptsMap nScriptHeight).filter
      fun e => !s.needToErase P nHeight nScriptHeight e }

/-- `AddToScriptCache`; `insert` leaves an entry that is there. -/
def addToScriptCache (script : CScript) (pblockindex : StakedBlock) : ScriptNode :=
  let s := s.cleanScriptCache P nHeight
  { s with
    scriptsMap := Function.update s.scriptsMap nHeight
      ((s.scriptsMap nHeight).or (some ⟨script, pblockindex.hash⟩)) }

/-- `AddMPoSScript`, with `ReadFromScriptCache`: the script it adds to the
list, if it does, and the node afterwards. -/
def addMPoSScript : Option CScript × ScriptNode :=
  match s.blockAt nHeight with
  | none => (none, s)
  | some pblockindex =>
    let s := s.cleanScriptCache P nHeight
    match (s.scriptsMap nHeight).filter (·.hash == pblockindex.hash) with
    | some e => (some e.script, s)
    | none =>
      match s.stakeIndex nHeight with
      | none => (none, s)
      | some stakeAddress =>
        if pblockindex.isProofOfStake then
          (some (mposScript stakeAddress),
            s.addToScriptCache P nHeight (mposScript stakeAddress) pblockindex)
        else (if P.fPoSNoRetargeting then some burnScript else none, s)

end ScriptNode

/-- What changes the map, or what it is read against. -/
inductive ScriptEvent where
  | connect (block : StakedBlock)
  | disconnect
  | query (nHeight : ℤ)
deriving DecidableEq

namespace ScriptNode

/-- One event. A connection writes the stake index at its height. -/
def step (P : ScriptParams) (s : ScriptNode) : ScriptEvent → ScriptNode
  | .connect block => { s with
      chainActive := s.chainActive ++ [block]
      stakeIndex := Function.update s.stakeIndex s.chainActive.length (some block.stakeAddress) }
  | .disconnect => { s with chainActive := s.chainActive.dropLast }
  | .query nHeight => (s.addMPoSScript P nHeight).2

/-- The node after a history, from before anything was connected. -/
def run (P : ScriptParams) (history : List ScriptEvent) : ScriptNode :=
  history.foldl (step P) ⟨[], fun _ => none, fun _ => none⟩

/-! ## What the map holds -/

/-- The stake index tells the addresses of the active chain, and an entry of
the map is the script for a block that was connected. -/
structure Sound (known : StakedBlock → Prop) (s : ScriptNode) : Prop where
  active : ∀ h b, s.blockAt h = some b → known b ∧ s.stakeIndex h = some b.stakeAddress
  cached : ∀ h e, s.scriptsMap h = some e → ∃ b, known b ∧ b.hash = e.hash ∧
    b.isProofOfStake = true ∧ e.script = mposScript b.stakeAddress

variable {P : ScriptParams} {known : StakedBlock → Prop} {s : ScriptNode} {nHeight k : ℤ}
variable {b : StakedBlock} {e : ScriptsElement}

theorem Sound.clean (h : s.Sound known) : (s.cleanScriptCache P nHeight).Sound known :=
  ⟨h.active, fun k e he => h.cached k e (filter_eq_some_iff.1 he).1⟩

/-- A cleaned map has keys near the height only. -/
theorem near_of_clean (he : (s.cleanScriptCache P nHeight).scriptsMap k = some e) :
    |k - nHeight| ≤ P.cacheScripts := by
  have hkeep := (filter_eq_some_iff.1 he).2
  simp only [needToErase, Bool.not_or, Bool.and_eq_true, Bool.not_eq_true',
    decide_eq_false_iff_not] at hkeep
  rw [abs_le]
  omega

/-- What an addition leaves in the map: a new entry at its height, or what was
there. -/
theorem addToScriptCache_cases {script : CScript}
    (he : (s.addToScriptCache P nHeight script b).scriptsMap k = some e) :
    (s.cleanScriptCache P nHeight).scriptsMap k = some e ∨ k = nHeight ∧ e = ⟨script, b.hash⟩ := by
  simp only [addToScriptCache, Function.update_apply] at he
  split at he
  · next hk =>
    rw [or_eq_some_iff] at he
    rcases he with hold | ⟨-, hnew⟩
    · exact .inl (hk ▸ hold)
    · exact .inr ⟨hk, (some.inj hnew).symm⟩
  · exact .inl he

/-- **What a query does**, at a height of the active chain. -/
theorem Sound.query (h : s.Sound known) (hb : s.blockAt nHeight = some b) :
    (s.addMPoSScript P nHeight).2.Sound known ∧
      ∀ k e, (s.addMPoSScript P nHeight).2.scriptsMap k = some e → |k - nHeight| ≤ P.cacheScripts := by
  have hclean : (s.cleanScriptCache P nHeight).Sound known := h.clean
  have hknown := hclean.active nHeight b hb
  simp only [addMPoSScript, hb, hknown.2]
  split
  · exact ⟨hclean, fun k e => near_of_clean⟩
  split
  · next hpos =>
    refine ⟨⟨h.active, fun k e he => ?_⟩, fun k e he => ?_⟩
    · rcases addToScriptCache_cases he with hold | ⟨-, rfl⟩
      · exact hclean.clean.cached k e hold
      · exact ⟨b, hknown.1, rfl, hpos, rfl⟩
    · rcases addToScriptCache_cases he with hold | ⟨rfl, -⟩
      · exact near_of_clean hold
      · rw [sub_self, abs_zero, ScriptParams.cacheScripts]
        omega
  · exact ⟨hclean, fun k e => near_of_clean⟩

/-- **One event keeps the index and the map sound.** -/
theorem Sound.step (h : s.Sound known) {event : ScriptEvent}
    (hnew : ∀ block, event = .connect block → known block) : (s.step P event).Sound known := by
  cases event with
  | connect block =>
    refine ⟨fun k b hb => ?_, h.cached⟩
    simp only [ScriptNode.step, blockAt] at hb ⊢
    split at hb
    · cases hb
    next hk =>
    rw [List.getElem?_append] at hb
    split at hb
    · -- a height of the chain before
      rw [Function.update_of_ne (by omega)]
      exact h.active k b (by rw [blockAt, if_neg hk, hb])
    · obtain ⟨hlt, rfl⟩ := List.getElem?_eq_some_iff.1 hb
      rw [List.length_singleton] at hlt
      obtain rfl : k = s.chainActive.length := by omega
      rw [Function.update_self, List.getElem_singleton]
      exact ⟨hnew block rfl, rfl⟩
  | disconnect =>
    refine ⟨fun k b hb => h.active k b ?_, h.cached⟩
    simp only [ScriptNode.step, blockAt, List.getElem?_dropLast] at hb ⊢
    split_ifs at hb ⊢
    exact hb
  | query nHeight =>
    cases hb : s.blockAt nHeight with
    | none => simpa [ScriptNode.step, addMPoSScript, hb] using h
    | some b => exact (h.query hb).1

/-- **A whole history does.** -/
theorem Sound.run (history : List ScriptEvent) :
    (ScriptNode.run P history).Sound fun b => .connect b ∈ history := by
  refine List.foldlRecOn history (ScriptNode.step P)
    ⟨fun k b hb => by simp [blockAt] at hb, fun k e he => by cases he⟩ ?_
  intro s h event hevent
  exact h.step fun block heq => heq ▸ hevent

/-- **The cache of reward scripts is not seen**, where no two of the blocks
connected have the same hash: after any history, a query at a height of the
active chain answers as it does with an empty map, and leaves no key further
from the height than one and a half times the number of recipients. -/
theorem script_cache_transparent (P : ScriptParams) (history : List ScriptEvent) (nHeight : ℤ)
    (hhash : ∀ b b', .connect b ∈ history → .connect b' ∈ history → b.hash = b'.hash → b = b')
    (hactive : ((run P history).blockAt nHeight).isSome) :
    ((run P history).addMPoSScript P nHeight).1 =
      ({ run P history with scriptsMap := fun _ => none }.addMPoSScript P nHeight).1 ∧
    ∀ k e, ((run P history).addMPoSScript P nHeight).2.scriptsMap k = some e →
      |k - nHeight| ≤ P.cacheScripts := by
  have hsound : (run P history).Sound fun b => .connect b ∈ history := .run history
  generalize run P history = s at hactive hsound ⊢
  obtain ⟨b, hb⟩ := isSome_iff_exists.1 hactive
  refine ⟨?_, (hsound.query hb).2⟩
  obtain ⟨hknown, hindex⟩ := hsound.active nHeight b hb
  have hempty : ({ s with scriptsMap := fun _ => none } : ScriptNode).blockAt nHeight = some b := hb
  simp only [addMPoSScript, hb, hempty, cleanScriptCache, hindex]
  cases hhit : ((s.scriptsMap nHeight).filter
      fun e => !s.needToErase P nHeight nHeight e).filter (·.hash == b.hash) with
  | none => cases b.isProofOfStake <;> rfl
  | some e =>
    -- the entry was made for the block that is there now
    obtain ⟨hentry, heq⟩ := filter_eq_some_iff.1 hhit
    obtain ⟨b', hb', hb'e, hpos, hscript⟩ :=
      hsound.cached nHeight e (filter_eq_some_iff.1 hentry).1
    obtain rfl := hhash b' b hb' hknown (hb'e.trans (beq_iff_eq.1 heq))
    simp [hpos, hscript]

/-- A proof-of-stake block is connected, asked for, replaced and asked for
again. -/
def replacedHistory : List ScriptEvent :=
  [.connect ⟨1, true, 7⟩, .query 0, .disconnect, .connect ⟨2, true, 8⟩]

theorem replacedHistory_transparent :
    ((run ⟨10, false⟩ replacedHistory).addMPoSScript ⟨10, false⟩ 0).1 =
      ({ run ⟨10, false⟩ replacedHistory with
        scriptsMap := fun _ => none }.addMPoSScript ⟨10, false⟩ 0).1 ∧
    ∀ k e, ((run ⟨10, false⟩ replacedHistory).addMPoSScript ⟨10, false⟩ 0).2.scriptsMap k = some e →
      |k - 0| ≤ 15 :=
  script_cache_transparent ⟨10, false⟩ replacedHistory 0 (by
    simp only [replacedHistory, List.mem_cons, ScriptEvent.connect.injEq]
    rintro b b' (rfl | hb) (rfl | hb') <;> simp_all) rfl

end ScriptNode

end Slucore
