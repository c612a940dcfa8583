import Mathlib.Data.List.Sort
import Slucore.Validation.Node
/-!
# Validation — the state of a deployment

`GetStateFor` finds the state of a deployment after a block: it steps back
period by period to a block whose state is in the cache, to one from before
the start time or to the genesis block, and then computes the states
forward again. What it finds is a function of the chain alone
(`thresholdState`), and the cache stays a part of that function
(`getStateFor_eq`). `ComputeBlockVersion` sets one bit of the version for
every deployment that is being signalled for.
-/


namespace Slucore

open Function

/-- `ThresholdState`. -/
inductive ThresholdState where
  | defined | started | lockedIn | active | failed
deriving DecidableEq, Repr

/-- `DeploymentPos`. -/
inductive DeploymentPos where
  | testdummy | csv | segwit
deriving DecidableEq, Repr

namespace DeploymentPos

/-- `vDeployments[pos].bit`, which is the same for every network. -/
def bit : DeploymentPos → ℕ
  | testdummy => 28
  | csv => 0
  | segwit => 1

/-- `VersionBitsMask`. -/
def mask (pos : DeploymentPos) : BitVec 32 := 1#32 <<< pos.bit

/-- The positions in the order of the loop of `ComputeBlockVersion`. -/
def all : List DeploymentPos := [testdummy, csv, segwit]

end DeploymentPos

/-- `BIP9Deployment`, without the bit. -/
structure BIP9Deployment where
  nStartTime : ℤ
  nTimeout : ℤ
deriving DecidableEq, Repr

/-- `BIP9Deployment::ALWAYS_ACTIVE`. -/
def alwaysActive : ℤ := -1

/-- The consensus parameters of the deployments. -/
structure VersionBitsParams where
  nRuleChangeActivationThreshold : ℕ
  nMinerConfirmationWindow : ℕ
  vDeployments : DeploymentPos → BIP9Deployment

/-- The fields of a block index that the state of a deployment reads, and the hash
that tells blocks apart. -/
structure HeaderIndex where
  nTime : ℤ
  nVersion : BitVec 32
  blockHash : UInt256
deriving DecidableEq, Repr

/-- A block index with its line of parents, the block itself first; the
empty line is the null pointer. -/
abbrev HeaderLine := List HeaderIndex

/-- `GetMedianTimePast`: the median of the last eleven times. -/
def HeaderLine.getMedianTimePast (pindex : HeaderLine) : ℤ :=
  let times := ((pindex.take 11).map HeaderIndex.nTime).insertionSort (· ≤ ·)
  times.getD (times.length / 2) 0

/-- `VERSIONBITS_TOP_BITS`. -/
def versionbitsTopBits : BitVec 32 := 0x20000000#32

/-- `VERSIONBITS_TOP_MASK`. -/
def versionbitsTopMask : BitVec 32 := 0xE0000000#32

/-- `VersionBitsConditionChecker::Condition`. -/
def HeaderIndex.condition (pos : DeploymentPos) (b : HeaderIndex) : Bool :=
  b.nVersion &&& versionbitsTopMask == versionbitsTopBits && b.nVersion &&& pos.mask != 0#32

/-- `ThresholdConditionCache`: the states known at the ends of periods, by block. -/
abbrev ThresholdConditionCache := HeaderLine → Option ThresholdState

/-- `VersionBitsCache`. -/
abbrev VersionBitsCache := DeploymentPos → ThresholdConditionCache

namespace VersionBitsParams

variable (P : VersionBitsParams) (pos : DeploymentPos)

/-- The body of the loop forward: the state after the period that ends at
`pindexPrev`. -/
def stateNext (state : ThresholdState) (pindexPrev : HeaderLine) : ThresholdState :=
  match state with
  | .defined =>
    if (P.vDeployments pos).nTimeout ≤ pindexPrev.getMedianTimePast then .failed
    else if (P.vDeployments pos).nStartTime ≤ pindexPrev.getMedianTimePast then .started
    else .defined
  | .started =>
    if (P.vDeployments pos).nTimeout ≤ pindexPrev.getMedianTimePast then .failed
    else if P.nRuleChangeActivationThreshold ≤
        (pindexPrev.take P.nMinerConfirmationWindow).countP (HeaderIndex.condition pos) then .lockedIn
    else .started
  | .lockedIn => .active
  | .active => .active
  | .failed => .failed

/-- The two loops of `GetStateFor`, the first of which ends after `periods`
periods at the null pointer. The blocks it puts on `vToCompute` are those
the recursion comes back to. -/
def walk : ℕ → HeaderLine → ThresholdConditionCache → ThresholdState × ThresholdConditionCache
  | periods, pindexPrev, cache =>
    match cache pindexPrev with
    | some state => (state, cache)
    | none =>
      match periods with
      | 0 => (.defined, Function.update cache pindexPrev (some .defined))
      | periods + 1 =>
        if pindexPrev.getMedianTimePast < (P.vDeployments pos).nStartTime then
          (.defined, Function.update cache pindexPrev (some .defined))
        else
          let (state, cache) := walk periods (pindexPrev.drop P.nMinerConfirmationWindow) cache
          let next := P.stateNext pos state pindexPrev
          (next, Function.update cache pindexPrev (some next))

/-- The last block of the last whole period. -/
def periodEnd (pindexPrev : HeaderLine) : HeaderLine :=
  pindexPrev.drop (pindexPrev.length % P.nMinerConfirmationWindow)

/-- `GetStateFor`, which is `VersionBitsState`. -/
def getStateFor (pindexPrev : HeaderLine) (cache : ThresholdConditionCache) :
    ThresholdState × ThresholdConditionCache :=
  if (P.vDeployments pos).nStartTime = alwaysActive then (.active, cache)
  else P.walk pos (pindexPrev.length / P.nMinerConfirmationWindow) (P.periodEnd pindexPrev) cache

/-- One turn of the loop of `ComputeBlockVersion`. -/
def addDeployment (pindexPrev : HeaderLine) (acc : BitVec 32 × VersionBitsCache)
    (pos : DeploymentPos) : BitVec 32 × VersionBitsCache :=
  let (state, cache) := P.getStateFor pos pindexPrev (acc.2 pos)
  (if state = .lockedIn ∨ state = .started then acc.1 ||| pos.mask else acc.1,
    Function.update acc.2 pos cache)

/-- `ComputeBlockVersion`. -/
def computeBlockVersion (pindexPrev : HeaderLine) (caches : VersionBitsCache) :
    BitVec 32 × VersionBitsCache :=
  DeploymentPos.all.foldl (P.addDeployment pindexPrev) (versionbitsTopBits, caches)

/-! ## The states, without a cache -/

/-- The state after so many whole periods. -/
def stateAfter : ℕ → HeaderLine → ThresholdState
  | 0, _ => .defined
  | periods + 1, pindexPrev =>
    if pindexPrev.getMedianTimePast < (P.vDeployments pos).nStartTime then .defined
    else P.stateNext pos (stateAfter periods (pindexPrev.drop P.nMinerConfirmationWindow)) pindexPrev

/-- **The state of a deployment for the block after `pindexPrev`.** -/
def thresholdState (pindexPrev : HeaderLine) : ThresholdState :=
  if (P.vDeployments pos).nStartTime = alwaysActive then .active
  else P.stateAfter pos (pindexPrev.length / P.nMinerConfirmationWindow) (P.periodEnd pindexPrev)

/-- The deployment is being signalled for after `pindexPrev`. -/
def Signals (pindexPrev : HeaderLine) : Prop :=
  P.thresholdState pos pindexPrev = .lockedIn ∨ P.thresholdState pos pindexPrev = .started

instance (pindexPrev : HeaderLine) : Decidable (P.Signals pos pindexPrev) :=
  inferInstanceAs (Decidable (_ ∨ _))

/-- What the cache holds for the end of a period is the state after it. -/
def Sound (cache : ThresholdConditionCache) : Prop :=
  ∀ line state, cache line = some state →
    state = P.stateAfter pos (line.length / P.nMinerConfirmationWindow) line

variable {P pos} {cache : ThresholdConditionCache} {pindexPrev : HeaderLine}

theorem sound_empty : P.Sound pos fun _ => none :=
  fun _ _ h => absurd h (by simp)

/-- Storing the state of one more period keeps the cache sound. -/
theorem Sound.update (h : P.Sound pos cache) {line : HeaderLine} {state : ThresholdState}
    (hstate : state = P.stateAfter pos (line.length / P.nMinerConfirmationWindow) line) :
    P.Sound pos (update cache line (some state)) := by
  intro l s hl
  by_cases heq : l = line
  · subst heq
    rw [update_self] at hl
    exact (Option.some.inj hl).symm.trans hstate
  · rw [update_of_ne heq] at hl
    exact h l s hl

/-- One period less is left a period further back. -/
theorem length_drop_div {periods : ℕ}
    (h : pindexPrev.length / P.nMinerConfirmationWindow = periods + 1) :
    (pindexPrev.drop P.nMinerConfirmationWindow).length / P.nMinerConfirmationWindow = periods := by
  have hpos : 0 < P.nMinerConfirmationWindow := by
    rcases Nat.eq_zero_or_pos P.nMinerConfirmationWindow with h0 | h0
    · rw [h0] at h
      omega
    · exact h0
  have hle : P.nMinerConfirmationWindow ≤ pindexPrev.length := by
    by_contra hlt
    rw [Nat.div_eq_of_lt (by omega)] at h
    omega
  rw [List.length_drop]
  have := Nat.div_eq_sub_div hpos hle
  omega

/-- **The walk computes the state after its periods, and caches no other
one.** -/
theorem walk_eq {periods : ℕ} (h : P.Sound pos cache)
    (hperiods : pindexPrev.length / P.nMinerConfirmationWindow = periods) :
    (P.walk pos periods pindexPrev cache).1 = P.stateAfter pos periods pindexPrev ∧
      P.Sound pos (P.walk pos periods pindexPrev cache).2 := by
  -- the recursion goes back period by period, the last one with the null pointer
  induction periods generalizing pindexPrev with
  | zero =>
    unfold walk
    cases hc : cache pindexPrev with
    | some state => exact ⟨(h _ _ hc).trans (by rw [hperiods]), h⟩
    | none => exact ⟨rfl, h.update (by rw [hperiods]; rfl)⟩
  | succ periods ih =>
    unfold walk
    cases hc : cache pindexPrev with
    | some state => exact ⟨(h _ _ hc).trans (by rw [hperiods]), h⟩
    | none =>
      obtain ⟨hstate, hsound⟩ := ih (length_drop_div hperiods)
      by_cases hstart : pindexPrev.getMedianTimePast < (P.vDeployments pos).nStartTime
      · have hdefined : ThresholdState.defined = P.stateAfter pos (periods + 1) pindexPrev := by
          rw [stateAfter, if_pos hstart]
        simp only [if_pos hstart]
        exact ⟨hdefined, h.update (by rw [hperiods]; exact hdefined)⟩
      · have hnext : P.stateNext pos
            (P.walk pos periods (pindexPrev.drop P.nMinerConfirmationWindow) cache).1 pindexPrev =
            P.stateAfter pos (periods + 1) pindexPrev := by
          rw [stateAfter, if_neg hstart, hstate]
        simp only [if_neg hstart]
        exact ⟨hnext, hsound.update (by rw [hperiods]; exact hnext)⟩

/-- The end of the last whole period has as many whole periods behind it. -/
theorem length_periodEnd_div : (P.periodEnd pindexPrev).length / P.nMinerConfirmationWindow =
    pindexPrev.length / P.nMinerConfirmationWindow := by
  rw [periodEnd, List.length_drop, ← Nat.div_mul_self_eq_mod_sub_self]
  rcases Nat.eq_zero_or_pos P.nMinerConfirmationWindow with h0 | h0
  · simp [h0]
  · exact Nat.mul_div_cancel _ h0

/-- **What `GetStateFor` returns depends on the chain alone**, and the cache
stays sound. -/
theorem getStateFor_eq (h : P.Sound pos cache) (pindexPrev : HeaderLine) :
    (P.getStateFor pos pindexPrev cache).1 = P.thresholdState pos pindexPrev ∧
      P.Sound pos (P.getStateFor pos pindexPrev cache).2 := by
  unfold getStateFor thresholdState
  by_cases halways : (P.vDeployments pos).nStartTime = alwaysActive
  · rw [if_pos halways, if_pos halways]
    exact ⟨rfl, h⟩
  · rw [if_neg halways, if_neg halways]
    exact walk_eq h length_periodEnd_div

/-! ## The version of the next block -/

/-- The bit a deployment contributes to the version. -/
def signalBit (P : VersionBitsParams) (pindexPrev : HeaderLine) (pos : DeploymentPos) :
    BitVec 32 :=
  if P.Signals pos pindexPrev then pos.mask else 0#32

/-- One turn sets the bit of its deployment and keeps every cache sound. -/
theorem addDeployment_eq {acc : BitVec 32 × VersionBitsCache} (h : ∀ pos, P.Sound pos (acc.2 pos))
    (pindexPrev : HeaderLine) (pos : DeploymentPos) :
    (P.addDeployment pindexPrev acc pos).1 = acc.1 ||| P.signalBit pindexPrev pos ∧
      ∀ pos', P.Sound pos' ((P.addDeployment pindexPrev acc pos).2 pos') := by
  obtain ⟨hstate, hsound⟩ := getStateFor_eq (h pos) pindexPrev
  refine ⟨?_, fun pos' => ?_⟩
  · simp only [addDeployment, hstate, signalBit]
    by_cases hsignals : P.Signals pos pindexPrev
    · rw [if_pos hsignals]
      exact if_pos hsignals
    · rw [if_neg hsignals, BitVec.or_zero]
      exact if_neg hsignals
  · by_cases heq : pos' = pos
    · subst heq
      simpa [addDeployment] using hsound
    · simpa [addDeployment, update_of_ne heq] using h pos'

/-- **The version is the top bits with the bits of the deployments that are
being signalled for**, and the caches stay sound. -/
theorem computeBlockVersion_eq {caches : VersionBitsCache} (h : ∀ pos, P.Sound pos (caches pos))
    (pindexPrev : HeaderLine) :
    (P.computeBlockVersion pindexPrev caches).1 =
        versionbitsTopBits ||| P.signalBit pindexPrev .testdummy |||
          P.signalBit pindexPrev .csv ||| P.signalBit pindexPrev .segwit ∧
      ∀ pos, P.Sound pos ((P.computeBlockVersion pindexPrev caches).2 pos) := by
  have hinit : ∀ pos, P.Sound pos ((versionbitsTopBits, caches).2 pos) := h
  have h1 := addDeployment_eq hinit pindexPrev .testdummy
  have h2 := addDeployment_eq h1.2 pindexPrev .csv
  have h3 := addDeployment_eq h2.2 pindexPrev .segwit
  refine ⟨?_, h3.2⟩
  rw [← h1.1, ← h2.1, ← h3.1]
  rfl

end VersionBitsParams

end Slucore
