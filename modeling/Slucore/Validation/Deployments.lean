import Slucore.Validation.VersionBits
/-!
# Validation — deployments along a chain

From one period to the next a deployment should stay where it is or move
forward. `GetStateFor` stops its walk at a period that ends before the start
time, on the ground that all earlier ones do. But `ContextualCheckBlockHeader`
holds only proof-of-stake headers to the median time of their parents, so the
median time can fall back. A deployment moves forward along a chain exactly if
it does not fall below the start time again (`forwardOnly_iff`).
-/


namespace Slucore

open List HeaderLine

/-! ## The header rules -/

/-- A header, as `ContextualCheckBlockHeader` reads it. -/
structure ChainHeader extends HeaderIndex where
  nBits : ℕ
  isProofOfStake : Bool

/-- What `ContextualCheckBlockHeader` asks of the rest of the node: the work
required after a chain, for a time and a kind of block, the checkpoints, and
the limits. -/
structure HeaderRules where
  getNextWorkRequired : List ChainHeader → ℤ → Bool → ℕ
  getNextWorkRequiredSW : List ChainHeader → ℤ → Bool → ℕ
  checkpoints : ℕ → ChainHeader → Except Failure Unit
  futureDrift : ℤ
  bip34Height : ℕ
  bip66Height : ℕ
  bip65Height : ℕ

namespace HeaderRules

variable (R : HeaderRules)

/-- `ContextualCheckBlockHeader` for a header on the chain `pindexPrev`. -/
def contextualCheckBlockHeader (pindexPrev : List ChainHeader) (block : ChainHeader) :
    Except Failure Unit := do
  let nHeight := pindexPrev.length
  if block.nVersion = 0x20000002#32 then
    require (block.nBits == R.getNextWorkRequiredSW pindexPrev block.nTime block.isProofOfStake)
      (.dos 100 "SW bad-diffbits")
  else
    require (block.nBits == R.getNextWorkRequired pindexPrev block.nTime block.isProofOfStake)
      (.dos 100 "bad-diffbits")
  R.checkpoints nHeight block
  require (!(block.isProofOfStake && decide (block.nTime ≤
    HeaderLine.getMedianTimePast (pindexPrev.map ChainHeader.toHeaderIndex))))
    (.dos 0 "time-too-old")
  require (!(block.isProofOfStake && decide (R.futureDrift < block.nTime)))
    (.dos 0 "time-too-new")
  require (!(decide (block.nVersion.toInt < 2) && decide (R.bip34Height ≤ nHeight) ||
    decide (block.nVersion.toInt < 3) && decide (R.bip66Height ≤ nHeight) ||
    decide (block.nVersion.toInt < 4) && decide (R.bip65Height ≤ nHeight)))
    (.dos 0 ("bad-version(0x" ++ block.nVersion.toHex ++ ")"))

/-- Every header above the genesis block passes on its parent. -/
def Passes : List ChainHeader → Prop
  | [] | [_] => True
  | block :: pindexPrev =>
    R.contextualCheckBlockHeader pindexPrev block = .ok () ∧ Passes pindexPrev

end HeaderRules

/-! ## Moving forward -/

/-- From one period to the next a deployment stays or moves forward. -/
inductive ThresholdState.Moves : ThresholdState → ThresholdState → Prop where
  | stays (s : ThresholdState) : Moves s s
  | starts : Moves .defined .started
  | expires : Moves .defined .failed
  | locksIn : Moves .started .lockedIn
  | fails : Moves .started .failed
  | activates : Moves .lockedIn .active

theorem ThresholdState.moves_defined {s : ThresholdState} : Moves s .defined ↔ s = .defined :=
  ⟨fun h => by cases h; rfl, fun h => h ▸ .stays _⟩

namespace VersionBitsParams

variable (P : VersionBitsParams) (pos : DeploymentPos)

/-- A cache that earlier calls of `GetStateFor` filled. -/
inductive Filled : ThresholdConditionCache → Prop where
  | empty : Filled fun _ => none
  | call {cache : ThresholdConditionCache} (pindexPrev : HeaderLine) (before : Filled cache) :
      Filled (P.getStateFor pos pindexPrev cache).2

/-- The states along a chain: the cache makes no difference, a period has one
state, and from one period to the next the state moves forward. -/
structure ForwardOnly (line : HeaderLine) : Prop where
  cached : ∀ cache, P.Filled pos cache → ∀ l, l <:+ line →
    (P.getStateFor pos l cache).1 = (P.getStateFor pos l fun _ => none).1
  constant : ∀ l l', l <:+ line → l' <:+ line →
    l.length / P.nMinerConfirmationWindow = l'.length / P.nMinerConfirmationWindow →
    (P.getStateFor pos l fun _ => none).1 = (P.getStateFor pos l' fun _ => none).1
  forward : ∀ l, l <:+ line → P.nMinerConfirmationWindow ≤ l.length →
    (P.getStateFor pos (l.drop P.nMinerConfirmationWindow) fun _ => none).1.Moves
      (P.getStateFor pos l fun _ => none).1

/-- Once a period ended at or after the start time, so does the next one. -/
def Steady (line : HeaderLine) : Prop :=
  ∀ l, l <:+ line → P.nMinerConfirmationWindow ∣ l.length →
    l.drop P.nMinerConfirmationWindow ≠ [] →
    (P.vDeployments pos).nStartTime ≤
      HeaderLine.getMedianTimePast (l.drop P.nMinerConfirmationWindow) →
    (P.vDeployments pos).nStartTime ≤ HeaderLine.getMedianTimePast l

variable {P pos} {line l : HeaderLine}

theorem Filled.sound {cache : ThresholdConditionCache} (h : P.Filled pos cache) :
    P.Sound pos cache := by
  induction h with
  | empty => exact sound_empty
  | call pindexPrev _ ih => exact (getStateFor_eq ih pindexPrev).2

theorem getStateFor_none : (P.getStateFor pos l fun _ => none).1 = P.thresholdState pos l :=
  (getStateFor_eq sound_empty l).1

theorem stateNext_moves (state : ThresholdState) (line : HeaderLine) :
    state.Moves (P.stateNext pos state line) := by
  cases state <;> unfold stateNext <;> split_ifs <;> constructor

/-- **After the start time a deployment is not defined any more.** -/
theorem stateAfter_eq_defined {periods : ℕ} : P.stateAfter pos periods line = .defined ↔
    periods = 0 ∨ line.getMedianTimePast < (P.vDeployments pos).nStartTime := by
  cases periods with
  | zero => simp [stateAfter]
  | succ periods =>
    unfold stateAfter
    split_ifs with hstart
    · simp [hstart]
    · have hnext : ∀ state, P.stateNext pos state line ≠ .defined := by
        intro state
        cases state <;> unfold stateNext <;> split_ifs <;> simp <;> omega
      simp [hnext, hstart]

theorem length_periodEnd : (P.periodEnd l).length =
    P.nMinerConfirmationWindow * (l.length / P.nMinerConfirmationWindow) := by
  rw [periodEnd, length_drop]
  have := Nat.div_add_mod l.length P.nMinerConfirmationWindow
  omega

theorem periodEnd_drop (hle : P.nMinerConfirmationWindow ≤ l.length) :
    P.periodEnd (l.drop P.nMinerConfirmationWindow) =
      (P.periodEnd l).drop P.nMinerConfirmationWindow := by
  rw [periodEnd, periodEnd, length_drop, ← Nat.mod_eq_sub_mod hle, drop_drop, drop_drop, add_comm]

/-- **One more period moves the state**, unless it ends before the start time
and the last one did not. -/
theorem stateAfter_moves {periods : ℕ} :
    (P.stateAfter pos periods (l.drop P.nMinerConfirmationWindow)).Moves
        (P.stateAfter pos (periods + 1) l) ↔
      (periods ≠ 0 → (P.vDeployments pos).nStartTime ≤
        getMedianTimePast (l.drop P.nMinerConfirmationWindow) →
        (P.vDeployments pos).nStartTime ≤ l.getMedianTimePast) := by
  by_cases hstart : l.getMedianTimePast < (P.vDeployments pos).nStartTime
  · rw [stateAfter, if_pos hstart, ThresholdState.moves_defined, stateAfter_eq_defined]
    grind
  · rw [stateAfter, if_neg hstart]
    exact iff_of_true (stateNext_moves _ _) fun _ _ => not_lt.1 hstart

/-- **A deployment moves forward along a chain exactly if the chain is
steady.** -/
theorem forwardOnly_iff_steady (hpos : 0 < P.nMinerConfirmationWindow)
    (halways : (P.vDeployments pos).nStartTime ≠ alwaysActive) :
    P.ForwardOnly pos line ↔ P.Steady pos line := by
  have hstate : ∀ l, (P.getStateFor pos l fun _ => none).1 =
      P.stateAfter pos (l.length / P.nMinerConfirmationWindow) (P.periodEnd l) := by
    intro l
    rw [getStateFor_none, thresholdState, if_neg halways]
  -- one period further the walk starts from the end of one more period
  have hmoves : ∀ l : HeaderLine, P.nMinerConfirmationWindow ≤ l.length →
      ((P.getStateFor pos (l.drop P.nMinerConfirmationWindow) fun _ => none).1.Moves
          (P.getStateFor pos l fun _ => none).1 ↔
        ((P.periodEnd l).drop P.nMinerConfirmationWindow ≠ [] → (P.vDeployments pos).nStartTime ≤
          getMedianTimePast ((P.periodEnd l).drop P.nMinerConfirmationWindow) →
          (P.vDeployments pos).nStartTime ≤ (P.periodEnd l).getMedianTimePast)) := by
    intro l hle
    obtain ⟨n, hn⟩ : ∃ n, l.length / P.nMinerConfirmationWindow = n + 1 :=
      Nat.exists_eq_succ_of_ne_zero (Nat.div_pos hle hpos).ne'
    have hempty : (P.periodEnd l).drop P.nMinerConfirmationWindow ≠ [] ↔ n ≠ 0 := by
      rw [ne_eq, drop_eq_nil_iff, length_periodEnd, hn, Nat.mul_succ]
      have hzero : P.nMinerConfirmationWindow * n = 0 ↔ n = 0 := by simp [hpos.ne']
      omega
    rw [hstate, hstate, length_drop_div hn, hn, periodEnd_drop hle, stateAfter_moves, hempty]
  constructor
  · intro h l hl hdvd hne
    have hle : P.nMinerConfirmationWindow ≤ l.length :=
      (lt_of_not_ge fun hle => hne (drop_eq_nil_iff.2 hle)).le
    have hend : P.periodEnd l = l := by rw [periodEnd, Nat.mod_eq_zero_of_dvd hdvd, drop_zero]
    have hstep := (hmoves l hle).1 (h.forward l hl hle)
    rw [hend] at hstep
    exact hstep hne
  · intro h
    refine ⟨fun cache hcache l _ => ?_, fun l l' hl hl' hlen => ?_, fun l hl hle => ?_⟩
    · rw [(getStateFor_eq hcache.sound l).1, getStateFor_none]
    · -- the two walks start from the end of the same period
      have hsame : (P.periodEnd l).length = (P.periodEnd l').length := by
        rw [length_periodEnd, length_periodEnd, hlen]
      have hend : P.periodEnd l = P.periodEnd l' :=
        (suffix_of_suffix_length_le ((drop_suffix _ _).trans hl) ((drop_suffix _ _).trans hl')
          hsame.le).eq_of_length hsame
      rw [hstate, hstate, hlen, hend]
    · exact (hmoves l hle).2 (h _ ((drop_suffix _ _).trans hl) ⟨_, length_periodEnd⟩)

end VersionBitsParams

/-! ## The main and the test network -/

/-- The networks with the deployments of 2008. -/
inductive PublicNetwork where
  | main | test

/-- Their parameters. -/
def PublicNetwork.versionBits (net : PublicNetwork) : VersionBitsParams where
  nRuleChangeActivationThreshold := match net with
    | .main => 1916
    | .test => 1512
  nMinerConfirmationWindow := 2016
  vDeployments
    | .testdummy => ⟨1199145601, 1230767999⟩
    | .csv | .segwit => ⟨0, 999999999999⟩

/-- **When deployments move only forward.** On the main and the test network,
exactly along the chains whose median time, from one end of a period to the
next, does not fall below the start time again. -/
theorem forwardOnly_iff (net : PublicNetwork) (pos : DeploymentPos) (line : HeaderLine) :
    net.versionBits.ForwardOnly pos line ↔ net.versionBits.Steady pos line := by
  refine VersionBitsParams.forwardOnly_iff_steady (Nat.succ_pos 2015) ?_
  cases net <;> cases pos <;> decide

/-- Proof-of-work headers with given times, newest first; the hash of each is its
height. -/
def powChain (R : HeaderRules) : List ℤ → List ChainHeader
  | [] => []
  | t :: times => ⟨⟨t, versionbitsTopBits, times.length⟩,
      R.getNextWorkRequired (powChain R times) t false, false⟩ :: powChain R times

theorem powChain_times (R : HeaderRules) (times : List ℤ) :
    ((powChain R times).map ChainHeader.toHeaderIndex).map HeaderIndex.nTime = times := by
  induction times with
  | nil => rfl
  | cons t times ih => rw [powChain, map_cons, map_cons, ih]

theorem length_powChain (R : HeaderRules) (times : List ℤ) :
    (powChain R times).length = times.length := by
  simpa using congrArg length (powChain_times R times)

/-- They pass, whatever their times, where no checkpoint is in the way. -/
theorem powChain_passes {R : HeaderRules} (times : List ℤ)
    (h : ∀ n < times.length, ∀ block, R.checkpoints n block = .ok ()) :
    R.Passes (powChain R times) := by
  induction times with
  | nil => trivial
  | cons t times ih =>
    have hrest := ih fun n hn => h n (Nat.lt_succ_of_lt hn)
    have hcheck := h (powChain R times).length (by simp [length_powChain])
    have hpass : R.contextualCheckBlockHeader (powChain R times)
        ⟨⟨t, versionbitsTopBits, times.length⟩,
          R.getNextWorkRequired (powChain R times) t false, false⟩ = .ok () := by
      have hversion : versionbitsTopBits.toInt = 536870912 := by decide
      simp [HeaderRules.contextualCheckBlockHeader, hcheck, hversion,
        (by decide : versionbitsTopBits ≠ 0x20000002#32)]
    rw [powChain]
    cases hprev : powChain R times with
    | nil => trivial
    | cons block prev =>
      rw [hprev] at hpass hrest
      exact ⟨hpass, hrest⟩

/-- Two periods, the first with the time of the genesis block and the second from
before 2008. -/
def fallingTimes : List ℤ := replicate 2016 0 ++ replicate 2016 1532770381

theorem length_fallingTimes : fallingTimes.length = 4032 := by
  rw [fallingTimes, length_append, length_replicate, length_replicate]

/-- The median of a line by its times. -/
theorem getMedianTimePast_of_take {l : HeaderLine} {t : ℤ}
    (h : (l.map HeaderIndex.nTime).take 11 = replicate 11 t) : l.getMedianTimePast = t := by
  have hsorted : (replicate 11 t).Pairwise (· ≤ ·) := pairwise_replicate.2 (.inr le_rfl)
  rw [getMedianTimePast, map_take, h, hsorted.insertionSort_eq]
  simp

/-- **A deployment that failed is defined again**: after the first period the
time is past the timeout, and after the second it is before the start. -/
theorem failed_deployment_defined : ¬ ∃ R : HeaderRules,
    (∀ n < 15000, ∀ block, R.checkpoints n block = .ok ()) ∧
      ∀ chain, R.Passes chain → PublicNetwork.main.versionBits.ForwardOnly .testdummy
        (chain.map ChainHeader.toHeaderIndex) := by
  rintro ⟨R, hcheck, h⟩
  have hforward := h _ (powChain_passes fallingTimes fun n hn => hcheck n (hn.trans (by
    rw [length_fallingTimes]
    decide)))
  rw [VersionBitsParams.forwardOnly_iff_steady (Nat.succ_pos 2015) (by decide)] at hforward
  have htimes := powChain_times R fallingTimes
  have hlen : ((powChain R fallingTimes).map ChainHeader.toHeaderIndex).length = 4032 := by
    rw [length_map, length_powChain, length_fallingTimes]
  generalize (powChain R fallingTimes).map ChainHeader.toHeaderIndex = line at hforward htimes hlen
  have hnow : HeaderLine.getMedianTimePast line = 0 := by
    refine getMedianTimePast_of_take ?_
    rw [htimes, fallingTimes, take_append_of_le_length (by rw [length_replicate]; decide),
      take_replicate]
    rfl
  have hbefore : HeaderLine.getMedianTimePast (line.drop 2016) = 1532770381 := by
    refine getMedianTimePast_of_take ?_
    rw [map_drop, htimes, fallingTimes, drop_left' (length_replicate ..), take_replicate]
    rfl
  have hlast := hforward line suffix_rfl ⟨2, hlen⟩
  change drop 2016 line ≠ [] → (1199145601 : ℤ) ≤ getMedianTimePast (drop 2016 line) →
    (1199145601 : ℤ) ≤ _ at hlast
  rw [hbefore, hnow] at hlast
  have hne : drop 2016 line ≠ [] := ne_nil_of_length_pos (by rw [length_drop, hlen]; decide)
  exact absurd (hlast hne (by decide)) (by decide)

end Slucore
