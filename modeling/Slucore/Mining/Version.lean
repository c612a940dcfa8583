import Slucore.Validation.VersionBits
/-!
# Mining — the version of an assembled block

A block of a main node is told apart by its version alone, `swVersion`.
The four functions that start a block take the version from
`ComputeBlockVersion`; `CreateNewBlockSW` adds 2 to it, which gives the tag
only while no deployment is being signalled for, and `CreateEmptyBlockSW`
adds nothing. So the two main-node builders give the tag on different
chains, and where the empty one does, so do the ordinary builders.
-/


namespace Slucore

open VersionBitsParams

/-- What can replace the version of a new block. -/
structure VersionOptions where
  /-- `chainparams.MineBlocksOnDemand()`. -/
  mineBlocksOnDemand : Bool
  /-- `-blockversion`, if it is set. -/
  blockversion : Option ℤ
deriving DecidableEq, Repr

/-- A command line without `-blockversion`. -/
def VersionOptions.plain (mineBlocksOnDemand : Bool) : VersionOptions :=
  ⟨mineBlocksOnDemand, none⟩

section Builders

variable (P : VersionBitsParams) (o : VersionOptions) (tip : HeaderLine) (caches : VersionBitsCache)

/-- `pblock->nVersion`, where `offset` is added to the computed version. -/
def newVersion (offset : ℤ) : ℤ :=
  let nVersion := (P.computeBlockVersion tip caches).1.toInt + offset
  if o.mineBlocksOnDemand then o.blockversion.getD nVersion else nVersion

/-- The version `CreateNewBlockSW` gives. -/
def createNewBlockSWVersion : ℤ := newVersion P o tip caches 2

/-- The version `CreateNewBlock` gives. -/
def createNewBlockVersion : ℤ := newVersion P o tip caches 0

/-- The version `CreateEmptyBlock` gives. -/
def createEmptyBlockVersion : ℤ := newVersion P o tip caches 0

/-- The version `CreateEmptyBlockSW` gives. -/
def createEmptyBlockSWVersion : ℤ := newVersion P o tip caches 0

/-- The main-node builders give the tag, and the ordinary ones do not. -/
structure TagUnambiguous : Prop where
  newBlockSW : createNewBlockSWVersion P o tip caches = swVersion
  emptyBlockSW : createEmptyBlockSWVersion P o tip caches = swVersion
  newBlock : createNewBlockVersion P o tip caches ≠ swVersion
  emptyBlock : createEmptyBlockVersion P o tip caches ≠ swVersion

end Builders

namespace VersionBitsParams

variable (P : VersionBitsParams) (tip : HeaderLine)

/-- No deployment is being signalled for. -/
def Quiet : Prop := ∀ pos, ¬ P.Signals pos tip

/-- Of the deployments, `DEPLOYMENT_SEGWIT` alone is being signalled for. -/
def OnlySegwit : Prop :=
  P.Signals .segwit tip ∧ ¬ P.Signals .csv tip ∧ ¬ P.Signals .testdummy tip

end VersionBitsParams

section Tag

variable {P : VersionBitsParams} {tip : HeaderLine} {caches : VersionBitsCache}

section

variable (h : ∀ pos, P.Sound pos (caches pos)) (onDemand : Bool)
include h onDemand

/-- **When a builder gives the tag**: the bits of the deployments and what
it adds are worth 2 together. -/
theorem newVersion_eq_swVersion (offset : ℤ) :
    newVersion P (.plain onDemand) tip caches offset = swVersion ↔
      (if P.Signals .testdummy tip then 2 ^ 28 else 0) + (if P.Signals .csv tip then 1 else 0) +
        (if P.Signals .segwit tip then 2 else 0) + offset = 2 := by
  have hversion : newVersion P (.plain onDemand) tip caches offset =
      (P.computeBlockVersion tip caches).1.toInt + offset := by
    cases onDemand <;> rfl
  rw [hversion, (computeBlockVersion_eq h tip).1]
  -- the three bits are disjoint from each other and from the top bits
  have hsum : (versionbitsTopBits ||| P.signalBit tip .testdummy ||| P.signalBit tip .csv |||
      P.signalBit tip .segwit).toInt = 0x20000000 +
        ((if P.Signals .testdummy tip then 2 ^ 28 else 0) + (if P.Signals .csv tip then 1 else 0) +
          (if P.Signals .segwit tip then 2 else 0)) := by
    unfold signalBit
    by_cases hd : P.Signals .testdummy tip <;> by_cases hc : P.Signals .csv tip <;>
      by_cases hs : P.Signals .segwit tip <;> simp only [hd, hc, hs, if_true, if_false] <;> decide
  rw [swVersion]
  omega

theorem newVersion_two :
    newVersion P (.plain onDemand) tip caches 2 = swVersion ↔ P.Quiet tip := by
  rw [newVersion_eq_swVersion h]
  constructor
  · intro hsum pos hpos
    cases pos <;> rw [if_pos hpos] at hsum <;> split_ifs at hsum <;> omega
  · intro hquiet
    rw [if_neg (hquiet _), if_neg (hquiet _), if_neg (hquiet _)]
    rfl

theorem newVersion_zero :
    newVersion P (.plain onDemand) tip caches 0 = swVersion ↔ P.OnlySegwit tip := by
  rw [newVersion_eq_swVersion h]
  constructor
  · intro hsum
    split_ifs at hsum with hd hc hs <;> first | omega | exact ⟨‹_›, ‹_›, ‹_›⟩
  · rintro ⟨hs, hc, hd⟩
    rw [if_pos hs, if_neg hc, if_neg hd]
    rfl

end

/-- **On no chain does the version tell the blocks of main nodes apart.**
`CreateNewBlockSW` gives the tag while no deployment is being signalled
for; the other three give the same version, which is the tag where
`DEPLOYMENT_SEGWIT` alone is being signalled for. -/
theorem tag_is_ambiguous (h : ∀ pos, P.Sound pos (caches pos)) (onDemand : Bool) :
    ¬ TagUnambiguous P (.plain onDemand) tip caches ∧
    (createNewBlockSWVersion P (.plain onDemand) tip caches = swVersion ↔ P.Quiet tip) ∧
    (createEmptyBlockSWVersion P (.plain onDemand) tip caches = swVersion ↔ P.OnlySegwit tip) ∧
    (createNewBlockVersion P (.plain onDemand) tip caches ≠ swVersion ↔ ¬ P.OnlySegwit tip) ∧
    (createEmptyBlockVersion P (.plain onDemand) tip caches ≠ swVersion ↔ ¬ P.OnlySegwit tip) := by
  refine ⟨fun htag => ?_, newVersion_two h _, newVersion_zero h _, (newVersion_zero h _).not,
    (newVersion_zero h _).not⟩
  exact htag.emptyBlock htag.emptyBlockSW

end Tag

/-! ## A chain of the regression test network -/

/-- The deployments of the regression test network. -/
def regtestVersionBits : VersionBitsParams where
  nRuleChangeActivationThreshold := 108
  nMinerConfirmationWindow := 144
  vDeployments _ := ⟨0, 999999999999⟩

/-- No state is cached. -/
def coldCaches : VersionBitsCache := fun _ _ => none

theorem sound_coldCaches (P : VersionBitsParams) (pos : DeploymentPos) :
    P.Sound pos (coldCaches pos) :=
  sound_empty

/-- The chain of the genesis block. -/
def genesisLine : HeaderLine := [⟨1532770711, 1#32, 0⟩]

theorem tag_is_ambiguous_genesis :
    ¬ TagUnambiguous regtestVersionBits (.plain true) genesisLine coldCaches :=
  (tag_is_ambiguous (sound_coldCaches _) true).1

/-- Three periods: one of ordinary blocks before any deployment is started,
and two of main-node blocks, whose version `0x30000003 + 2` signals for
every deployment but `DEPLOYMENT_SEGWIT`. -/
def signallingLine : HeaderLine :=
  (List.range 431).map (fun i =>
    ⟨1600000000 - 128 * i, if i < 288 then 0x30000005#32 else 0x20000000#32, 431 - i⟩) ++
      genesisLine

/-- **After the genesis block `CreateEmptyBlockSW` misses the tag. Once
`DEPLOYMENT_CSV` is active and `DEPLOYMENT_SEGWIT` is not locked in yet,
`CreateNewBlock` gives it** and `CreateNewBlockSW` does not. The line
between the two is one the builders themselves give. -/
theorem empty_block_misses_tag :
    createEmptyBlockSWVersion regtestVersionBits (.plain true) genesisLine coldCaches =
      0x20000000 ∧
    createNewBlockVersion regtestVersionBits (.plain true) genesisLine coldCaches = 0x20000000 ∧
    createNewBlockSWVersion regtestVersionBits (.plain true)
      (signallingLine.drop 288) coldCaches = 0x30000005 ∧
    createNewBlockSWVersion regtestVersionBits (.plain true)
      (signallingLine.drop 144) coldCaches = 0x30000005 ∧
    createNewBlockVersion regtestVersionBits (.plain true) signallingLine coldCaches = swVersion ∧
    createNewBlockSWVersion regtestVersionBits (.plain true) signallingLine coldCaches ≠
      swVersion := by
  decide +kernel

end Slucore
