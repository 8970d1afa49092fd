import KPCoin.Primitives.Transaction

/-!
# Consensus parameters

`consensus/params.h`, `consensus/amount.h` and `consensus/consensus.h`, as far as the modelled
functions read them.
-/

namespace KPCoin

/-- The script verification flags used by block validation. -/
inductive ScriptFlag
  | p2sh
  | witness
  | taproot
  | dersig
  | checkLockTimeVerify
  | checkSequenceVerify
  | nullDummy
  deriving DecidableEq, Repr

/-- `Consensus::BuriedDeployment`. -/
inductive BuriedDeployment
  | heightInCb
  | cltv
  | dersig
  | csv
  | segwit
  deriving DecidableEq, Repr

/-- `Consensus::Params`. -/
structure Params where
  hashGenesisBlock : Uint256
  nSubsidyHalvingInterval : ℤ
  scriptFlagExceptions : Uint256 → Option (List ScriptFlag)
  bip34Height : ℤ
  bip34Hash : Uint256
  bip65Height : ℤ
  bip66Height : ℤ
  csvHeight : ℤ
  segwitHeight : ℤ
  powLimit : Uint256
  fPowAllowMinDifficultyBlocks : Bool
  fPowNoRetargeting : Bool
  nPowTargetSpacing : ℤ
  nPowTargetTimespan : ℤ
  signetBlocks : Bool := false

namespace Params

/-- `DifficultyAdjustmentInterval`. -/
def difficultyAdjustmentInterval (p : Params) : ℤ := p.nPowTargetTimespan.tdiv p.nPowTargetSpacing

/-- `DeploymentHeight`. -/
def deploymentHeight (p : Params) : BuriedDeployment → ℤ
  | .heightInCb => p.bip34Height
  | .cltv => p.bip65Height
  | .dersig => p.bip66Height
  | .csv => p.csvHeight
  | .segwit => p.segwitHeight

end Params

/-- A network with a limit near the largest target and a period of two weeks. -/
def wideLimit : Params where
  hashGenesisBlock := 0
  nSubsidyHalvingInterval := 1213000
  scriptFlagExceptions _ := none
  bip34Height := 500
  bip34Hash := 0
  bip65Height := 500
  bip66Height := 500
  csvHeight := 0
  segwitHeight := 0
  powLimit := (-1 : BitVec 256) >>> 1
  fPowAllowMinDifficultyBlocks := false
  fPowNoRetargeting := false
  nPowTargetSpacing := 600
  nPowTargetTimespan := 14 * 24 * 60 * 60

/-- `COIN`. -/
def coinUnit : ℤ := 100000000

/-- `MAX_MONEY`. -/
def maxMoney : ℤ := 1213000000 * coinUnit

/-- `MoneyRange`. -/
def moneyRange (nValue : ℤ) : Bool := decide (0 ≤ nValue ∧ nValue ≤ maxMoney)

/-- `MAX_BLOCK_WEIGHT`. -/
def maxBlockWeight : ℕ := 4000000

/-- `MAX_BLOCK_SIGOPS_COST`. -/
def maxBlockSigopsCost : ℕ := 80000

/-- `COINBASE_MATURITY`. -/
def coinbaseMaturity : ℤ := 100

/-- `WITNESS_SCALE_FACTOR`. -/
def witnessScaleFactor : ℕ := 4

theorem moneyRange_iff {x : ℤ} : moneyRange x = true ↔ 0 ≤ x ∧ x ≤ maxMoney := by
  simp [moneyRange]

end KPCoin
