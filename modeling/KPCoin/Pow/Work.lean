import KPCoin.Chain.Index
import KPCoin.Consensus.Params

/-!
# Proof of work

The rules of `pow.cpp`: the target the next block must have, the test of a hash against a target,
and the bound on how a target may move that header synchronisation relies on.
-/

namespace KPCoin.Pow

open Chain

variable (p : Params)

/-- `*=` with a 64-bit time: only the overload for 32 bits fits without a user conversion, so the
factor is truncated. -/
def mulTimespan (x : Arith) (t : ℤ) : Arith := x * (BitVec.ofInt 32 t).setWidth 256

/-- `/=` with a 64-bit time, which becomes an `arith_uint256`.  A zero divisor throws. -/
def divTimespan (x : Arith) (t : ℤ) : Option Arith :=
  let d : Arith := (BitVec.ofInt 64 t).setWidth 256
  if d = 0 then none else some (x / d)

/-- Scale a compact target by `t / nPowTargetTimespan`, capped by the limit. -/
def scaleTarget (nBits : Compact) (t : ℤ) : Option Arith := do
  let x ← divTimespan (mulTimespan (setCompact nBits).value t) p.nPowTargetTimespan
  return if x > p.powLimit then p.powLimit else x

/-- `CalculateNextWorkRequired`. -/
def calculateNextWorkRequired (last : BlockIndex) (nFirstBlockTime : ℤ) : Option Compact := do
  if p.fPowNoRetargeting then return last.nBits
  let nActualTimespan : ℤ := last.nTime - nFirstBlockTime
  let nTargetTimespan := p.nPowTargetTimespan
  let nActualTimespan :=
    if nActualTimespan < nTargetTimespan.tdiv 4 then nTargetTimespan.tdiv 4 else nActualTimespan
  let nActualTimespan :=
    if nActualTimespan > nTargetTimespan * 4 then nTargetTimespan * 4 else nActualTimespan
  return getCompact (← scaleTarget p last.nBits nActualTimespan)

/-- `GetNextWorkRequired`.  A failed assertion or an exception is `none`. -/
def getNextWorkRequired : Branch → Option Compact
  | [] => none
  | last :: rest =>
    let interval := p.difficultyAdjustmentInterval
    -- special rule for the first retarget period
    if (last.nHeight + 1 : ℤ) < interval then some (getCompact p.powLimit)
    else if interval = 0 then none
    else if (last.nHeight + 1 : ℤ).tmod interval ≠ 0 then some last.nBits
    else if (last.nHeight : ℤ) - (interval - 1) < 0 then none
    else
      match (last :: rest).drop ((BitVec.ofInt 32 interval).toInt - 1).toNat with
      | [] => none
      | first :: _ => calculateNextWorkRequired p last first.nTime

/-- `CheckProofOfWork`. -/
def checkProofOfWork (hash : Uint256) (nBits : Compact) : Bool :=
  let t := setCompact nBits
  if t.negative || t.value == 0 || t.overflow || decide (t.value > p.powLimit) then false
  else !decide (hash > t.value)

/-- `PermittedDifficultyTransition`.  An exception is `none`. -/
def permittedDifficultyTransition (height : ℤ) (oldBits newBits : Compact) : Option Bool := do
  if p.fPowAllowMinDifficultyBlocks then return true
  let interval := p.difficultyAdjustmentInterval
  if interval = 0 then none
  else if height.tmod interval = 0 then
    let observed := (setCompact newBits).value
    let largest ← scaleTarget p oldBits (p.nPowTargetTimespan * 4)
    -- round and then compare
    if (setCompact (getCompact largest)).value < observed then return false
    let smallest ← scaleTarget p oldBits (p.nPowTargetTimespan.tdiv 4)
    if (setCompact (getCompact smallest)).value > observed then return false
    return true
  else return decide (oldBits = newBits)

end KPCoin.Pow
