import KPCoin.Primitives.Transaction

/-!
# Compact targets

`arith_uint256` is `BitVec 256`: its operators are those of `BitVec`, and the conversions between
`uint256` and `arith_uint256` are the identity.  This module has the compact encoding of targets
(`arith_uint256.cpp`).
-/

namespace KPCoin.Pow

/-- `arith_uint256`. -/
abbrev Arith := BitVec 256

/-- The compact form of a target. -/
abbrev Compact := BitVec 32

/-- The three results of `SetCompact`. -/
structure Target where
  value : Arith
  negative : Bool
  overflow : Bool
  deriving DecidableEq, Repr

/-- `SetCompact`. -/
def setCompact (nCompact : Compact) : Target :=
  let nSize := (nCompact >>> 24).toNat
  let word := nCompact &&& 0x007fffff
  let nWord := if nSize ≤ 3 then word >>> (8 * (3 - nSize)) else word
  { value :=
      if nSize ≤ 3 then nWord.setWidth 256 else nWord.setWidth 256 <<< (8 * (nSize - 3))
    negative := nWord != 0 && nCompact &&& 0x00800000 != 0
    overflow := nWord != 0 && (decide (nSize > 34) || decide (nWord.toNat > 0xff ∧ nSize > 33) ||
      decide (nWord.toNat > 0xffff ∧ nSize > 32)) }

/-- `bits`: the position of the highest bit, counted from one. -/
def bits (x : Arith) : ℕ := if x = 0 then 0 else x.toNat.log2 + 1

/-- `GetCompact`, for a value without sign. -/
def getCompact (x : Arith) : Compact :=
  let nSize := (bits x + 7) / 8
  let nCompact : Compact :=
    if nSize ≤ 3 then x.setWidth 64 <<< (8 * (3 - nSize)) |>.setWidth 32
    else (x >>> (8 * (nSize - 3))).setWidth 32
  -- the bit 0x00800000 is the sign, so a mantissa that uses it moves one byte down
  if nCompact &&& 0x00800000 != 0 then (nCompact >>> 8) ||| (BitVec.ofNat 32 (nSize + 1) <<< 24)
  else nCompact ||| (BitVec.ofNat 32 nSize <<< 24)

end KPCoin.Pow
