import KPCoin.Consensus.Merkle
import KPCoin.Consensus.TxVerify
import KPCoin.Pow.Work

/-!
# Context-free block checks

`CheckBlockHeader`, `CheckMerkleRoot` and `CheckBlock` (`validation.cpp`).  `checkBlock_spec` says
what a block that passes looks like: one coinbase, in the first place, and transactions that pass
`CheckTransaction`.
-/

namespace KPCoin

open Program Consensus

/-- What validation is given: the parameters and the functions outside the tree. -/
structure Env where
  params : Params
  tx : TxFns
  header : HeaderFns
  /-- `GetSerializeSize(TX_NO_WITNESS(block))`. -/
  blockSerializeSize : Block → ℕ
  /-- `CheckSignetBlockSolution`. -/
  checkSignetBlockSolution : Block → Bool

namespace Validation

variable (E : Env)

/-- `CheckBlockHeader`. -/
def checkBlockHeader (block : BlockHeader) (fCheckPOW : Bool) : Except Stop Unit :=
  failIf (fCheckPOW && !Pow.checkProofOfWork E.params (E.header.getHash block) block.nBits)
    (.invalidBlock .invalidHeader "high-hash")

/-- `CheckMerkleRoot`. -/
def checkMerkleRoot (block : Block) : Except Stop Unit := do
  let (merkleRoot, mutated) := Consensus.blockMerkleRoot E.tx block.vtx
  failIf (block.hashMerkleRoot != merkleRoot) (.invalidBlock .mutated "bad-txnmrklroot")
  failIf mutated (.invalidBlock .mutated "bad-txns-duplicate")

/-- A failed transaction check is a failed block check with the same reason. -/
def asConsensus : Stop → Stop
  | .invalidTx _ reason => .invalidBlock .consensus reason
  | e => e

/-- The loop of `CheckBlock` over the transactions. -/
def checkTransactions : List Transaction → Except Stop Unit
  | [] => .ok ()
  | tx :: rest => do
    (checkTransaction E.tx tx).mapError asConsensus
    checkTransactions rest

/-- `CheckBlock`. -/
def checkBlock (block : Block) (fCheckPOW fCheckMerkleRoot : Bool) : Except Stop Unit := do
  checkBlockHeader E block.toBlockHeader fCheckPOW
  failIf (E.params.signetBlocks && fCheckPOW && !E.checkSignetBlockSolution block)
    (.invalidBlock .consensus "bad-signet-blksig")
  (if fCheckMerkleRoot then checkMerkleRoot E block else .ok ())
  failIf (block.vtx.isEmpty || block.vtx.length * witnessScaleFactor > maxBlockWeight ||
    E.blockSerializeSize block * witnessScaleFactor > maxBlockWeight)
    (.invalidBlock .consensus "bad-blk-length")
  failIf (!(block.vtx.head?.any E.tx.isCoinBase)) (.invalidBlock .consensus "bad-cb-missing")
  failIf (block.vtx.tail.any E.tx.isCoinBase) (.invalidBlock .consensus "bad-cb-multiple")
  checkTransactions E block.vtx
  failIf ((block.vtx.map (Consensus.getLegacySigOpCount E.tx)).sum * witnessScaleFactor >
    maxBlockSigopsCost) (.invalidBlock .consensus "bad-blk-sigops")

/-- What `CheckBlock` guarantees to `ConnectBlock`. -/
structure BlockChecked (block : Block) : Prop where
  coinbase_first : ∃ cb rest, block.vtx = cb :: rest ∧ E.tx.isCoinBase cb = true ∧
    ∀ tx ∈ rest, E.tx.isCoinBase tx = false
  checked : ∀ tx ∈ block.vtx, TxChecked tx

theorem checkTransactions_spec (vtx : List Transaction) :
    ensures (checkTransactions E vtx) (fun _ => ∀ tx ∈ vtx, TxChecked tx) (· ≠ .overflow) := by
  induction vtx with
  | nil => simp [checkTransactions]
  | cons tx rest ih =>
    have htx := Consensus.checkTransaction_spec E.tx tx
    rw [checkTransactions]
    cases hr : checkTransaction E.tx tx with
    | error e =>
      cases e <;> simp_all [Except.mapError, asConsensus]
    | ok u =>
      refine ih.mono (fun _ hrest => ?_) fun _ => id
      simpa using ⟨htx.ok hr, hrest⟩

/-- `CheckBlock` guarantees `BlockChecked`, and no sum overflows. -/
theorem checkBlock_spec (block : Block) (pow merkle : Bool) :
    ensures (checkBlock E block pow merkle) (fun _ => BlockChecked E block) (· ≠ .overflow) := by
  have hmerkle : ensures (if merkle then checkMerkleRoot E block else .ok ()) (fun _ => True)
      (· ≠ .overflow) := by
    split_ifs <;> simp [checkMerkleRoot]
  simp only [checkBlock, checkBlockHeader, Program.ensures_bind, Program.ensures_failIf]
  refine ⟨by simp, fun _ => ⟨by simp, fun _ => hmerkle.mono (fun _ _ => ?_) fun _ => id⟩⟩
  refine ⟨by simp, fun hlen => ⟨by simp, fun hcb => ⟨by simp, fun hrest => ?_⟩⟩⟩
  refine (checkTransactions_spec E block.vtx).mono (fun _ htx => ⟨by simp, fun _ => ⟨?_, htx⟩⟩)
    fun _ => id
  cases hv : block.vtx with
  | nil => simp [hv] at hlen
  | cons cb rest =>
    refine ⟨cb, rest, rfl, by simpa [hv] using hcb, ?_⟩
    simpa [hv] using hrest

end Validation

end KPCoin
