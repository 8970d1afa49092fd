import KPCoin.Psbt.Data

/-!
# Merging two PSBTs

`PSBTInput::Merge`, `PSBTOutput::Merge` and `PartiallySignedTransaction::Merge`, field by field.
Each rule keeps what is there, so that a map is *open* for a pair as long as the field that would
take it is free: a null field, a map without the key, a set without an element of the key.  A map is
never open for the pairs that `Merge` does not look at, and for a leaf script it is open only as
long as it has no control block of that leaf.

The result for one pair of maps is `firstCome` for each of the three kinds, and for whole PSBTs of
one transaction `PSBT.firstCome`.
-/

namespace KPCoin

open List KeyedSet

variable {getID : PubKey → Uint160}

/-- `if (a.IsNull() && !b.IsNull()) a = b;` -/
def keepOr {α : Type*} (isNull : α → Bool) (a b : α) : α :=
  if isNull a && !isNull b then b else a

/-- `PSBTInput::Merge`. -/
def PSBTInput.merge (a b : PSBTInput getID) : PSBTInput getID :=
  { a with
    nonWitnessUtxo := keepOr Option.isNone a.nonWitnessUtxo b.nonWitnessUtxo
    witnessUtxo := keepOr TxOut.isNull a.witnessUtxo b.witnessUtxo
    partialSigs := a.partialSigs.insertAll b.partialSigs
    ripemd160Preimages := a.ripemd160Preimages ∪ b.ripemd160Preimages
    sha256Preimages := a.sha256Preimages ∪ b.sha256Preimages
    hash160Preimages := a.hash160Preimages ∪ b.hash160Preimages
    hash256Preimages := a.hash256Preimages ∪ b.hash256Preimages
    hdKeypaths := a.hdKeypaths ∪ b.hdKeypaths
    unknown := a.unknown ∪ b.unknown
    tapScriptSigs := a.tapScriptSigs ∪ b.tapScriptSigs
    tapScripts := a.tapScripts ∪ b.tapScripts
    tapBip32Paths := a.tapBip32Paths ∪ b.tapBip32Paths
    redeemScript := keepOr isEmpty a.redeemScript b.redeemScript
    witnessScript := keepOr isEmpty a.witnessScript b.witnessScript
    finalScriptSig := keepOr isEmpty a.finalScriptSig b.finalScriptSig
    finalScriptWitness := keepOr isEmpty a.finalScriptWitness b.finalScriptWitness
    tapKeySig := keepOr isEmpty a.tapKeySig b.tapKeySig
    tapInternalKey := keepOr (· == 0) a.tapInternalKey b.tapInternalKey
    tapMerkleRoot := keepOr (· == 0) a.tapMerkleRoot b.tapMerkleRoot }

/-- `PSBTOutput::Merge`. -/
def PSBTOutput.merge (a b : PSBTOutput) : PSBTOutput :=
  { a with
    hdKeypaths := a.hdKeypaths ∪ b.hdKeypaths
    unknown := a.unknown ∪ b.unknown
    tapBip32Paths := a.tapBip32Paths ∪ b.tapBip32Paths
    redeemScript := keepOr isEmpty a.redeemScript b.redeemScript
    witnessScript := keepOr isEmpty a.witnessScript b.witnessScript
    tapInternalKey := keepOr (· == 0) a.tapInternalKey b.tapInternalKey
    tapTree := keepOr isEmpty a.tapTree b.tapTree }

/-- `PartiallySignedTransaction::Merge` after the transactions have been compared. -/
def PSBT.mergeMaps (a b : PSBT getID) : PSBT getID :=
  { a with
    inputs := mergeEach PSBTInput.merge a.inputs b.inputs
    outputs := mergeEach PSBTOutput.merge a.outputs b.outputs
    xpubs := a.xpubs.unionWith insertAll b.xpubs
    unknown := a.unknown ∪ b.unknown
    inputs_length := (length_mergeEach _ _ _).trans a.inputs_length
    outputs_length := (length_mergeEach _ _ _).trans a.outputs_length }

/-- `PartiallySignedTransaction::Merge`; `none` if it answers false. -/
def PSBT.merge (T : TxFns) (a b : PSBT getID) : Option (PSBT getID) :=
  if T.getHash a.tx ≠ T.getHash b.tx then none else some (a.mergeMaps b)

/-- The field that takes the pair is free. -/
def PSBTInput.Open (i : PSBTInput getID) : InPair → Prop
  | .nonWitnessUtxo _ => i.nonWitnessUtxo.isNone = true
  | .witnessUtxo _ => i.witnessUtxo.isNull = true
  | .partialSig pubkey _ => i.partialSigs.byKey.lookup (getID pubkey) = none
  | .sighash _ => False
  | .redeemScript _ => i.redeemScript.isEmpty = true
  | .witnessScript _ => i.witnessScript.isEmpty = true
  | .bip32Derivation pubkey _ => i.hdKeypaths.lookup pubkey = none
  | .ripemd160 hash _ => i.ripemd160Preimages.lookup hash = none
  | .sha256 hash _ => i.sha256Preimages.lookup hash = none
  | .hash160 hash _ => i.hash160Preimages.lookup hash = none
  | .hash256 hash _ => i.hash256Preimages.lookup hash = none
  | .tapKeySig _ => i.tapKeySig.isEmpty = true
  | .tapScriptSig pubkey leafHash _ => i.tapScriptSigs.lookup (pubkey, leafHash) = none
  | .tapLeafScript _ script leafVer => i.tapScripts.lookup (script, leafVer) = none
  | .tapBip32Derivation pubkey _ _ => i.tapBip32Paths.lookup pubkey = none
  | .tapInternalKey _ => (i.tapInternalKey == 0) = true
  | .tapMerkleRoot _ => (i.tapMerkleRoot == 0) = true
  | .scriptSig _ => True
  | .scriptWitness _ => True
  | .proprietary _ _ => False
  | .unknown key _ => i.unknown.lookup key = none

/-- The field that takes the pair is free. -/
def PSBTOutput.Open (o : PSBTOutput) : OutPair → Prop
  | .redeemScript _ => o.redeemScript.isEmpty = true
  | .witnessScript _ => o.witnessScript.isEmpty = true
  | .bip32Derivation pubkey _ => o.hdKeypaths.lookup pubkey = none
  | .proprietary _ _ => False
  | .tapInternalKey _ => (o.tapInternalKey == 0) = true
  | .tapTree _ => o.tapTree.isEmpty = true
  | .tapBip32Derivation pubkey _ _ => o.tapBip32Paths.lookup pubkey = none
  | .unknown key _ => o.unknown.lookup key = none

/-- The field that takes the pair is free. -/
def PSBT.OpenGlobal (p : PSBT getID) : GlobalPair → Prop
  | .unsignedTx _ => False
  | .xpub x origin => ∀ s, p.xpubs.lookup origin = some s → s.byKey.lookup x.order = none
  | .version _ => False
  | .proprietary _ _ => False
  | .unknown key _ => p.unknown.lookup key = none

section Rules

variable {α β κ : Type*} {k : α} {key : β → κ} {a b : Map α β} (isNull : α → Bool)

theorem keepOr_holds (P : α → Prop) (a b : α) :
    (isNull (keepOr isNull a b) = false ∧ P (keepOr isNull a b)) ↔
      (isNull a = false ∧ P a) ∨ (isNull b = false ∧ P b) ∧ isNull a = true := by
  cases ha : isNull a <;> cases hb : isNull b <;> simp [keepOr, ha, hb]

theorem keepOr_isNull (a b : α) :
    isNull (keepOr isNull a b) = true ↔ isNull a = true ∧ isNull b = true := by
  cases ha : isNull a <;> cases hb : isNull b <;> simp [keepOr, ha, hb]

theorem union_holds [DecidableEq α] {v : β} :
    (a ∪ b).lookup k = some v ↔ a.lookup k = some v ∨ b.lookup k = some v ∧ a.lookup k = none := by
  rw [Map.lookup_union, Option.or_eq_some_iff]
  tauto

theorem union_open [DecidableEq α] :
    (a ∪ b).lookup k = none ↔ a.lookup k = none ∧ b.lookup k = none := by
  rw [Map.lookup_union, Option.or_eq_none_iff]

/-- A map of sets merged with `map::insert`: only the keys that are missing are added, with their
whole set. -/
theorem union_holds_set [DecidableEq α] [DecidableEq κ] {a b : Map α (KeyedSet key)} {x : β} :
    (∃ s, (a ∪ b).lookup k = some s ∧ x ∈ s) ↔
      (∃ s, a.lookup k = some s ∧ x ∈ s) ∨
        (∃ s, b.lookup k = some s ∧ x ∈ s) ∧ a.lookup k = none := by
  simp only [union_holds]
  constructor
  · rintro ⟨s, hs | ⟨hs, hn⟩, hx⟩
    · exact Or.inl ⟨s, hs, hx⟩
    · exact Or.inr ⟨⟨s, hs, hx⟩, hn⟩
  · rintro (⟨s, hs, hx⟩ | ⟨⟨s, hs, hx⟩, hn⟩)
    · exact ⟨s, Or.inl hs, hx⟩
    · exact ⟨s, Or.inr ⟨hs, hn⟩, hx⟩

theorem unionWith_holds_set [DecidableEq α] [DecidableEq κ] {a b : Map α (KeyedSet key)} {x : β} :
    (∃ s, (a.unionWith insertAll b).lookup k = some s ∧ x ∈ s) ↔
      (∃ s, a.lookup k = some s ∧ x ∈ s) ∨
        (∃ s, b.lookup k = some s ∧ x ∈ s) ∧
          ∀ s, a.lookup k = some s → s.byKey.lookup (key x) = none := by
  rw [Map.lookup_unionWith]
  cases a.lookup k <;> cases b.lookup k <;> simp [Map.combine, mem_insertAll]

theorem unionWith_open_set [DecidableEq α] [DecidableEq κ] {a b : Map α (KeyedSet key)} {c : κ} :
    (∀ s, (a.unionWith insertAll b).lookup k = some s → s.byKey.lookup c = none) ↔
      (∀ s, a.lookup k = some s → s.byKey.lookup c = none) ∧
        ∀ s, b.lookup k = some s → s.byKey.lookup c = none := by
  rw [Map.lookup_unionWith]
  cases a.lookup k <;> cases b.lookup k <;>
    simp [Map.combine, lookup_insertAll_eq_none]

end Rules

theorem PSBTInput.merge_isFinal (a b : PSBTInput getID) :
    (a.merge b).isFinal = false ↔ a.isFinal = false ∧ b.isFinal = false := by
  have hs := keepOr_isNull isEmpty a.finalScriptSig b.finalScriptSig
  have hw := keepOr_isNull isEmpty a.finalScriptWitness b.finalScriptWitness
  simp only [isFinal, merge, Bool.not_eq_false', Bool.and_eq_true, hs, hw]
  tauto

theorem PSBTInput.firstCome :
    FirstCome (fun i : PSBTInput getID => i.isFinal = false) merge Holds Open where
  merge_mem ha hb := (merge_isFinal _ _).2 ⟨ha, hb⟩
  has_merge {a b x} _ _ := by
    cases x with
    | nonWitnessUtxo tx =>
      have h (o : Option Transaction) : (∃ tx' ∈ o, tx'.noWitness = tx) ↔
          o.isNone = false ∧ ∃ tx' ∈ o, tx'.noWitness = tx := by cases o <;> simp
      simp only [Holds, Open]
      rw [h, h a.nonWitnessUtxo, h b.nonWitnessUtxo]
      exact keepOr_holds Option.isNone (fun o => ∃ tx' : Transaction, tx' ∈ o ∧
        tx'.noWitness = tx) _ _
    | witnessUtxo out => exact keepOr_holds TxOut.isNull (· = out) _ _
    | redeemScript x | witnessScript x | tapKeySig x => exact keepOr_holds isEmpty (· = x) _ _
    | tapInternalKey x | tapMerkleRoot x => exact keepOr_holds (· == 0) (· = x) _ _
    | bip32Derivation | ripemd160 | sha256 | hash160 | hash256 | tapScriptSig | tapBip32Derivation
    | unknown => exact union_holds
    | partialSig => exact mem_insertAll
    | tapLeafScript => exact union_holds_set
    | sighash | proprietary | scriptSig | scriptWitness => simp [Holds, Open, merge]
  open_merge {a b x} _ _ := by
    cases x with
    | nonWitnessUtxo => exact keepOr_isNull Option.isNone _ _
    | witnessUtxo => exact keepOr_isNull TxOut.isNull _ _
    | redeemScript | witnessScript | tapKeySig => exact keepOr_isNull isEmpty _ _
    | tapInternalKey | tapMerkleRoot => exact keepOr_isNull (· == 0) _ _
    | bip32Derivation | ripemd160 | sha256 | hash160 | hash256 | tapScriptSig | tapBip32Derivation
    | tapLeafScript | unknown => exact union_open
    | partialSig => exact lookup_insertAll_eq_none
    | sighash | proprietary | scriptSig | scriptWitness => simp [Open]

theorem PSBTOutput.firstCome : FirstCome (fun _ : PSBTOutput => True) merge Holds Open where
  merge_mem _ _ := trivial
  has_merge {a b x} _ _ := by
    cases x with
    | redeemScript x | witnessScript x | tapTree x => exact keepOr_holds isEmpty (· = x) _ _
    | tapInternalKey x => exact keepOr_holds (· == 0) (· = x) _ _
    | bip32Derivation | tapBip32Derivation | unknown => exact union_holds
    | proprietary => simp [Holds, Open, merge]
  open_merge {a b x} _ _ := by
    cases x with
    | redeemScript | witnessScript | tapTree => exact keepOr_isNull isEmpty _ _
    | tapInternalKey => exact keepOr_isNull (· == 0) _ _
    | bip32Derivation | tapBip32Derivation | unknown => exact union_open
    | proprietary => simp [Open]

theorem PSBT.firstCome_global :
    FirstCome (fun _ : PSBT getID => True) mergeMaps HoldsGlobal OpenGlobal where
  merge_mem _ _ := trivial
  has_merge {a b x} _ _ := by
    cases x with
    | xpub => exact unionWith_holds_set
    | unknown => exact union_holds
    | unsignedTx | version | proprietary => simp [HoldsGlobal, OpenGlobal, mergeMaps, getVersion]
  open_merge {a b x} _ _ := by
    cases x with
    | xpub => exact unionWith_open_set
    | unknown => exact union_open
    | unsignedTx | version | proprietary => simp [OpenGlobal]

end KPCoin
