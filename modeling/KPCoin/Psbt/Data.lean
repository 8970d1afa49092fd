import KPCoin.Consensus.External
import KPCoin.Data.FirstCome

/-!
# Partially signed transactions

The structures of `psbt.h` and the key-value pairs that their `Serialize` writes.

* `PSBTInput`, `PSBTOutput` and `PSBT` (`PartiallySignedTransaction`) have the fields of the source;
  a PSBT carries that it has one map for every input and every output of its transaction;
* `InPair`, `OutPair` and `GlobalPair` are the pairs of the three kinds of maps, with the data of
  key and value before they are turned into bytes; `key` is the key of a pair;
* `pairs` lists the pairs that `Serialize` writes, and `mem_pairs` says which fields they come from.

The public key hash `CPubKey::GetID` is a parameter: the key of a partial signature in memory is the
hash of the public key that is the key of the pair.
-/

namespace KPCoin

open List

abbrev Bytes := List UInt8

/-- `uint160`. -/
abbrev Uint160 := BitVec 160

/-- `XOnlyPubKey`. -/
abbrev XOnlyPubKey := Uint256

/-- The bytes of a `CPubKey`. -/
abbrev PubKey := Bytes

/-- `KeyOriginInfo`. -/
structure KeyOriginInfo where
  fingerprint : BitVec 32
  path : List (BitVec 32)
  deriving DecidableEq, Repr

/-- `CExtPubKey`. -/
structure ExtPubKey where
  version : BitVec 32
  nDepth : UInt8
  vchFingerprint : BitVec 32
  nChild : BitVec 32
  chaincode : Uint256
  pubkey : PubKey
  deriving DecidableEq, Repr

/-- What `operator<` of `CExtPubKey` compares. -/
def ExtPubKey.order (x : ExtPubKey) : PubKey × Uint256 := (x.pubkey, x.chaincode)

/-- `PSBTProprietary`.  The order compares `key`. -/
structure PSBTProprietary where
  subtype : ℕ
  identifier : Bytes
  key : Bytes
  value : Bytes
  deriving DecidableEq, Repr

/-- What `TX_NO_WITNESS` writes of a transaction. -/
def Transaction.noWitness (tx : Transaction) : Transaction :=
  { tx with vin := tx.vin.map fun t => { t with scriptWitness := [] } }

section Maps

variable (getID : PubKey → Uint160)

/-- What `std::map<CKeyID, SigPair>` compares: the signatures are stored under the hash of their
public key. -/
def sigPairID (sp : PubKey × Bytes) : Uint160 := getID sp.1

/-- `PSBTInput`.  The version of a leaf is an `int` that comes from one byte. -/
structure PSBTInput where
  nonWitnessUtxo : Option Transaction := none
  witnessUtxo : TxOut := TxOut.null
  redeemScript : Script := []
  witnessScript : Script := []
  finalScriptSig : Script := []
  finalScriptWitness : List Script := []
  hdKeypaths : Map PubKey KeyOriginInfo := ∅
  partialSigs : KeyedSet (sigPairID getID) := .empty _
  ripemd160Preimages : Map Uint160 Bytes := ∅
  sha256Preimages : Map Uint256 Bytes := ∅
  hash160Preimages : Map Uint160 Bytes := ∅
  hash256Preimages : Map Uint256 Bytes := ∅
  tapKeySig : Bytes := []
  tapScriptSigs : Map (XOnlyPubKey × Uint256) Bytes := ∅
  tapScripts : Map (Bytes × UInt8) (KeyedSet (id : Bytes → Bytes)) := ∅
  tapBip32Paths : Map XOnlyPubKey (Finset Uint256 × KeyOriginInfo) := ∅
  tapInternalKey : XOnlyPubKey := 0
  tapMerkleRoot : Uint256 := 0
  unknown : Map Bytes Bytes := ∅
  proprietary : KeyedSet PSBTProprietary.key := .empty _
  sighashType : Option ℤ := none

/-- `PSBTOutput`. -/
structure PSBTOutput where
  redeemScript : Script := []
  witnessScript : Script := []
  hdKeypaths : Map PubKey KeyOriginInfo := ∅
  tapInternalKey : XOnlyPubKey := 0
  tapTree : List (UInt8 × UInt8 × Bytes) := []
  tapBip32Paths : Map XOnlyPubKey (Finset Uint256 × KeyOriginInfo) := ∅
  unknown : Map Bytes Bytes := ∅
  proprietary : KeyedSet PSBTProprietary.key := .empty _

/-- `PartiallySignedTransaction`, with the transaction that every PSBT that has been read or built
for one has. -/
structure PSBT where
  tx : Transaction
  xpubs : Map KeyOriginInfo (KeyedSet ExtPubKey.order) := ∅
  inputs : List (PSBTInput getID)
  outputs : List PSBTOutput
  unknown : Map Bytes Bytes := ∅
  version : Option (BitVec 32) := none
  proprietary : KeyedSet PSBTProprietary.key := .empty _
  inputs_length : inputs.length = tx.vin.length
  outputs_length : outputs.length = tx.vout.length

end Maps

variable {getID : PubKey → Uint160}

/-- `PartiallySignedTransaction::GetVersion`. -/
def PSBT.getVersion (p : PSBT getID) : BitVec 32 := p.version.getD 0

/-- The input carries a final script or witness. -/
def PSBTInput.isFinal (i : PSBTInput getID) : Bool :=
  !(i.finalScriptSig.isEmpty && i.finalScriptWitness.isEmpty)

/-- The pairs of an input map. -/
inductive InPair where
  | nonWitnessUtxo (tx : Transaction)
  | witnessUtxo (out : TxOut)
  | partialSig (pubkey : PubKey) (sig : Bytes)
  | sighash (type : ℤ)
  | redeemScript (script : Script)
  | witnessScript (script : Script)
  | bip32Derivation (pubkey : PubKey) (origin : KeyOriginInfo)
  | ripemd160 (hash : Uint160) (preimage : Bytes)
  | sha256 (hash : Uint256) (preimage : Bytes)
  | hash160 (hash : Uint160) (preimage : Bytes)
  | hash256 (hash : Uint256) (preimage : Bytes)
  | tapKeySig (sig : Bytes)
  | tapScriptSig (pubkey : XOnlyPubKey) (leafHash : Uint256) (sig : Bytes)
  | tapLeafScript (controlBlock script : Bytes) (leafVer : UInt8)
  | tapBip32Derivation (pubkey : XOnlyPubKey) (leafHashes : Finset Uint256) (origin : KeyOriginInfo)
  | tapInternalKey (pubkey : XOnlyPubKey)
  | tapMerkleRoot (root : Uint256)
  | scriptSig (script : Script)
  | scriptWitness (stack : List Script)
  | proprietary (key value : Bytes)
  | unknown (key value : Bytes)
  deriving DecidableEq

/-- The keys of an input map. -/
inductive InKey where
  | nonWitnessUtxo
  | witnessUtxo
  | partialSig (pubkey : PubKey)
  | sighash
  | redeemScript
  | witnessScript
  | bip32Derivation (pubkey : PubKey)
  | ripemd160 (hash : Uint160)
  | sha256 (hash : Uint256)
  | hash160 (hash : Uint160)
  | hash256 (hash : Uint256)
  | tapKeySig
  | tapScriptSig (pubkey : XOnlyPubKey) (leafHash : Uint256)
  | tapLeafScript (controlBlock : Bytes)
  | tapBip32Derivation (pubkey : XOnlyPubKey)
  | tapInternalKey
  | tapMerkleRoot
  | scriptSig
  | scriptWitness
  | proprietary (key : Bytes)
  | unknown (key : Bytes)
  deriving DecidableEq

def InPair.key : InPair → InKey
  | .nonWitnessUtxo _ => .nonWitnessUtxo
  | .witnessUtxo _ => .witnessUtxo
  | .partialSig pubkey _ => .partialSig pubkey
  | .sighash _ => .sighash
  | .redeemScript _ => .redeemScript
  | .witnessScript _ => .witnessScript
  | .bip32Derivation pubkey _ => .bip32Derivation pubkey
  | .ripemd160 hash _ => .ripemd160 hash
  | .sha256 hash _ => .sha256 hash
  | .hash160 hash _ => .hash160 hash
  | .hash256 hash _ => .hash256 hash
  | .tapKeySig _ => .tapKeySig
  | .tapScriptSig pubkey leafHash _ => .tapScriptSig pubkey leafHash
  | .tapLeafScript controlBlock _ _ => .tapLeafScript controlBlock
  | .tapBip32Derivation pubkey _ _ => .tapBip32Derivation pubkey
  | .tapInternalKey _ => .tapInternalKey
  | .tapMerkleRoot _ => .tapMerkleRoot
  | .scriptSig _ => .scriptSig
  | .scriptWitness _ => .scriptWitness
  | .proprietary key _ => .proprietary key
  | .unknown key _ => .unknown key

/-- The pairs of an output map. -/
inductive OutPair where
  | redeemScript (script : Script)
  | witnessScript (script : Script)
  | bip32Derivation (pubkey : PubKey) (origin : KeyOriginInfo)
  | proprietary (key value : Bytes)
  | tapInternalKey (pubkey : XOnlyPubKey)
  | tapTree (tree : List (UInt8 × UInt8 × Bytes))
  | tapBip32Derivation (pubkey : XOnlyPubKey) (leafHashes : Finset Uint256) (origin : KeyOriginInfo)
  | unknown (key value : Bytes)
  deriving DecidableEq

/-- The keys of an output map. -/
inductive OutKey where
  | redeemScript
  | witnessScript
  | bip32Derivation (pubkey : PubKey)
  | proprietary (key : Bytes)
  | tapInternalKey
  | tapTree
  | tapBip32Derivation (pubkey : XOnlyPubKey)
  | unknown (key : Bytes)
  deriving DecidableEq

def OutPair.key : OutPair → OutKey
  | .redeemScript _ => .redeemScript
  | .witnessScript _ => .witnessScript
  | .bip32Derivation pubkey _ => .bip32Derivation pubkey
  | .proprietary key _ => .proprietary key
  | .tapInternalKey _ => .tapInternalKey
  | .tapTree _ => .tapTree
  | .tapBip32Derivation pubkey _ _ => .tapBip32Derivation pubkey
  | .unknown key _ => .unknown key

/-- The pairs of the global map. -/
inductive GlobalPair where
  | unsignedTx (tx : Transaction)
  | xpub (x : ExtPubKey) (origin : KeyOriginInfo)
  | version (version : BitVec 32)
  | proprietary (key value : Bytes)
  | unknown (key value : Bytes)
  deriving DecidableEq

/-- The keys of the global map. -/
inductive GlobalKey where
  | unsignedTx
  | xpub (x : ExtPubKey)
  | version
  | proprietary (key : Bytes)
  | unknown (key : Bytes)
  deriving DecidableEq

def GlobalPair.key : GlobalPair → GlobalKey
  | .unsignedTx _ => .unsignedTx
  | .xpub x _ => .xpub x
  | .version _ => .version
  | .proprietary key _ => .proprietary key
  | .unknown key _ => .unknown key

/-- One pair for every entry of a map. -/
def mapPairs {α β π : Type*} (f : α → β → π) (m : Map α β) : List π :=
  m.entries.map fun e => f e.1 e.2

/-- One pair for every element of the sets in a map. -/
def setPairs {α β κ π : Type*} [DecidableEq κ] {key : β → κ} (f : α → β → π)
    (m : Map α (KeyedSet key)) : List π :=
  m.entries.flatMap fun e => e.2.elems.map (f e.1)

/-- One pair for a field that is not null. -/
def fieldPair {π : Type*} (isNull : Bool) (x : π) : List π := if isNull then [] else [x]

/-- `PSBTInput::Serialize`. -/
def PSBTInput.pairs (i : PSBTInput getID) : List InPair := List.flatten [
  (i.nonWitnessUtxo.map fun tx => .nonWitnessUtxo tx.noWitness).toList,
  fieldPair i.witnessUtxo.isNull (.witnessUtxo i.witnessUtxo),
  if i.isFinal then [] else List.flatten [
    i.partialSigs.elems.map fun sp => .partialSig sp.1 sp.2,
    (i.sighashType.map .sighash).toList,
    fieldPair i.redeemScript.isEmpty (.redeemScript i.redeemScript),
    fieldPair i.witnessScript.isEmpty (.witnessScript i.witnessScript),
    mapPairs .bip32Derivation i.hdKeypaths,
    mapPairs .ripemd160 i.ripemd160Preimages,
    mapPairs .sha256 i.sha256Preimages,
    mapPairs .hash160 i.hash160Preimages,
    mapPairs .hash256 i.hash256Preimages,
    fieldPair i.tapKeySig.isEmpty (.tapKeySig i.tapKeySig),
    mapPairs (fun k sig => .tapScriptSig k.1 k.2 sig) i.tapScriptSigs,
    setPairs (fun leaf controlBlock => .tapLeafScript controlBlock leaf.1 leaf.2) i.tapScripts,
    mapPairs (fun k v => .tapBip32Derivation k v.1 v.2) i.tapBip32Paths,
    fieldPair (i.tapInternalKey == 0) (.tapInternalKey i.tapInternalKey),
    fieldPair (i.tapMerkleRoot == 0) (.tapMerkleRoot i.tapMerkleRoot)],
  fieldPair i.finalScriptSig.isEmpty (.scriptSig i.finalScriptSig),
  fieldPair i.finalScriptWitness.isEmpty (.scriptWitness i.finalScriptWitness),
  i.proprietary.elems.map fun e => .proprietary e.key e.value,
  mapPairs .unknown i.unknown]

/-- `PSBTOutput::Serialize`. -/
def PSBTOutput.pairs (o : PSBTOutput) : List OutPair := List.flatten [
  fieldPair o.redeemScript.isEmpty (.redeemScript o.redeemScript),
  fieldPair o.witnessScript.isEmpty (.witnessScript o.witnessScript),
  mapPairs .bip32Derivation o.hdKeypaths,
  o.proprietary.elems.map fun e => .proprietary e.key e.value,
  fieldPair (o.tapInternalKey == 0) (.tapInternalKey o.tapInternalKey),
  fieldPair o.tapTree.isEmpty (.tapTree o.tapTree),
  mapPairs (fun k v => .tapBip32Derivation k v.1 v.2) o.tapBip32Paths,
  mapPairs .unknown o.unknown]

/-- The global map in `PartiallySignedTransaction::Serialize`. -/
def PSBT.globalPairs (p : PSBT getID) : List GlobalPair := List.flatten [
  [.unsignedTx p.tx.noWitness],
  setPairs (fun origin x => .xpub x origin) p.xpubs,
  fieldPair (p.getVersion == 0) (.version p.getVersion),
  p.proprietary.elems.map fun e => .proprietary e.key e.value,
  mapPairs .unknown p.unknown]

/-- The pairs of an input that is not final, field by field. -/
def PSBTInput.Holds (i : PSBTInput getID) : InPair → Prop
  | .nonWitnessUtxo tx => ∃ tx' ∈ i.nonWitnessUtxo, tx'.noWitness = tx
  | .witnessUtxo out => i.witnessUtxo.isNull = false ∧ i.witnessUtxo = out
  | .partialSig pubkey sig => (pubkey, sig) ∈ i.partialSigs
  | .sighash type => i.sighashType = some type
  | .redeemScript script => i.redeemScript.isEmpty = false ∧ i.redeemScript = script
  | .witnessScript script => i.witnessScript.isEmpty = false ∧ i.witnessScript = script
  | .bip32Derivation pubkey origin => i.hdKeypaths.lookup pubkey = some origin
  | .ripemd160 hash preimage => i.ripemd160Preimages.lookup hash = some preimage
  | .sha256 hash preimage => i.sha256Preimages.lookup hash = some preimage
  | .hash160 hash preimage => i.hash160Preimages.lookup hash = some preimage
  | .hash256 hash preimage => i.hash256Preimages.lookup hash = some preimage
  | .tapKeySig sig => i.tapKeySig.isEmpty = false ∧ i.tapKeySig = sig
  | .tapScriptSig pubkey leafHash sig => i.tapScriptSigs.lookup (pubkey, leafHash) = some sig
  | .tapLeafScript controlBlock script leafVer =>
    ∃ cbs, i.tapScripts.lookup (script, leafVer) = some cbs ∧ controlBlock ∈ cbs
  | .tapBip32Derivation pubkey leafHashes origin =>
    i.tapBip32Paths.lookup pubkey = some (leafHashes, origin)
  | .tapInternalKey pubkey => (i.tapInternalKey == 0) = false ∧ i.tapInternalKey = pubkey
  | .tapMerkleRoot root => (i.tapMerkleRoot == 0) = false ∧ i.tapMerkleRoot = root
  | .scriptSig _ => False
  | .scriptWitness _ => False
  | .proprietary key value => ∃ e ∈ i.proprietary, e.key = key ∧ e.value = value
  | .unknown key value => i.unknown.lookup key = some value

/-- The pairs of an output, field by field. -/
def PSBTOutput.Holds (o : PSBTOutput) : OutPair → Prop
  | .redeemScript script => o.redeemScript.isEmpty = false ∧ o.redeemScript = script
  | .witnessScript script => o.witnessScript.isEmpty = false ∧ o.witnessScript = script
  | .bip32Derivation pubkey origin => o.hdKeypaths.lookup pubkey = some origin
  | .proprietary key value => ∃ e ∈ o.proprietary, e.key = key ∧ e.value = value
  | .tapInternalKey pubkey => (o.tapInternalKey == 0) = false ∧ o.tapInternalKey = pubkey
  | .tapTree tree => o.tapTree.isEmpty = false ∧ o.tapTree = tree
  | .tapBip32Derivation pubkey leafHashes origin =>
    o.tapBip32Paths.lookup pubkey = some (leafHashes, origin)
  | .unknown key value => o.unknown.lookup key = some value

/-- The pairs of the global map, field by field. -/
def PSBT.HoldsGlobal (p : PSBT getID) : GlobalPair → Prop
  | .unsignedTx tx => tx = p.tx.noWitness
  | .xpub x origin => ∃ s, p.xpubs.lookup origin = some s ∧ x ∈ s
  | .version version => (p.getVersion == 0) = false ∧ p.getVersion = version
  | .proprietary key value => ∃ e ∈ p.proprietary, e.key = key ∧ e.value = value
  | .unknown key value => p.unknown.lookup key = some value

theorem mem_mapPairs {α β π : Type*} [DecidableEq α] {f : α → β → π} {m : Map α β} {x : π} :
    x ∈ mapPairs f m ↔ ∃ k v, m.lookup k = some v ∧ f k v = x := by
  simp only [mapPairs, mem_map, Map.lookup_eq_some_iff]
  constructor
  · rintro ⟨⟨k, v⟩, he, rfl⟩
    exact ⟨k, v, he, rfl⟩
  · rintro ⟨k, v, he, rfl⟩
    exact ⟨⟨k, v⟩, he, rfl⟩

theorem mem_setPairs {α β κ π : Type*} [DecidableEq α] [DecidableEq κ] {key : β → κ}
    {f : α → β → π} {m : Map α (KeyedSet key)} {x : π} :
    x ∈ setPairs f m ↔ ∃ k s, m.lookup k = some s ∧ ∃ b ∈ s, f k b = x := by
  simp only [setPairs, mem_flatMap, mem_map, KeyedSet.mem_elems, Map.lookup_eq_some_iff]
  constructor
  · rintro ⟨⟨k, s⟩, he, b, hb, rfl⟩
    exact ⟨k, s, he, b, hb, rfl⟩
  · rintro ⟨k, s, he, b, hb, rfl⟩
    exact ⟨⟨k, s⟩, he, b, hb, rfl⟩

theorem mem_fieldPair {π : Type*} {isNull : Bool} {x y : π} :
    y ∈ fieldPair isNull x ↔ isNull = false ∧ x = y := by
  cases isNull <;> simp [fieldPair, eq_comm]

theorem PSBTInput.mem_pairs {i : PSBTInput getID} (hi : i.isFinal = false) (x : InPair) :
    x ∈ i.pairs ↔ i.Holds x := by
  have hfinal : i.finalScriptSig = [] ∧ i.finalScriptWitness = [] := by
    simpa [isFinal] using hi
  simp only [pairs, hi, Bool.false_eq_true, if_false, flatten_cons, mem_append, mem_mapPairs,
    mem_setPairs, mem_fieldPair, mem_map, KeyedSet.mem_elems, hfinal]
  cases x <;> simp [Holds]

theorem PSBTOutput.mem_pairs (o : PSBTOutput) (x : OutPair) : x ∈ o.pairs ↔ o.Holds x := by
  simp only [pairs, flatten_cons, mem_append, mem_mapPairs, mem_fieldPair, mem_map,
    KeyedSet.mem_elems]
  cases x <;> simp [Holds]

theorem PSBT.mem_globalPairs (p : PSBT getID) (x : GlobalPair) :
    x ∈ p.globalPairs ↔ p.HoldsGlobal x := by
  simp only [globalPairs, flatten_cons, mem_append, mem_mapPairs, mem_setPairs,
    mem_fieldPair, mem_map, KeyedSet.mem_elems]
  cases x <;> simp [HoldsGlobal]

end KPCoin
