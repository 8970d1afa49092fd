import KPCoin.Psbt.Merge

/-!
# Combining PSBTs

`CombinePSBTs` copies the first PSBT of a list and merges the others into it.  For PSBTs over one
transaction it always succeeds, and an item of the result is one of the list for which all the PSBTs
before it were open (`PSBT.firstCome`).

* `Covered l` says that `Merge` has nothing to lose: the pairs it does not look at (the sighash
  types, the version and everything proprietary) are the same in all PSBTs of the list, PSBTs that
  have a leaf script have the same control blocks for it, no two public keys share a hash, and no
  two extended keys of one origin differ only in what their order ignores.
* `combinePSBTs_union_iff` shows that this is exactly when the result is the union of the list in
  every order.
-/

namespace KPCoin

open List Option KeyedSet PSBTInput

variable {getID : PubKey → Uint160}

/-- A pair of one of the maps. -/
inductive PsbtPair where
  | global (x : GlobalPair)
  | input (i : ℕ) (x : InPair)
  | output (i : ℕ) (x : OutPair)
  deriving DecidableEq

/-- A key of one of the maps. -/
inductive PsbtKey where
  | global (k : GlobalKey)
  | input (i : ℕ) (k : InKey)
  | output (i : ℕ) (k : OutKey)
  deriving DecidableEq

def PsbtPair.key : PsbtPair → PsbtKey
  | .global x => .global x.key
  | .input i x => .input i x.key
  | .output i x => .output i x.key

/-- The pair is written in its map. -/
def PSBT.Has (p : PSBT getID) : PsbtPair → Prop
  | .global x => x ∈ p.globalPairs
  | .input i x => ∃ a, p.inputs[i]? = some a ∧ x ∈ a.pairs
  | .output i x => ∃ a, p.outputs[i]? = some a ∧ x ∈ a.pairs

/-- The map of the pair is open for it. -/
def PSBT.Open (p : PSBT getID) : PsbtPair → Prop
  | .global x => p.OpenGlobal x
  | .input i x => ∀ a, p.inputs[i]? = some a → a.Open x
  | .output i x => ∀ a, p.outputs[i]? = some a → a.Open x

/-- The PSBT is over the transaction and no input of it is final. -/
def PSBT.Unsigned (tx : Transaction) (p : PSBT getID) : Prop :=
  p.tx = tx ∧ ∀ a ∈ p.inputs, a.isFinal = false

variable {tx : Transaction} {i : ℕ} {l : List (PSBT getID)}
  {p : PSBT getID} {x : OutPair} (T : TxFns)

theorem PSBT.Unsigned.has_input (hp : p.Unsigned tx)
    {x : InPair} : p.Has (.input i x) ↔ ∃ a, p.inputs[i]? = some a ∧ a.Holds x := by
  constructor
  · rintro ⟨a, ha, hx⟩
    exact ⟨a, ha, (mem_pairs (hp.2 a (mem_of_getElem? ha)) x).1 hx⟩
  · rintro ⟨a, ha, hx⟩
    exact ⟨a, ha, (mem_pairs (hp.2 a (mem_of_getElem? ha)) x).2 hx⟩

theorem PSBT.has_output : p.Has (.output i x) ↔ ∃ a, p.outputs[i]? = some a ∧ a.Holds x := by
  simp [Has, PSBTOutput.mem_pairs]

/-- Merging PSBTs over one transaction adds the pairs that there is room for. -/
theorem PSBT.firstCome (tx : Transaction) :
    FirstCome (fun p : PSBT getID => p.Unsigned tx) mergeMaps Has Open where
  merge_mem {a b} ha hb :=
    ⟨ha.1, PSBTInput.firstCome.mergeEach_mem
      (by rw [a.inputs_length, b.inputs_length, ha.1, hb.1]) ha.2 hb.2⟩
  has_merge {a b x} ha hb := by
    have hin : a.inputs.length = b.inputs.length := by
      rw [a.inputs_length, b.inputs_length, ha.1, hb.1]
    have hout : a.outputs.length = b.outputs.length := by
      rw [a.outputs_length, b.outputs_length, ha.1, hb.1]
    have hab : (a.mergeMaps b).Unsigned tx :=
      ⟨ha.1, PSBTInput.firstCome.mergeEach_mem hin ha.2 hb.2⟩
    cases x with
    | global x =>
      simp only [Has, mem_globalPairs]
      exact firstCome_global.has_merge trivial trivial
    | input i x =>
      simp only [hab.has_input, ha.has_input, hb.has_input]
      exact PSBTInput.firstCome.has_mergeEach hin ha.2 hb.2
    | output i x =>
      simp only [has_output]
      exact PSBTOutput.firstCome.has_mergeEach hout (fun _ _ => trivial) fun _ _ => trivial
  open_merge {a b x} ha hb := by
    cases x with
    | global x => exact firstCome_global.open_merge trivial trivial
    | input i x =>
      exact PSBTInput.firstCome.open_mergeEach
        (by rw [a.inputs_length, b.inputs_length, ha.1, hb.1]) ha.2 hb.2
    | output i x =>
      exact PSBTOutput.firstCome.open_mergeEach
        (by rw [a.outputs_length, b.outputs_length, ha.1, hb.1]) (fun _ _ => trivial)
        fun _ _ => trivial

/-- The `TransactionError`s of `CombinePSBTs`. -/
inductive TransactionError where
  | ok
  | psbtMismatch
  deriving DecidableEq, Repr

/-- The loop of `CombinePSBTs`. -/
def mergeAll (T : TxFns) : PSBT getID → List (PSBT getID) → TransactionError × PSBT getID
  | out, [] => (.ok, out)
  | out, p :: ps => match out.merge T p with
    | none => (.psbtMismatch, out)
    | some out => mergeAll T out ps

/-- `CombinePSBTs`, with the PSBT it leaves in `out`. -/
def combinePSBTs (T : TxFns) (psbtxs : List (PSBT getID)) (h : psbtxs ≠ []) :
    TransactionError × PSBT getID :=
  mergeAll T (psbtxs.head h) psbtxs.tail

theorem mergeAll_eq {out : PSBT getID} {ps : List (PSBT getID)} (hout : out.tx = tx)
    (hps : ∀ p ∈ ps, p.tx = tx) : mergeAll T out ps = (.ok, ps.foldl PSBT.mergeMaps out) := by
  induction ps generalizing out with
  | nil => rfl
  | cons p ps ih =>
    have hp : p.tx = tx := hps p mem_cons_self
    have hmerge : out.merge T p = some (out.mergeMaps p) := by
      rw [PSBT.merge, hout, hp]; exact if_neg fun h => h rfl
    simp only [mergeAll, hmerge, foldl_cons]
    exact ih hout fun q hq => hps q (mem_cons_of_mem p hq)

theorem combinePSBTs_ok (h : l ≠ []) (htx : ∀ p ∈ l, p.tx = tx) : (combinePSBTs T l h).1 = .ok := by
  rw [combinePSBTs, mergeAll_eq T (htx _ (head_mem h)) fun p hp => htx p (mem_of_mem_tail hp)]

/-- The pairs of the result are those that the PSBTs before left room for. -/
theorem combinePSBTs_has (h : l ≠ []) (hl : ∀ p ∈ l, p.Unsigned tx) (x : PsbtPair) :
    (combinePSBTs T l h).2.Has x ↔ Served PSBT.Has PSBT.Open l x := by
  have hhead := hl _ (head_mem h)
  have htail : ∀ p ∈ l.tail, p.Unsigned tx := fun p hp => hl p (mem_of_mem_tail hp)
  rw [combinePSBTs, mergeAll_eq T hhead.1 fun p hp => (htail p hp).1]
  rw [(PSBT.firstCome tx).has_foldl hhead htail, cons_head_tail]

/-- The pairs that `Merge` does not look at. -/
def PsbtPair.Unmerged : PsbtPair → Prop
  | .global (.version _) | .global (.proprietary _ _) => True
  | .input _ (.sighash _) | .input _ (.proprietary _ _) => True
  | .output _ (.proprietary _ _) => True
  | _ => False

/-- Whatever `Merge` drops is in all PSBTs of the list. -/
structure Covered (l : List (PSBT getID)) : Prop where
  /-- All have the same sighash types, versions and proprietary pairs. -/
  unmerged : ∀ p ∈ l, ∀ q ∈ l, ∀ x : PsbtPair, x.Unmerged → p.Has x → q.Has x
  /-- Those that have a leaf script have the same control blocks for it. -/
  leafScripts : ∀ p ∈ l, ∀ q ∈ l, ∀ (i : ℕ) (a b : PSBTInput getID), p.inputs[i]? = some a →
    q.inputs[i]? = some b → ∀ leaf s t, a.tapScripts.lookup leaf = some s →
      b.tapScripts.lookup leaf = some t → ∀ cb ∈ s, cb ∈ t
  /-- Signatures under one key hash are of one public key. -/
  partialSigs : ∀ p ∈ l, ∀ q ∈ l, ∀ (i : ℕ) (a b : PSBTInput getID), p.inputs[i]? = some a →
    q.inputs[i]? = some b → ∀ sp ∈ a.partialSigs, ∀ sq ∈ b.partialSigs,
      getID sp.1 = getID sq.1 → sp.1 = sq.1
  /-- Extended keys of one origin with the same public key and chain code are the same. -/
  xpubs : ∀ p ∈ l, ∀ q ∈ l, ∀ origin s t, p.xpubs.lookup origin = some s →
    q.xpubs.lookup origin = some t → ∀ x ∈ s, ∀ y ∈ t, x.order = y.order → x = y

/-- The pairs of an input that are merged under their own key. -/
def InPair.Keyed : InPair → Prop
  | .sighash _ | .proprietary _ _ | .partialSig _ _ | .tapLeafScript _ _ _ => False
  | _ => True

theorem none_or_exists {o : Option α} {P : β → Prop} (f : α → β) (h : ∀ v, o = some v → P (f v)) :
    o = none ∨ ∃ y, P y := by
  cases o with
  | none => exact .inl rfl
  | some v => exact .inr ⟨f v, h v rfl⟩

/-- An input that is not open for a pair has another one with the same key. -/
theorem PSBTInput.open_or_key (b : PSBTInput getID) {x : InPair} (hx : x.Keyed) :
    b.Open x ∨ ∃ y, b.Holds y ∧ y.key = x.key := by
  cases x with
  | sighash | proprietary | partialSig | tapLeafScript => exact hx.elim
  | scriptSig | scriptWitness => exact Or.inl trivial
  | nonWitnessUtxo =>
    obtain h | ⟨tx, h⟩ := b.nonWitnessUtxo.eq_none_or_eq_some
    · exact .inl (by simp [Open, h])
    · exact .inr ⟨.nonWitnessUtxo tx.noWitness, ⟨tx, h, rfl⟩, rfl⟩
  | witnessUtxo =>
    exact (Bool.eq_false_or_eq_true _).imp id fun h => ⟨.witnessUtxo _, ⟨h, rfl⟩, rfl⟩
  | redeemScript =>
    exact (Bool.eq_false_or_eq_true _).imp id fun h => ⟨.redeemScript _, ⟨h, rfl⟩, rfl⟩
  | witnessScript =>
    exact (Bool.eq_false_or_eq_true _).imp id fun h => ⟨.witnessScript _, ⟨h, rfl⟩, rfl⟩
  | tapKeySig =>
    exact (Bool.eq_false_or_eq_true _).imp id fun h => ⟨.tapKeySig _, ⟨h, rfl⟩, rfl⟩
  | tapInternalKey =>
    exact (Bool.eq_false_or_eq_true _).imp id fun h => ⟨.tapInternalKey _, ⟨h, rfl⟩, rfl⟩
  | tapMerkleRoot =>
    exact (Bool.eq_false_or_eq_true _).imp id fun h => ⟨.tapMerkleRoot _, ⟨h, rfl⟩, rfl⟩
  | bip32Derivation k => exact none_or_exists (.bip32Derivation k) fun _ h => ⟨h, rfl⟩
  | ripemd160 k => exact none_or_exists (.ripemd160 k) fun _ h => ⟨h, rfl⟩
  | sha256 k => exact none_or_exists (.sha256 k) fun _ h => ⟨h, rfl⟩
  | hash160 k => exact none_or_exists (.hash160 k) fun _ h => ⟨h, rfl⟩
  | hash256 k => exact none_or_exists (.hash256 k) fun _ h => ⟨h, rfl⟩
  | tapScriptSig k l => exact none_or_exists (.tapScriptSig k l) fun _ h => ⟨h, rfl⟩
  | tapBip32Derivation k =>
    exact none_or_exists (fun v => .tapBip32Derivation k v.1 v.2) fun _ h => ⟨h, rfl⟩
  | unknown k => exact none_or_exists (.unknown k) fun _ h => ⟨h, rfl⟩

theorem PSBTOutput.open_or_key (b : PSBTOutput) (hx : ∀ key value, x ≠ .proprietary key value) :
    b.Open x ∨ ∃ y, b.Holds y ∧ y.key = x.key := by
  cases x with
  | proprietary key value => exact (hx key value rfl).elim
  | redeemScript =>
    exact (Bool.eq_false_or_eq_true _).imp id fun h => ⟨.redeemScript _, ⟨h, rfl⟩, rfl⟩
  | witnessScript =>
    exact (Bool.eq_false_or_eq_true _).imp id fun h => ⟨.witnessScript _, ⟨h, rfl⟩, rfl⟩
  | tapInternalKey =>
    exact (Bool.eq_false_or_eq_true _).imp id fun h => ⟨.tapInternalKey _, ⟨h, rfl⟩, rfl⟩
  | tapTree =>
    exact (Bool.eq_false_or_eq_true _).imp id fun h => ⟨.tapTree _, ⟨h, rfl⟩, rfl⟩
  | bip32Derivation k => exact none_or_exists (.bip32Derivation k) fun _ h => ⟨h, rfl⟩
  | tapBip32Derivation k =>
    exact none_or_exists (fun v => .tapBip32Derivation k v.1 v.2) fun _ h => ⟨h, rfl⟩
  | unknown k => exact none_or_exists (.unknown k) fun _ h => ⟨h, rfl⟩

/-- Two PSBTs give every key that both have the same value. -/
def PSBT.Agree (p q : PSBT getID) : Prop :=
  ∀ x y : PsbtPair, p.Has x → q.Has y → x.key = y.key → x = y

section Covered

variable {q : PSBT getID}

theorem PSBT.Unsigned.exists_input (hp : p.Unsigned tx) (hq : q.Unsigned tx)
    {a : PSBTInput getID} (ha : p.inputs[i]? = some a) : ∃ b, q.inputs[i]? = some b := by
  have hi := (List.getElem?_eq_some_iff.1 ha).1
  rw [p.inputs_length, hp.1, ← hq.1, ← q.inputs_length] at hi
  exact ⟨q.inputs[i], getElem?_eq_getElem hi⟩

theorem PSBT.Unsigned.exists_output (hp : p.Unsigned tx) (hq : q.Unsigned tx)
    {a : PSBTOutput} (ha : p.outputs[i]? = some a) : ∃ b, q.outputs[i]? = some b := by
  have hi := (List.getElem?_eq_some_iff.1 ha).1
  rw [p.outputs_length, hp.1, ← hq.1, ← q.outputs_length] at hi
  exact ⟨q.outputs[i], getElem?_eq_getElem hi⟩

/-- Agreeing PSBTs of a covered list have room for each other's pairs. -/
theorem Covered.has_or_open (hc : Covered l) (hp : p ∈ l) (hq : q ∈ l) (hpu : p.Unsigned tx)
    (hqu : q.Unsigned tx) (hagree : p.Agree q) {x : PsbtPair} (hx : p.Has x) :
    q.Has x ∨ q.Open x := by
  -- a pair of `q` with the same key is the pair itself
  have hkey : ∀ y, q.Has y → y.key = x.key → q.Has x := fun y hy h =>
    (hagree x y hx hy h.symm) ▸ hy
  cases x with
  | global x =>
    cases x with
    | version | proprietary => exact Or.inl (hc.unmerged p hp q hq _ trivial hx)
    | unsignedTx t =>
      refine Or.inl (hkey (.global (.unsignedTx q.tx.noWitness)) ?_ rfl)
      exact (q.mem_globalPairs _).2 rfl
    | unknown k v =>
      rcases eq_none_or_eq_some (q.unknown.lookup k) with h | ⟨w, h⟩
      · exact Or.inr h
      · exact Or.inl (hkey (.global (.unknown k w)) ((q.mem_globalPairs _).2 h) rfl)
    | xpub x origin =>
      obtain ⟨s, hs, hxs⟩ := (p.mem_globalPairs _).1 hx
      by_cases ho : q.OpenGlobal (.xpub x origin)
      · exact Or.inr ho
      · obtain ⟨t, ht, hn⟩ : ∃ t, q.xpubs.lookup origin = some t ∧
            t.byKey.lookup x.order ≠ none := by
          simpa [PSBT.OpenGlobal] using ho
        obtain ⟨y, hy⟩ := ne_none_iff_exists'.1 hn
        have hyx := t.key_eq hy
        have hyt : y ∈ t := by rw [KeyedSet.mem_def, hyx, hy]
        obtain rfl := hc.xpubs p hp q hq origin s t hs ht x hxs y hyt hyx.symm
        exact Or.inl ((q.mem_globalPairs _).2 ⟨t, ht, hyt⟩)
  | input i x =>
    obtain ⟨a, ha, hax⟩ := hpu.has_input.1 hx
    obtain ⟨b, hb⟩ := hpu.exists_input hqu ha
    by_cases ho : b.Open x
    · refine Or.inr fun b' hb' => ?_
      rwa [← mem_unique hb hb']
    refine Or.inl ?_
    by_cases hk : x.Keyed
    · obtain ⟨y, hy, hyk⟩ := (b.open_or_key hk).resolve_left ho
      exact hkey (.input i y) (hqu.has_input.2 ⟨b, hb, hy⟩) (by rw [PsbtPair.key, hyk]; rfl)
    · cases x with
      | sighash | proprietary => exact hc.unmerged p hp q hq _ trivial hx
      | partialSig pubkey sig =>
        obtain ⟨sq, hsq⟩ := ne_none_iff_exists'.1 ho
        have hid := b.partialSigs.key_eq hsq
        have hmem : sq ∈ b.partialSigs := by rw [KeyedSet.mem_def, hid, hsq]
        have hpk : pubkey = sq.1 :=
          hc.partialSigs p hp q hq i a b ha hb (pubkey, sig) hax sq hmem hid.symm
        refine hkey (.input i (.partialSig sq.1 sq.2)) (hqu.has_input.2 ⟨b, hb, hmem⟩) ?_
        rw [hpk]; rfl
      | tapLeafScript cb script ver =>
        obtain ⟨s, hs, hcb⟩ := hax
        obtain ⟨t, ht⟩ := ne_none_iff_exists'.1 ho
        exact hqu.has_input.2
          ⟨b, hb, t, ht, hc.leafScripts p hp q hq i a b ha hb _ s t hs ht cb hcb⟩
      | _ => exact (hk trivial).elim
  | output i x =>
    by_cases ho : q.Open (.output i x)
    · exact Or.inr ho
    refine Or.inl ?_
    obtain ⟨b, hb, hbo⟩ : ∃ b, q.outputs[i]? = some b ∧ ¬ b.Open x := by
      simpa [PSBT.Open] using ho
    by_cases hprop : ∃ key value, x = .proprietary key value
    · obtain ⟨key, value, rfl⟩ := hprop
      exact hc.unmerged p hp q hq _ trivial hx
    · obtain ⟨y, hy, hyk⟩ :=
        (b.open_or_key fun key value h => hprop ⟨key, value, h⟩).resolve_left hbo
      exact hkey (.output i y) (PSBT.has_output.2 ⟨b, hb, hy⟩) (by rw [PsbtPair.key, hyk]; rfl)

/-- If every PSBT has room for what the others have, then nothing is dropped. -/
theorem covered_of_has_or_open (hl : ∀ p ∈ l, p.Unsigned tx)
    (h : ∀ p ∈ l, ∀ q ∈ l, ∀ x, p.Has x → q.Has x ∨ q.Open x) : Covered l where
  unmerged p hp q hq x hx hpx := by
    refine (h p hp q hq x hpx).resolve_right fun ho => ?_
    cases x with
    | global x => cases x <;> first | exact ho | exact hx
    | input i x =>
      obtain ⟨a, ha, -⟩ := hpx
      obtain ⟨b, hb⟩ := (hl p hp).exists_input (hl q hq) ha
      have hob := ho b hb
      cases x <;> first | exact hob | exact hx
    | output i x =>
      obtain ⟨a, ha, -⟩ := hpx
      obtain ⟨b, hb⟩ := (hl p hp).exists_output (hl q hq) ha
      have hob := ho b hb
      cases x <;> first | exact hob | exact hx
  leafScripts p hp q hq i a b ha hb leaf s t hs ht cb hcb := by
    have hx : p.Has (.input i (.tapLeafScript cb leaf.1 leaf.2)) :=
      (hl p hp).has_input.2 ⟨a, ha, s, hs, hcb⟩
    rcases h p hp q hq _ hx with hq' | ho
    · obtain ⟨b', hb', t', ht', hcb'⟩ := (hl q hq).has_input.1 hq'
      obtain rfl := mem_unique hb hb'
      obtain rfl := mem_unique ht ht'
      exact hcb'
    · have hn : b.tapScripts.lookup leaf = none := ho b hb
      rw [ht] at hn; cases hn
  partialSigs p hp q hq i a b ha hb sp hsp sq hsq hid := by
    have hx : p.Has (.input i (.partialSig sp.1 sp.2)) := (hl p hp).has_input.2 ⟨a, ha, hsp⟩
    rcases h p hp q hq _ hx with hq' | ho
    · obtain ⟨b', hb', hmem⟩ := (hl q hq).has_input.1 hq'
      obtain rfl := mem_unique hb hb'
      exact congrArg Prod.fst (eq_of_key_eq hmem hsq hid)
    · have hn : b.partialSigs.byKey.lookup (getID sp.1) = none := ho b hb
      rw [hid] at hn
      cases (KeyedSet.mem_def.1 hsq).symm.trans hn
  xpubs p hp q hq origin s t hs ht x hx y hy hxy := by
    have hpx : p.Has (.global (.xpub x origin)) := (p.mem_globalPairs _).2 ⟨s, hs, hx⟩
    rcases h p hp q hq _ hpx with hq' | ho
    · obtain ⟨t', ht', hxt⟩ := (q.mem_globalPairs _).1 hq'
      obtain rfl := mem_unique ht ht'
      exact eq_of_key_eq hxt hy hxy
    · have hn : t.byKey.lookup x.order = none := ho t ht
      rw [hxy] at hn
      cases (KeyedSet.mem_def.1 hy).symm.trans hn

end Covered

/-- **Combining PSBTs is the union of their maps exactly if nothing that `Merge` drops differs.**
For PSBTs over one transaction, not finalized and agreeing on the keys they share, `CombinePSBTs`
succeeds in every order of the list; its result has the pairs of all of them, in every order, if and
only if the list is `Covered`. -/
theorem combinePSBTs_union_iff (T : TxFns) (tx : Transaction) (l : List (PSBT getID))
    (htx : ∀ p ∈ l, p.tx = tx) (hfinal : ∀ p ∈ l, ∀ a ∈ p.inputs, a.isFinal = false)
    (hagree : ∀ p ∈ l, ∀ q ∈ l, p ≠ q → p.Agree q) :
    (∀ (l' : List (PSBT getID)) (h : l' ≠ []), l'.Perm l → (combinePSBTs T l' h).1 = .ok) ∧
      ((∀ (l' : List (PSBT getID)) (h : l' ≠ []), l'.Perm l →
          ∀ x, (combinePSBTs T l' h).2.Has x ↔ ∃ p ∈ l, p.Has x) ↔ Covered l) := by
  have hl : ∀ p ∈ l, p.Unsigned tx := fun p hp => ⟨htx p hp, hfinal p hp⟩
  refine ⟨fun l' h hperm => combinePSBTs_ok T h fun p hp => htx p (hperm.mem_iff.1 hp), ?_⟩
  have hserved : (∀ (l' : List (PSBT getID)) h, l'.Perm l →
      ∀ x, (combinePSBTs T l' h).2.Has x ↔ ∃ p ∈ l, p.Has x) ↔
      ∀ l', l'.Perm l → ∀ x, Served PSBT.Has PSBT.Open l' x ↔ ∃ p ∈ l, p.Has x := by
    constructor
    · intro h l' hperm x
      rcases eq_or_ne l' [] with rfl | hne
      · simp [Served, hperm.symm.eq_nil]
      · rw [← combinePSBTs_has T hne fun p hp => hl p (hperm.mem_iff.1 hp)]
        exact h l' hne hperm x
    · intro h l' hne hperm x
      rw [combinePSBTs_has T hne fun p hp => hl p (hperm.mem_iff.1 hp)]
      exact h l' hperm x
  rw [hserved, served_perm_iff]
  constructor
  · exact covered_of_has_or_open hl
  · intro hc p hp q hq x hx
    rcases eq_or_ne p q with rfl | hpq
    · exact Or.inl hx
    · exact hc.has_or_open hp hq (hl p hp) (hl q hq) (hagree p hp q hq hpq) hx

/-- A simple hash of public keys. -/
def lengthID (pubkey : PubKey) : Uint160 := BitVec.ofNat 160 pubkey.length

/-- A transaction with one input. -/
def oneInputTx : Transaction := { vin := [{ prevout := ⟨1, 0⟩ }], vout := [] }

/-- A PSBT with one input. -/
def oneInputPsbt (a : PSBTInput lengthID) : PSBT lengthID where
  tx := oneInputTx
  inputs := [a]
  outputs := []
  inputs_length := rfl
  outputs_length := rfl

theorem oneInputPsbt_has {x : PsbtPair} :
    (oneInputPsbt a).Has x ↔
      x = .global (.unsignedTx oneInputTx.noWitness) ∨ ∃ z ∈ a.pairs, x = .input 0 z := by
  cases x with
  | global x =>
    simp [PSBT.Has, PSBT.globalPairs, oneInputPsbt, setPairs, mapPairs, fieldPair, PSBT.getVersion,
      elems, empty]
  | input i x => cases i <;> simp [PSBT.Has, oneInputPsbt]
  | output i x => simp [PSBT.Has, oneInputPsbt]

theorem oneInputPsbt_agree {a b : PSBTInput lengthID}
    (h : ∀ x ∈ a.pairs, ∀ y ∈ b.pairs, x.key = y.key → x = y) :
    (oneInputPsbt a).Agree (oneInputPsbt b) := by
  intro x y hx hy hk
  rcases oneInputPsbt_has.1 hx with rfl | ⟨z, hz, rfl⟩ <;>
    rcases oneInputPsbt_has.1 hy with rfl | ⟨w, hw, rfl⟩
  · rfl
  · cases hk
  · cases hk
  · rw [h z hz w hw (PsbtKey.input.inj hk).2]

/-- One signer knows the redeem script … -/
def redeemInput : PSBTInput lengthID := { redeemScript := [0x51] }

/-- … the other one has signed. -/
def signedInput : PSBTInput lengthID := { partialSigs := .single _ ([2, 3], [0x30]) }

theorem pairs_redeemInput : redeemInput.pairs = [.redeemScript [0x51]] := by decide +kernel

theorem pairs_signedInput : signedInput.pairs = [.partialSig [2, 3] [0x30]] := by decide +kernel

theorem oneInputPsbt_open {z : InPair} (h : a.Open z) : (oneInputPsbt a).Open (.input 0 z) := by
  intro b hb
  obtain rfl : a = b := by simpa [oneInputPsbt] using hb
  exact h

theorem covered_two_signers : Covered [oneInputPsbt redeemInput, oneInputPsbt signedInput] := by
  refine @covered_of_has_or_open _ oneInputTx _ ?_ ?_
  · simp [PSBT.Unsigned, oneInputPsbt, isFinal, redeemInput, signedInput]
  · have hroom : ∀ a ∈ [redeemInput, signedInput], ∀ b ∈ [redeemInput, signedInput], ∀ z ∈ a.pairs,
        z ∈ b.pairs ∨ b.Open z := by
      simp only [forall_mem_cons, pairs_redeemInput, pairs_signedInput]
      simp [PSBTInput.Open, redeemInput, signedInput, empty]
    intro p hp q hq x hx
    obtain ⟨a, ha, rfl⟩ : ∃ a ∈ [redeemInput, signedInput], oneInputPsbt a = p := by
      simpa [eq_comm] using hp
    obtain ⟨b, hb, rfl⟩ : ∃ b ∈ [redeemInput, signedInput], oneInputPsbt b = q := by
      simpa [eq_comm] using hq
    rcases oneInputPsbt_has.1 hx with rfl | ⟨z, hz, rfl⟩
    · exact Or.inl (oneInputPsbt_has.2 (Or.inl rfl))
    · rcases hroom a ha b hb z hz with hzb | ho
      · exact Or.inl (oneInputPsbt_has.2 (Or.inr ⟨z, hzb, rfl⟩))
      · exact Or.inr (oneInputPsbt_open ho)

theorem combinePSBTs_two_signers :
    (combinePSBTs simpleTxFns [oneInputPsbt redeemInput, oneInputPsbt signedInput]
        (cons_ne_nil _ _)).1 = .ok ∧
      ∀ x, (combinePSBTs simpleTxFns [oneInputPsbt redeemInput, oneInputPsbt signedInput]
          (cons_ne_nil _ _)).2.Has x ↔
        ∃ p ∈ [oneInputPsbt redeemInput, oneInputPsbt signedInput], p.Has x := by
  have hagree : ∀ p ∈ [oneInputPsbt redeemInput, oneInputPsbt signedInput],
      ∀ q ∈ [oneInputPsbt redeemInput, oneInputPsbt signedInput], p ≠ q → p.Agree q := by
    intro p hp q hq _
    simp only [mem_cons, not_mem_nil, or_false] at hp hq
    rcases hp with rfl | rfl <;> rcases hq with rfl | rfl <;>
      exact oneInputPsbt_agree (by simp [pairs_redeemInput, pairs_signedInput, InPair.key])
  have h := combinePSBTs_union_iff simpleTxFns oneInputTx
    [oneInputPsbt redeemInput, oneInputPsbt signedInput] (by simp [oneInputPsbt])
    (by simp [oneInputPsbt, PSBTInput.isFinal, redeemInput, signedInput]) hagree
  exact ⟨h.1 _ _ (List.Perm.refl _), h.2.2 covered_two_signers _ _ (List.Perm.refl _)⟩

/-- A control block with an internal key, for a tree of one leaf. -/
def controlBlock (header : UInt8) : Bytes := header :: replicate 32 2

/-- One signer has a control block for a leaf script … -/
def firstLeafInput : PSBTInput lengthID :=
  { tapScripts := (∅ : Map _ _).insert ([0x51], 0xc0) (.single _ (controlBlock 0xc0)) }

/-- … the other one has another control block, a sighash type and a proprietary entry. -/
def secondLeafInput : PSBTInput lengthID :=
  { tapScripts := (∅ : Map _ _).insert ([0x51], 0xc0) (.single _ (controlBlock 0xc1))
    sighashType := some 1
    proprietary := .single _ ⟨0, [], [0xfc, 0, 0], [7]⟩ }

/-- The two agree on all keys they share, but after combining them what the second one has is gone.
-/
theorem combinePSBTs_loses :
    (oneInputPsbt firstLeafInput).Agree (oneInputPsbt secondLeafInput) ∧
      (combinePSBTs simpleTxFns [oneInputPsbt firstLeafInput, oneInputPsbt secondLeafInput]
        (cons_ne_nil _ _)).1 = .ok ∧
      ∀ z ∈ [InPair.sighash 1, .proprietary [0xfc, 0, 0] [7],
          .tapLeafScript (controlBlock 0xc1) [0x51] 0xc0],
        (oneInputPsbt secondLeafInput).Has (.input 0 z) ∧
          ¬ (combinePSBTs simpleTxFns [oneInputPsbt firstLeafInput, oneInputPsbt secondLeafInput]
            (cons_ne_nil _ _)).2.Has (.input 0 z) := by
  have hfirst : firstLeafInput.pairs = [.tapLeafScript (controlBlock 0xc0) [0x51] 0xc0] := by
    decide +kernel
  have hsecond : secondLeafInput.pairs = [.sighash 1,
      .tapLeafScript (controlBlock 0xc1) [0x51] 0xc0, .proprietary [0xfc, 0, 0] [7]] := by
    decide +kernel
  have hmerged : (firstLeafInput.merge secondLeafInput).pairs =
      [.tapLeafScript (controlBlock 0xc0) [0x51] 0xc0] := by
    decide +kernel
  have hresult :
      (combinePSBTs simpleTxFns [oneInputPsbt firstLeafInput, oneInputPsbt secondLeafInput]
      (cons_ne_nil _ _)).2.inputs = [firstLeafInput.merge secondLeafInput] := rfl
  refine ⟨oneInputPsbt_agree ?_, by decide +kernel, fun z hz => ⟨?_, ?_⟩⟩
  · simp [hfirst, hsecond, InPair.key, controlBlock]
  · refine oneInputPsbt_has.2 (Or.inr ⟨z, ?_, rfl⟩)
    rw [hsecond]
    simp only [mem_cons, not_mem_nil, or_false] at hz ⊢
    tauto
  · rintro ⟨a, ha, hza⟩
    rw [hresult] at ha
    rw [← some.inj ha, hmerged, mem_singleton] at hza
    subst hza
    simp [controlBlock] at hz

end KPCoin
