import KPCoin.Validation.Replay

/-!
# Recovery from an interrupted flush

`UtxoAt S p m` : the coins `m` are those that the chain ending in `p` leaves unspent, with the
blocks and the undo data of the block files `S`.

A flush from the old tip to the new one is stopped after some of its writes, and so is, any number
of times, the flush at the end of a replay (`crashes`).  All that is known of the database then is
that each of its entries is that of the old or of the new tip.  Replaying carries this mixture along
with the coins of the old tip, by the same writes (`Tracks`): back to the fork (`wp_rollback`) and
forward to the new tip (`wp_rollforward`), where they have become equal.

* `replay_recovers` : replaying always ends with the coins of the new tip.
-/

namespace KPCoin.Validation

open List Option Program Function Coins Ledger Overwrite
open Chain (BlockIndex Branch SkipTree PointerFault)

namespace BlockStore

/-- The coins that the chain up to a tip leaves unspent.  The outputs of the genesis block are not
among them. -/
inductive UtxoAt (S : BlockStore) : Option ℕ → CoinMap → Prop
  | none : UtxoAt S none fun _ => none
  | genesis {p : ℕ} : p < S.tree.length → S.tree.pprevOf p = Option.none →
      UtxoAt S (some p) fun _ => Option.none
  | block {p q : ℕ} {m m' : CoinMap} {block : Block} {undo : List (List Coin)} :
      S.tree.pprevOf p = some q → UtxoAt S (some q) m → S.Connected p m m' block undo →
      UtxoAt S (some p) m'

/-- The hash by which the database names a tip. -/
def tipHash (S : BlockStore) (tip : Option ℕ) : Uint256 := tip.elim 0 fun p => (S.index p).hash

/-- The flush of the cache `c` into `d` is stopped after some of its writes, which leaves `d'`. -/
def Stopped (d : CoinsDB) (c : Cache) (d' : CoinsDB) : Prop :=
  ∃ l, l.Subperm c.cacheCoins.entries ∧ interrupted d l c.hashBlock = .ok d'

/-- The databases that a flush from the old tip to the new one and then the flushes of replays
leave, each of them stopped on the way. -/
def crashes (S : BlockStore) (old : Option ℕ) (new : ℕ) (mOld mNew : CoinMap) :
    LTS CoinsDB Unit where
  init d' := ∃ d c, d.visible = mOld ∧ d.bestBlock = S.tipHash old ∧ d.headBlocks = [] ∧
    c.Coherent d.visible ∧ c.over d.visible = mNew ∧ c.hashBlock = (S.index new).hash ∧
    Stopped d c d'
  step d _ d' := ∃ hashNew hashOld v, d.headBlocks = [hashNew, hashOld] ∧
    S.replayed d hashNew hashOld = .ok v ∧ Stopped d v.top d'

variable {S : BlockStore} {d d' : CoinsDB} {v : CacheView} {c : Cache} {m m' m₀ u u' u₀ : CoinMap}
  {old : Option ℕ} {p q f n new : ℕ} {E : ReplayStop → Prop} {fork : Option ℕ}

theorem lt_length_of_pprevOf (hq : S.tree.pprevOf p = some q) : p < S.tree.length := by
  by_contra hp
  rw [SkipTree.pprevOf, getElem?_eq_none (not_lt.1 hp)] at hq
  cases hq

namespace UtxoAt

theorem lt_length (h : S.UtxoAt (some p) m) : p < S.tree.length := by
  cases h with
  | genesis hp _ => exact hp
  | block hq _ _ => exact lt_length_of_pprevOf hq

theorem stored (h : S.UtxoAt old m) : Stored S.env.tx m := by
  induction h with
  | none => exact fun o coin ho => by cases ho
  | genesis => exact fun o coin ho => by cases ho
  | @block p q m m' block undo hq _ hconn ih =>
    have hheight := (S.sound.parent p q hq).2
    exact hconn.trace.stored (by omega) ih

theorem parent (h : S.UtxoAt (some p) m') (hq : S.tree.pprevOf p = some q) :
    ∃ m block undo, S.UtxoAt (some q) m ∧ S.Connected p m m' block undo := by
  cases h with
  | genesis _ hroot => rw [hroot] at hq; cases hq
  | block hq' hm hconn =>
    obtain rfl := mem_unique hq hq'
    exact ⟨_, _, _, hm, hconn⟩

theorem unique (h : S.UtxoAt old m) (h' : S.UtxoAt old m') : m = m' := by
  induction h generalizing m' with
  | none => cases h'; rfl
  | genesis _ hroot =>
    cases h' with
    | genesis => rfl
    | block hq _ _ => rw [hroot] at hq; cases hq
  | block hq _ hconn ih =>
    obtain ⟨m1, block', undo', hm1, hconn'⟩ := h'.parent hq
    obtain rfl := ih hm1
    -- both are what the writes of the block lead to
    obtain rfl := mem_unique hconn.read_block hconn'.read_block
    obtain rfl := mem_unique hconn.read_undo hconn'.read_undo
    exact (overwrite_apply_of_trace hconn.trace).symm.trans (overwrite_apply_of_trace hconn'.trace)

theorem eq_of_heightOf_eq_zero (h : S.UtxoAt (some p) m) (hp : S.tree.heightOf p = 0) :
    m = fun _ => Option.none := by
  cases h with
  | genesis => rfl
  | block hq _ _ =>
    have := (S.sound.parent _ _ hq).2
    omega

theorem ancestor (h : S.UtxoAt (some p) m) (hq : S.tree.back n p = some q) :
    ∃ m', S.UtxoAt (some q) m' := by
  induction n generalizing p m with
  | zero =>
    cases hq
    exact ⟨m, h⟩
  | succ n ih =>
    obtain ⟨r, hr, hback⟩ := bind_eq_some_iff.1 hq
    obtain ⟨m1, -, -, hm1, -⟩ := h.parent hr
    exact ih hm1 hback

end UtxoAt

theorem wp_onTree {α : Type} {x : Except PointerFault α} {a : α} {Q : α → CacheView → Prop}
    (hx : x = .ok a) (hQ : Q a v) : wp (onTree x) Q E v := by
  subst hx
  exact hQ

theorem rollback_self : S.rollback fork n fork = pure () := by
  cases n with
  | zero => exact if_pos rfl
  | succ n => exact if_pos rfl

theorem rollback_succ (h : some p ≠ fork) :
    S.rollback fork (n + 1) (some p) = (do
      S.rollbackBlock p
      let node ← onTree (S.tree.deref p)
      S.rollback fork n node.pprev) := by
  rw [rollback, if_neg h]

/-- The cache shows a map that tracks `u`. -/
def Follows (d : CoinsDB) (m₀ u₀ u : CoinMap) (v : CacheView) : Prop :=
  ∃ m, Over d m v ∧ Tracks m₀ u₀ m u

theorem Follows.writes {ε α : Type} {prog : EStateM ε CacheView α} {ws : List CoinWrite}
    (h : Follows d m₀ u₀ u v) (hp : Writes (Over d) prog ws) (hws : overwrite u ws = u') :
    wp prog (fun _ => Follows d m₀ u₀ u') (fun _ => False) v := by
  obtain ⟨m, hover, htracks⟩ := h
  exact (hp m v hover).mono (fun _ v' hv' => ⟨_, hv', hws ▸ htracks.overwrite ws⟩) fun _ => id

theorem wp_rollback {k : ℕ} (hp : S.UtxoAt (some p) u) (hf : S.UtxoAt (some f) u')
    (hback : S.tree.back k p = some f) (hk : k ≤ n) (h : Follows d m₀ u₀ u v) :
    wp (S.rollback (some f) n (some p)) (fun _ => Follows d m₀ u₀ u') (fun _ => False) v := by
  induction k generalizing p n u v with
  | zero =>
    cases hback
    rw [rollback_self, ← hp.unique hf]
    exact h
  | succ k ih =>
    obtain ⟨q, hq, hback'⟩ := bind_eq_some_iff.1 hback
    have hplt := hp.lt_length
    have hne : some p ≠ some f := by
      have := (S.sound.back_height hplt hback).2
      rintro ⟨⟩
      omega
    obtain ⟨n, rfl⟩ := Nat.exists_eq_succ_of_ne_zero (by omega : n ≠ 0)
    obtain ⟨m, block, undo, hm, hconn⟩ := hp.parent hq
    obtain ⟨ws, hws, heq⟩ := hconn.writes_rollback hq hplt hm.stored
    rw [rollback_succ hne, wp_bind]
    refine (h.writes hws heq).mono (fun _ v' h' => ?_) fun _ => id
    rw [wp_bind]
    refine wp_onTree (SkipTree.deref_eq_ok hplt) ?_
    rw [← SkipTree.pprevOf_eq hplt, hq]
    exact ih hm hback' (by omega) h'

theorem next_block {a : ℕ} (hnew : S.UtxoAt (some new) u') (ha : a < S.tree.heightOf new)
    (hback : S.tree.back (S.tree.heightOf new - a) new = some f) :
    ∃ p, S.tree.getAncestor new ((a + 1 : ℕ) : ℤ) = .ok (some p) ∧
      S.tree.back (S.tree.heightOf new - (a + 1)) new = some p ∧ S.tree.pprevOf p = some f := by
  have hlt := hnew.lt_length
  obtain ⟨p, hp⟩ := S.sound.exists_back hlt (Nat.sub_le (S.tree.heightOf new) (a + 1))
  refine ⟨p, ?_, hp, ?_⟩
  · rw [S.sound.getAncestor_eq hlt ha, hp]
  · rw [show S.tree.heightOf new - a = S.tree.heightOf new - (a + 1) + 1 by omega,
      SkipTree.back_add, hp] at hback
    obtain ⟨q, hq, hqf⟩ := bind_eq_some_iff.1 (show S.tree.back 1 p = some f from hback)
    rw [hq, some.inj hqf]

theorem wp_rollforward {a : ℕ} (hnew : S.UtxoAt (some new) u') (ha : a ≤ S.tree.heightOf new)
    (hback : S.tree.back (S.tree.heightOf new - a) new = some f) (hf : S.UtxoAt (some f) u)
    (h : Follows d m₀ u₀ u v) :
    wp (S.rollforward a new) (fun _ => Follows d m₀ u₀ u') (fun _ => False) v := by
  rw [rollforward, S.nHeight_eq new hnew.lt_length]
  generalize hk : S.tree.heightOf new - a = k
  induction k generalizing a f u v with
  | zero =>
    rw [hk] at hback
    cases hback
    rw [← hf.unique hnew]
    exact h
  | succ k ih =>
    obtain ⟨p, hanc, hpback, hpf⟩ := next_block hnew (by omega) hback
    obtain ⟨u1, hp⟩ := hnew.ancestor hpback
    obtain ⟨m, block, undo, hm, hconn⟩ := hp.parent hpf
    obtain rfl := hf.unique hm
    obtain ⟨ws, hws, heq⟩ := hconn.writes_rollforward hp.lt_length
    change wp ((onTree _ >>= fun _ => _) >>= fun _ => List.forM _ _) _ _ v
    rw [wp_bind, wp_bind]
    refine wp_onTree hanc ?_
    refine (h.writes hws heq).mono (fun _ v' h' => ?_) fun _ => id
    exact ih (by omega) hpback hp h' (by omega)

theorem follows_start (d : CoinsDB) (u : CoinMap) : Follows d d.visible u u { base := .db d } :=
  ⟨d.visible, ⟨⟨Cache.coherent_empty, trivial⟩, rfl, rfl⟩, .refl _ _⟩

theorem wp_findFork_some (hold : S.UtxoAt (some p) u) (hnew : S.UtxoAt (some new) u')
    {Q : Option ℕ × Option ℕ → CacheView → Prop}
    (hQ : ∀ f, S.tree.IsLastCommon p new f → Q (some p, some f) v) :
    wp (S.findFork (S.index p).hash new) Q E v := by
  have hlt := hold.lt_length
  have hlt' := hnew.lt_length
  obtain ⟨f, hrun, hf⟩ := S.sound.lastCommonAncestor_spec hlt hlt' (S.genesis p hlt new hlt')
  simp only [findFork, if_neg (S.hash_ne_zero p hlt), S.blockIndex_hash p hlt, wp_bind]
  exact wp_onTree hrun (hQ f hf)

section

variable (hold : S.UtxoAt old u) (hnew : S.UtxoAt (some new) u')
  (hmixed : ∀ o, d.visible o = u o ∨ d.visible o = u' o)
include hold hnew hmixed

/-- A replay over a mixture of the coins of both tips ends with those of the new one. -/
theorem wp_replay :
    wp (S.replay (S.index new).hash (S.tipHash old))
      (fun _ v => Over d u' v ∧ v.top.hashBlock = (S.index new).hash) (fun _ => False)
      { base := .db d } := by
  have hlt := hnew.lt_length
  have hdone : ∀ v, Follows d d.visible u u' v →
      wp (mapError ReplayStop.fault (CacheView.setBestBlock (S.index new).hash))
      (fun _ v => Over d u' v ∧ v.top.hashBlock = (S.index new).hash) (fun _ => False) v := by
    rintro v ⟨m, hover, htracks⟩
    obtain rfl := htracks.eq_of_mixed hmixed
    exact ⟨hover.fill (CacheView.setBestBlock_fill _), rfl⟩
  simp only [replay, S.blockIndex_hash new hlt, wp_bind]
  cases old with
  | none =>
    -- the first flush: everything from the genesis block on is rolled forward
    obtain ⟨g, hg⟩ := S.sound.exists_back hlt le_rfl
    obtain ⟨ug, hug⟩ := hnew.ancestor hg
    have hug' : ug = u := by
      cases hold
      exact hug.eq_of_heightOf_eq_zero (by have := (S.sound.back_height hlt hg).2; omega)
    subst hug'
    exact (wp_rollforward hnew (Nat.zero_le _) hg hug (follows_start d ug)).mono
      (fun _ v hv => hdone v hv) fun _ => id
  | some p =>
    refine wp_findFork_some hold hnew fun f hf => ?_
    obtain ⟨-, hback⟩ := (S.sound.isAncestor_iff hold.lt_length).1 hf.left
    obtain ⟨hfnew, hback'⟩ := (S.sound.isAncestor_iff hlt).1 hf.right
    obtain ⟨uf, huf⟩ := hold.ancestor hback
    simp only [elim_some, S.nHeight_eq p hold.lt_length, S.nHeight_eq f huf.lt_length]
    refine (wp_rollback hold huf hback (by omega) (follows_start d u)).mono
      (fun _ v hv => ?_) fun _ => id
    exact (wp_rollforward hnew hfnew hback' huf hv).mono (fun _ v' hv' => hdone v' hv') fun _ => id

theorem replayed_spec :
    ∃ v, S.replayed d (S.index new).hash (S.tipHash old) = .ok v ∧ Over d u' v ∧
      v.top.hashBlock = (S.index new).hash := by
  obtain ⟨_, v, hrun, hover, hhash⟩ := (wp_replay hold hnew hmixed).exists_ok
  exact ⟨v, by rw [replayed, hrun], hover, hhash⟩

end

/-- Each entry of a database to which some entries of a coherent cache were written is as it was
before or as the cache shows it. -/
theorem written_mixed {l : List (Sigma fun _ : OutPoint => CacheEntry)} (hc : c.Coherent m)
    (hl : l.Subperm c.cacheCoins.entries) (o : OutPoint) :
    l.NodupKeys ∧ (Coins.written m l o = m o ∨ Coins.written m l o = c.over m o) := by
  have hnodup : l.NodupKeys := by
    obtain ⟨l', hperm, hsub⟩ := hl
    exact (perm_nodupKeys hperm).1 (List.NodupKeys.sublist hsub c.cacheCoins.nodupKeys)
  refine ⟨hnodup, ?_⟩
  rw [← hc.written, Coins.written, Coins.written]
  cases hlook : l.dlookup o with
  | none => exact .inl rfl
  | some e =>
    have hmem : Sigma.mk o e ∈ c.cacheCoins.entries := hl.subset (of_mem_dlookup hlook)
    rw [mem_dlookup c.cacheCoins.nodupKeys hmem]
    exact .inr rfl

/-- A database between the two tips. -/
structure Between (S : BlockStore) (old : Option ℕ) (new : ℕ) (u u' : CoinMap) (d : CoinsDB) :
    Prop where
  bestBlock : d.bestBlock = 0
  headBlocks : d.headBlocks = [(S.index new).hash, S.tipHash old]
  mixed : ∀ o, d.visible o = u o ∨ d.visible o = u' o

/-- A stopped flush to the new tip leaves a database between the two, also when it was between them
before. -/
theorem Stopped.between (h : Stopped d c d') (hc : c.Coherent d.visible)
    (hover : c.over d.visible = u') (hhash : c.hashBlock = (S.index new).hash)
    (hmixed : ∀ o, d.visible o = u o ∨ d.visible o = u' o)
    (htip : (d.bestBlock = S.tipHash old ∧ d.headBlocks = []) ∨
      (d.bestBlock = 0 ∧ d.headBlocks = [(S.index new).hash, S.tipHash old])) :
    S.Between old new u u' d' := by
  obtain ⟨l, hl, hrun⟩ := h
  unfold interrupted at hrun
  split_ifs at hrun
  cases hrun
  refine ⟨rfl, ?_, fun o => ?_⟩
  · have hold : oldTip d = S.tipHash old := by
      rcases htip with ⟨hb, hh⟩ | ⟨hb, hh⟩ <;> simp [oldTip, hb, hh]
    exact congrArg₂ (fun a b => [a, b]) hhash hold
  · obtain ⟨hnodup, hw⟩ := written_mixed hc hl o
    have hvis := congrFun (CoinsDB.visible_foldl_writeEntry l d hnodup) o
    rw [hover] at hw
    rcases hw with hw | hw
    · exact (hmixed o).imp (hvis.trans hw).trans (hvis.trans hw).trans
    · exact .inr (hvis.trans hw)

theorem between_of_reachable (hold : S.UtxoAt old u) (hnew : S.UtxoAt (some new) u')
    (h : (S.crashes old new u u').Reachable d) : S.Between old new u u' d := by
  refine h.invariant ?_ ?_
  · rintro d' ⟨d, c, rfl, hbest, hheads, hc, hover, hhash, hstop⟩
    exact hstop.between hc hover hhash (fun _ => .inl rfl) (.inl ⟨hbest, hheads⟩)
  · rintro d _ d' hd ⟨hashNew, hashOld, v, hheads, hrun, hstop⟩
    obtain ⟨rfl, rfl⟩ : hashNew = (S.index new).hash ∧ hashOld = S.tipHash old := by
      simpa [hd.headBlocks, eq_comm] using hheads
    obtain ⟨v', hrun', hover, hhash⟩ := replayed_spec hold hnew hd.mixed
    cases (hrun.symm.trans hrun')
    have hvis : v.base.visible = d.visible := by rw [hover.base_eq]; rfl
    exact hstop.between (hvis ▸ hover.coherent.1) (hvis ▸ hover.visible_eq) hhash hd.mixed
      (.inr ⟨hd.bestBlock, hd.headBlocks⟩)

/-- **Recovery from a crash**: let the flush from an old tip, or from the empty database, to a new
tip on any fork be stopped after any of its writes, and let any number of replays be stopped in
their own flush.  Then replaying the blocks succeeds and leaves exactly the coins of the new tip,
with the new tip as best block. -/
theorem replay_recovers {mOld mNew : CoinMap} (hold : S.UtxoAt old mOld)
    (hnew : S.UtxoAt (some new) mNew) (h : (S.crashes old new mOld mNew).Reachable d) :
    ∃ d', S.replayBlocks d = .ok d' ∧ d'.visible = mNew ∧ d'.bestBlock = (S.index new).hash ∧
      d'.headBlocks = [] := by
  have hd := between_of_reachable hold hnew h
  obtain ⟨v, hrun, hover, hhash⟩ := replayed_spec hold hnew hd.mixed
  have hvis : v.base.visible = d.visible := by rw [hover.base_eq]; rfl
  have hflush :=
    CoinsDB.visible_foldl_writeEntry v.top.cacheCoins.entries d v.top.cacheCoins.nodupKeys
  rw [Cache.Coherent.written (hvis ▸ hover.coherent.1), ← hvis] at hflush
  have hreplay : S.replayBlocks d = .ok
      { v.top.cacheCoins.entries.foldl (fun d x => d.writeEntry x.1 x.2) d with
        bestBlock := (S.index new).hash, headBlocks := [] } := by
    simp only [replayBlocks, hd.headBlocks, hrun, bind, Except.bind, hhash, CoinsDB.batchWrite]
    rw [if_neg (S.hash_ne_zero new hnew.lt_length), if_neg (by simp)]
    rfl
  exact ⟨_, hreplay, hflush.trans hover.visible_eq, rfl, rfl⟩

/-- A coinbase, named by its lock time. -/
def reward (n : ℕ) : Transaction where
  vin := [{ prevout := ⟨0, 2 ^ 32 - 1⟩, scriptSig := [2, 0] }]
  vout := [⟨5, []⟩]
  nLockTime := n

/-- The coin of that coinbase at height 1. -/
def rewardCoin : Coin := { out := ⟨5, []⟩, nHeight := 1, fCoinBase := true }

/-- Blocks 1 and 2 both follow block 0, and each has a coinbase only. -/
def twoTips : BlockStore where
  env := sampleEnv
  tree := [⟨none, 0, none⟩, ⟨some 0, 1, some 0⟩, ⟨some 0, 1, some 0⟩]
  index p :=
    { Chain.blockAt (if p = 0 then 0 else 1) 0 0x207fffff with hash := BitVec.ofNat 256 (p + 1) }
  blockIndex hash := some (hash.toNat - 1)
  readBlock p := some
    { hashPrevBlock := 1, hashMerkleRoot := 0, nBits := 0x207fffff, nNonce := p, vtx := [reward p] }
  readUndo _ := some []
  sound := SkipTree.sound_of_reachable
    (SkipTree.reachable_of_grow (show SkipTree.grow [none, some 0, some 0] = _ by decide +kernel))
  nHeight_eq := by decide
  blockIndex_hash := by decide
  hash_ne_zero := by decide
  genesis := by decide

/-- The coin of the coinbase `n` and no other. -/
def onlyReward (n : ℕ) : CoinMap := created simpleTxFns 1 (reward n)

theorem utxoAt_twoTips (hp : p = 1 ∨ p = 2) : twoTips.UtxoAt (some p) (onlyReward p) := by
  have hroot : twoTips.UtxoAt (some 0) fun _ => none := .genesis (by decide) rfl
  have hchecked : Consensus.TxChecked (reward p) :=
    ⟨by simp [reward], by simp [reward]; decide, by simp [reward]; decide, by simp [reward]⟩
  have happ : Applied simpleTxFns 1 (fun _ => none) (reward p) [] (onlyReward p) :=
    { inputs_nodup := nodup_nil
      undo_eq := rfl
      undo_unspent := fun coin hcoin => absurd hcoin not_mem_nil
      fresh := fun _ _ => rfl
      result := fun o => by cases h : created simpleTxFns 1 (reward p) o <;> simp [onlyReward, h,
        Ledger.without] }
  have hheight : twoTips.tree.heightOf p = 1 := by rcases hp with rfl | rfl <;> rfl
  have hparent : twoTips.tree.pprevOf p = some 0 := by rcases hp with rfl | rfl <;> rfl
  refine .block hparent hroot ⟨rfl, rfl, ⟨⟨reward p, [], rfl, rfl, by simp⟩, ?_⟩, rfl, ?_⟩
  · intro tx htx
    rwa [mem_singleton.1 htx]
  · rw [hheight]
    exact .snoc .start happ

theorem onlyReward_eq : onlyReward n =
    update (fun _ => Option.none) ⟨BitVec.ofNat 256 n, 0⟩ (some rewardCoin) := by
  funext ⟨hash, k⟩
  have hvout : (reward n).vout = [⟨5, []⟩] := rfl
  have hhash : simpleTxFns.getHash (reward n) = BitVec.ofNat 256 n := rfl
  have hcoin : Ledger.createdCoin simpleTxFns 1 (reward n) ⟨5, []⟩ = some rewardCoin := rfl
  by_cases ho : hash = BitVec.ofNat 256 n
  · subst ho
    cases k with
    | zero => simp [onlyReward, created, hvout, hhash, hcoin]
    | succ k => simp [onlyReward, created, hvout]
  · simp [onlyReward, created, hhash, ho]

/-- The database with the coin of block 1. -/
def oneReward : CoinsDB where
  coins := (∅ : Map OutPoint Coin).insert ⟨1, 0⟩ rewardCoin
  bestBlock := 2
  unspent := fun o c h => by
    rw [Map.lookup_insert_eq_ite] at h
    split_ifs at h
    · cases h; rfl
    · simp at h

/-- The cache that is flushed: the coin of block 1 was spent and that of block 2 was added. -/
def otherReward : Cache :=
  ((({ hashBlock := 3 } : Cache).set simpleTxFns.toScriptFns ⟨1, 0⟩
    { coin := {}, dirty := true }).set
    simpleTxFns.toScriptFns ⟨2, 0⟩ { coin := rewardCoin, dirty := true })

/-- The flush from block 1 to block 2 is stopped when it has written the new coin and not yet erased
the old one. -/
theorem replay_recovers_twoTips : ∃ d,
    (twoTips.crashes (some 1) 2 (onlyReward 1) (onlyReward 2)).Reachable d ∧
    d.visible ⟨1, 0⟩ = some rewardCoin ∧ d.visible ⟨2, 0⟩ = some rewardCoin ∧
    ∃ d', twoTips.replayBlocks d = .ok d' ∧ d'.visible = onlyReward 2 ∧ d'.bestBlock = 3 := by
  have hvis : oneReward.visible = onlyReward 1 := by
    rw [onlyReward_eq]
    funext o
    have hlook : oneReward.visible o =
        ((∅ : Map OutPoint Coin).insert ⟨1, 0⟩ rewardCoin).lookup o := rfl
    rw [hlook, Map.lookup_insert_eq_ite, update_apply]
    rfl
  have hcoherent : otherReward.Coherent oneReward.visible :=
    ((Cache.Coherent.set ⟨by simp, by simp⟩ (by simp) (by simp)).set (by simp) (by simp))
  have hover : otherReward.over oneReward.visible = onlyReward 2 := by
    have hspent : update (onlyReward 1) ⟨1, 0⟩ none = fun _ => none := by
      rw [onlyReward_eq]
      exact (update_idem _ _ _).trans (update_eq_self _ _)
    rw [otherReward, Cache.over_set, Cache.over_set, hvis, onlyReward_eq (n := 2), ← hspent]
    rfl
  have hstop : Stopped oneReward otherReward
      { oneReward.writeEntry ⟨2, 0⟩ { coin := rewardCoin, dirty := true } with
        bestBlock := 0, headBlocks := [3, 2] } := by
    refine ⟨[⟨⟨2, 0⟩, { coin := rewardCoin, dirty := true }⟩], ?_, rfl⟩
    exact singleton_subperm_iff.2 (of_mem_dlookup (Cache.lookup_set.trans (if_pos rfl)))
  have hreach := LTS.Reachable.start (A := twoTips.crashes (some 1) 2 (onlyReward 1) (onlyReward 2))
    ⟨oneReward, otherReward, hvis, rfl, rfl, hcoherent, hover, rfl, hstop⟩
  obtain ⟨d', hrun, hd', hbest, -⟩ :=
    replay_recovers (utxoAt_twoTips (.inl rfl)) (utxoAt_twoTips (.inr rfl)) hreach
  exact ⟨_, hreach, by decide +kernel, by decide +kernel, d', hrun, hd', hbest⟩

end BlockStore

end KPCoin.Validation
