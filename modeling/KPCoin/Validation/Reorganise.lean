import KPCoin.Validation.Replay

/-!
# Reorganisations

`ConnectTip` and `DisconnectTip` (`validation.cpp`) on the coins of the tip.  Each block is
connected or disconnected in a cache of its own, which is flushed into the coins of the tip; in
between `FlushStateToDisk` may write these to the database.

`coins_eq_ledger` : whatever was connected and disconnected on the way, the coins are those of the
active chain, and its last block can be disconnected cleanly.
-/

namespace KPCoin.Validation

open List Program Coins Ledger Overwrite

/-- A block of the active chain, with its undo data on disk. -/
structure Tip where
  connect : Connect
  block : Block
  undo : List (List Coin)

/-- The coins of the tip, and the active chain with its last block first. -/
structure ActiveState where
  coins : View
  chain : List Tip

inductive TipStep
  | connectTip (X : Connect) (block : Block)
  | disconnectTip
  | flush
  | sync

section Model

variable (E : Env)

/-- Disconnect the block, which must be the best one of the view. -/
def Tip.disconnect (t : Tip) : ViewM DisconnectResult := do
  let best ← CacheView.getBestBlock
  rejectIf (best != t.connect.index.hash) .abort
  disconnectBlock E.tx t.connect.index t.connect.pprev (some t.undo) t.block

/-- `ConnectTip`, `DisconnectTip` and `FlushStateToDisk`; `none` if they fail. -/
def ActiveState.exec (s : ActiveState) : TipStep → Option ActiveState
  | .connectTip X block => (connectTip E X block s.coins).map fun (undo, coins) =>
    { coins, chain := ⟨X, block, undo⟩ :: s.chain }
  | .disconnectTip =>
    match s.chain with
    | [] => none
    | t :: chain =>
      match t.disconnect E { base := s.coins } with
      | .ok .ok view => (flushTip E view).map ({ coins := ·, chain })
      | _ => none
  | .flush => (writeTip (CacheView.flush E.tx.toScriptFns) s.coins).map ({ s with coins := · })
  | .sync => (writeTip (CacheView.sync E.tx.toScriptFns) s.coins).map ({ s with coins := · })

/-- Blocks after the genesis block, with BIP30 enforced. -/
def Ordinary : TipStep → Prop
  | .connectTip X _ => 1 ≤ X.index.nHeight ∧ enforceBIP30 E X = true
  | _ => True

/-- Runs that start with the coins `m₀`. -/
def reorgs (m₀ : CoinMap) : LTS ActiveState TipStep where
  init s := s.coins.Coherent ∧ s.coins.visible = m₀ ∧ s.chain = []
  step s l s' := s.exec E l = some s' ∧ Ordinary E l

/-- The coins that the blocks of a chain leave of `m₀`. -/
def ledger (m₀ : CoinMap) : List Tip → CoinMap
  | [] => m₀
  | t :: chain => overwrite (ledger m₀ chain)
      (t.block.vtx.flatMap (applyWrites E.tx t.connect.index.nHeight))

/-- The blocks of the chain applied to `m₀` one after another, each with the coins it spent. -/
inductive Applies (m₀ : CoinMap) : List Tip → CoinMap → Prop
  | start : Applies m₀ [] m₀
  | next {t : Tip} {chain : List Tip} {m m' : CoinMap} {undos : List (List Coin)} :
      Applies m₀ chain m → BlockChecked E t.block → t.connect.pprev ≠ [] →
      1 ≤ t.connect.index.nHeight → undos.length = t.block.vtx.length → t.undo = undos.tail →
      Trace E.tx t.connect.index.nHeight m (t.block.vtx.zip undos) m' → Applies m₀ (t :: chain) m'

end Model

variable {E : Env} {m m₀ : CoinMap} {s s' : ActiveState} {t : Tip} {v : CacheView}
  {chain : List Tip} {coins coins' : View}

namespace Applies

theorem eq_ledger (h : Applies E m₀ chain m) : m = ledger E m₀ chain := by
  induction h with
  | start => rfl
  | next _ _ _ _ hlen _ ht ih =>
    have hwrites := overwrite_apply_of_trace ht
    rw [map_fst_zip hlen.ge, ih] at hwrites
    exact hwrites.symm

variable (hm₀ : Stored E.tx m₀)
include hm₀

theorem stored (h : Applies E m₀ chain m) : Stored E.tx m := by
  induction h with
  | start => exact hm₀
  | next _ _ _ hh _ _ ht ih => exact ht.stored hh ih

/-- Disconnecting the last block is clean and leaves the coins of the blocks before. -/
theorem wp_disconnectBlock (h : Applies E m₀ (t :: chain) v.visible) (hc : v.Coherent) :
    wp (disconnectBlock E.tx t.connect.index t.connect.pprev (some t.undo) t.block)
      (fun res v' => res = .ok ∧ v'.Coherent ∧ Applies E m₀ chain v'.visible)
      (fun _ => False) v := by
  cases h with
  | @next _ _ m _ undos h hb hprev hh hlen hundo ht =>
    obtain ⟨parent, ancestors, hpprev⟩ := exists_cons_of_ne_nil hprev
    have hrun : wp (undoBlock E.tx t.connect.index t.connect.pprev (some t.undo) t.block)
        (fun fClean v' => fClean = true ∧ v'.Coherent ∧ v'.visible = m) (fun _ => False) v := by
      simp only [undoBlock, hpprev, hundo, wp_bind, wp_rejectIf, zip_undoArg hb hlen]
      refine ⟨fun hne => ?_, fun _ => (wp_undoTxs ht hh (h.stored hm₀) hc rfl).mono ?_ fun _ => id⟩
      · -- there is one more transaction than undo data
        obtain ⟨cb, rest, hvtx, -⟩ := hb.coinbase_first
        simp [hlen, hvtx] at hne
      · rintro _ v₁ ⟨hf, hc₁, hv₁⟩
        exact ⟨hf, hc₁.fill (CacheView.setBestBlock_fill _), hv₁⟩
    obtain ⟨_, v', hr, rfl, hc', rfl⟩ := hrun.exists_ok
    exact wp_of_ok (by simp [disconnectBlock, hr]) ⟨rfl, hc', h⟩

end Applies

/-- A view that is flushed or synced and its base both show the same coins. -/
theorem written_spec {F : ScriptFns} {l : Call} (hl : l = .flush ∨ l = .sync) (hc : v.Coherent)
    {u : Unit} {v' : CacheView} (hr : Coins.exec F l v = .ok u v') :
    v'.Coherent ∧ v'.visible = v.visible ∧ v'.base.visible = v.visible := by
  have hmaps : v'.maps = v.visible :: v.visible :: v.base.maps.tail ∧ v'.Coherent := by
    rcases hl with rfl | rfl
    all_goals exact ((coherent_step _ hc (by exact trivial)).ok hr).symm
  obtain ⟨htop, hbase⟩ := cons.inj hmaps.1
  exact ⟨hmaps.2, htop, (cons.inj (v'.base.maps_eq_cons.symm.trans hbase)).1⟩

theorem flushTip_spec (hc : v.Coherent) (hs : flushTip E v = some coins) :
    coins.Coherent ∧ coins.visible = v.visible := by
  obtain ⟨u, v', hr, rfl⟩ := flushTip_eq_some hs
  obtain ⟨hc', -, hbase⟩ := written_spec (.inl rfl) hc hr
  exact ⟨hc'.2, hbase⟩

theorem writeTip_spec {F : ScriptFns} {l : Call} (hl : l = .flush ∨ l = .sync)
    (hc : coins.Coherent) (hs : writeTip (Coins.exec F l) coins = some coins') :
    coins'.Coherent ∧ coins'.visible = coins.visible := by
  obtain ⟨c, base, u, v', rfl, hr, rfl⟩ := writeTip_eq_some hs
  obtain ⟨hc', hvis, -⟩ := written_spec (v := ⟨c, base⟩) hl hc hr
  exact ⟨hc', hvis⟩

/-- What every step keeps. -/
theorem applies_exec {l : TipStep} (hm₀ : Stored E.tx m₀)
    (h : s.coins.Coherent ∧ Applies E m₀ s.chain s.coins.visible) (hst : s.exec E l = some s')
    (hl : Ordinary E l) : s'.coins.Coherent ∧ Applies E m₀ s'.chain s'.coins.visible := by
  have hc : CacheView.Coherent { base := s.coins } := ⟨Cache.coherent_empty, h.1⟩
  cases l with
  | connectTip X block =>
    obtain ⟨⟨undo, coins⟩, hconnect, rfl⟩ := Option.map_eq_some_iff.1 hst
    obtain ⟨view, hconn, hflush⟩ := connectTip_eq_some hconnect
    obtain ⟨hb, hprev, hcv, undos, hlen, hundo, ht⟩ := (wp_connectBlock hc hl.2).ok hconn undo rfl
    obtain ⟨hcoh, hvis⟩ := flushTip_spec hcv hflush
    refine ⟨hcoh, ?_⟩
    rw [hvis]
    exact .next h.2 hb hprev hl.1 hlen hundo ht
  | disconnectTip =>
    simp only [ActiveState.exec] at hst
    split at hst
    · cases hst
    rename_i t chain hchain
    have hdis : wp (t.disconnect E) (fun _ v' => v'.Coherent ∧ Applies E m₀ chain v'.visible)
        (fun _ => True) { base := s.coins } := by
      simp only [Tip.disconnect, wp_bind]
      refine CacheView.wp_getBestBlock fun best v1 hf => wp_rejectIf.2
        ⟨fun _ => trivial, fun _ => ?_⟩
      have hv : v1.visible = s.coins.visible := hf.visible
      have happ := hchain ▸ h.2
      rw [← hv] at happ
      exact (happ.wp_disconnectBlock hm₀ (hc.fill hf)).mono (fun _ _ h => h.2) fun _ _ => trivial
    split at hst
    · rename_i view hr
      obtain ⟨hcv, happ⟩ := hdis.ok hr
      obtain ⟨coins, hflush, rfl⟩ := Option.map_eq_some_iff.1 hst
      obtain ⟨hcoh, hvis⟩ := flushTip_spec hcv hflush
      exact ⟨hcoh, hvis ▸ happ⟩
    · cases hst
  | flush =>
    obtain ⟨coins, hwrite, rfl⟩ := Option.map_eq_some_iff.1 hst
    obtain ⟨hcoh, hvis⟩ := writeTip_spec (.inl rfl) h.1 hwrite
    exact ⟨hcoh, hvis ▸ h.2⟩
  | sync =>
    obtain ⟨coins, hwrite, rfl⟩ := Option.map_eq_some_iff.1 hst
    obtain ⟨hcoh, hvis⟩ := writeTip_spec (.inr rfl) h.1 hwrite
    exact ⟨hcoh, hvis ▸ h.2⟩

/-- **Reorganisations leave no trace.**  In every state reached by connecting and disconnecting
blocks and writing the coins to the database, the coins shown are those that the blocks of the
active chain leave of the coins at the start, and `DisconnectBlock` of its last block is clean and
then shows the coins of the chain without it. -/
theorem coins_eq_ledger (hm₀ : Stored E.tx m₀) (h : (reorgs E m₀).Reachable s) :
    s.coins.visible = ledger E m₀ s.chain ∧ ∀ t chain, s.chain = t :: chain →
      ∃ view, disconnectBlock E.tx t.connect.index t.connect.pprev (some t.undo) t.block
        { base := s.coins } = .ok .ok view ∧ view.visible = ledger E m₀ chain := by
  obtain ⟨hcoh, happ⟩ : s.coins.Coherent ∧ Applies E m₀ s.chain s.coins.visible := by
    refine h.invariant (fun s ⟨hcoh, hvis, hchain⟩ => ?_) fun s l s' hs hst =>
      applies_exec hm₀ hs hst.1 hst.2
    rw [hvis, hchain]
    exact ⟨hcoh, .start⟩
  refine ⟨happ.eq_ledger, fun t chain hchain => ?_⟩
  have hlast : Applies E m₀ (t :: chain) (CacheView.visible { base := s.coins }) := hchain ▸ happ
  obtain ⟨_, view, hrun, rfl, -, hrest⟩ :=
    (hlast.wp_disconnectBlock hm₀ ⟨Cache.coherent_empty, hcoh⟩).exists_ok
  exact ⟨view, hrun, hrest.eq_ledger⟩

/-- The sample block is connected, written to the database, disconnected and connected again. -/
theorem coins_eq_ledger_again : ∃ s, (reorgs sampleEnv (sampleView []).visible).Reachable s ∧
    s.chain.length = 1 ∧ s.coins.visible = ledger sampleEnv (sampleView []).visible s.chain := by
  let l : TipStep := .connectTip sampleConnect sampleBlock
  have hl : Ordinary sampleEnv l := ⟨by decide, by decide⟩
  have hrun : ([l, .flush, .disconnectTip, l].foldlM (ActiveState.exec sampleEnv)
      ⟨(sampleView []).toView, []⟩).map (fun s => s.chain.length) = some 1 := by decide +kernel
  obtain ⟨s, hs, hlen⟩ := Option.map_eq_some_iff.1 hrun
  simp only [foldlM_cons, foldlM_nil, Option.bind_eq_bind, Option.bind_eq_some_iff] at hs
  obtain ⟨s₁, h₁, s₂, h₂, s₃, h₃, s₄, h₄, ⟨⟩⟩ := hs
  have hinit : (reorgs sampleEnv (sampleView []).visible).init ⟨(sampleView []).toView, []⟩ :=
    ⟨⟨Cache.coherent_empty, trivial⟩, rfl, rfl⟩
  have hreach := ((((LTS.Reachable.start hinit).tail ⟨h₁, hl⟩).tail ⟨h₂, trivial⟩).tail
    ⟨h₃, trivial⟩).tail ⟨h₄, hl⟩
  have hstored : Stored sampleEnv.tx (sampleView []).visible := fun o coin h => by
    rw [(eq_sampleCoin h).2]
    decide
  exact ⟨s, hreach, hlen, (coins_eq_ledger hstored hreach).1⟩

end KPCoin.Validation
