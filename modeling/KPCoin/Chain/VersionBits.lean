import KPCoin.Chain.MedianTime
import KPCoin.Data.Map
import KPCoin.Pow.KeyEpoch

/-!
# Deployment states

`AbstractThresholdConditionChecker` of `versionbits.cpp`: the state of a deployment for the block
after a given one, with a cache that all calls share, and the height since which it has been in it.

`Checker.stateFor` is the state without a cache: the period before the first one is `DEFINED`, and
each later period follows from the one before it by `Checker.transition`.

* `getStateFor_eq` : with any cache that holds such states only, `GetStateFor` returns the state and
  leaves such a cache.  It stops at a block before the start time, which is right because the median
  time past does not go back;
* `getStateFor_transparent` : so do the calls of any sequence, and the states move forward only;
* `getStateSinceHeightFor_exact` : where the present state began;
* `statistics_agree` : what `GetStateStatisticsFor` reports decides the state after the period.
-/

namespace KPCoin.Chain

open List KPCoin.Pow

/-- `ThresholdState`. -/
inductive ThresholdState
  | defined
  | started
  | lockedIn
  | active
  | failed
  deriving DecidableEq, Repr

/-- `BIP9Deployment::ALWAYS_ACTIVE`. -/
def alwaysActive : ℤ := -1

/-- `BIP9Deployment::NEVER_ACTIVE`. -/
def neverActive : ℤ := -2

/-- `AbstractThresholdConditionChecker`.  `Condition` may look at the ancestors of the block. -/
structure Checker where
  condition : Branch → Bool
  beginTime : ℤ
  endTime : ℤ
  minActivationHeight : ℤ
  period : ℕ
  threshold : ℤ
  period_pos : 0 < period

/-- `ThresholdConditionCache`, by the parent of the first block of a period. -/
abbrev Cache := Map Branch ThresholdState

/-- `VersionBitsConditionChecker::Condition`: the bit is set in a version with
`VERSIONBITS_TOP_BITS`. -/
def versionBitsCondition (bit : ℕ) : Branch → Bool
  | [] => false
  | b :: _ =>
    let nVersion := BitVec.ofInt 32 b.nVersion
    nVersion &&& 0xE0000000#32 == 0x20000000#32 && nVersion &&& (1#32 <<< bit) != 0#32

/-- `VersionBitsConditionChecker` for a `BIP9Deployment` and the window and threshold of the
chain. -/
def versionBitsChecker (bit : ℕ) (nStartTime nTimeout minActivationHeight : ℤ)
    (nMinerConfirmationWindow : ℕ) (nRuleChangeActivationThreshold : ℤ)
    (h : 0 < nMinerConfirmationWindow) : Checker where
  condition := versionBitsCondition bit
  beginTime := nStartTime
  endTime := nTimeout
  minActivationHeight := minActivationHeight
  period := nMinerConfirmationWindow
  threshold := nRuleChangeActivationThreshold
  period_pos := h

namespace Checker

variable (k : Checker)

/-! ### `GetStateFor` -/

/-- The loop that counts the blocks which meet the condition.  There must be enough of them. -/
def countLoop : ℕ → Branch → ℤ → Option ℤ
  | 0, _, count => some count
  | _ + 1, [], _ => none
  | n + 1, b :: pprev, count =>
    countLoop n pprev (if k.condition (b :: pprev) then count + 1 else count)

/-- The state after a period, from the state in it.  `pindexPrev` is the last block of the
period. -/
def nextState (state : ThresholdState) : Branch → Option ThresholdState
  | [] => none
  | b :: pprev =>
    match state with
    | .defined =>
      if (getMedianTimePast (b :: pprev) : ℤ) ≥ k.beginTime then some .started else some .defined
    | .started => do
      let count ← k.countLoop k.period (b :: pprev) 0
      if count ≥ k.threshold then some .lockedIn
      else if (getMedianTimePast (b :: pprev) : ℤ) ≥ k.endTime then some .failed
      else some .started
    | .lockedIn =>
      if (b.nHeight : ℤ) + 1 ≥ k.minActivationHeight then some .active else some .lockedIn
    | .failed => some .failed
    | .active => some .active

/-- The last block of the period before the one that the next block is in. -/
def periodParent : Branch → Branch
  | [] => []
  | b :: pprev =>
    getAncestor ((b.nHeight : ℤ) - (((b.nHeight + 1) % k.period : ℕ) : ℤ)) (b :: pprev)

/-- The last block of the period before the one that this block ends. -/
def previousPeriodParent : Branch → Branch
  | [] => []
  | b :: pprev => getAncestor ((b.nHeight : ℤ) - k.period) (b :: pprev)

/-- Walk backwards, at most `n` periods, until the state is known.  Returned are the block where it
is, the cache and `vToCompute`, its back first. -/
def walkBack : ℕ → Branch → Cache → List Branch → Option (Branch × Cache × List Branch)
  | 0, _, _, _ => none
  | n + 1, pindexPrev, cache, vToCompute =>
    if (cache.lookup pindexPrev).isSome then some (pindexPrev, cache, vToCompute)
    else if pindexPrev = [] then some (pindexPrev, cache.insert pindexPrev .defined, vToCompute)
    else if (getMedianTimePast pindexPrev : ℤ) < k.beginTime then
      some (pindexPrev, cache.insert pindexPrev .defined, vToCompute)
    else walkBack n (k.previousPeriodParent pindexPrev) cache (pindexPrev :: vToCompute)

/-- Walk forward and compute the states. -/
def walkForward : List Branch → ThresholdState → Cache → Option (ThresholdState × Cache)
  | [], state, cache => some (state, cache)
  | pindexPrev :: vToCompute, state, cache => do
    let stateNext ← k.nextState state pindexPrev
    walkForward vToCompute stateNext (cache.insert pindexPrev stateNext)

/-- `GetStateFor`, with the cache it leaves; `none` if it follows a null pointer or fails its
assertion. -/
def getStateFor (pindexPrev : Branch) (cache : Cache) : Option (ThresholdState × Cache) :=
  if k.beginTime = alwaysActive then some (.active, cache)
  else if k.beginTime = neverActive then some (.failed, cache)
  else do
    let pindexPrev := k.periodParent pindexPrev
    let (known, cache, vToCompute) ← k.walkBack (pindexPrev.length + 1) pindexPrev cache []
    let state ← cache.lookup known
    k.walkForward vToCompute state cache

/-- Calls of `GetStateFor` that share a cache. -/
def runQueries : List Branch → Cache → Option (List ThresholdState × Cache)
  | [], cache => some ([], cache)
  | pindexPrev :: queries, cache => do
    let (state, cache) ← k.getStateFor pindexPrev cache
    let (states, cache) ← runQueries queries cache
    return (state :: states, cache)

/-- The loop of `GetStateSinceHeightFor`, at most `n` times around: back over the periods with the
same state. -/
def sinceLoop (initialState : ThresholdState) : ℕ → Branch → Cache → Option (Branch × Cache)
  | 0, _, _ => none
  | n + 1, pindexPrev, cache => do
    let previous := k.previousPeriodParent pindexPrev
    if previous = [] then return (pindexPrev, cache)
    else
      let (state, cache) ← k.getStateFor previous cache
      if state = initialState then sinceLoop initialState n previous cache
      else return (pindexPrev, cache)

/-- `GetStateSinceHeightFor`, with the cache it leaves. -/
def getStateSinceHeightFor (pindexPrev : Branch) (cache : Cache) : Option (ℤ × Cache) :=
  if k.beginTime = alwaysActive ∨ k.beginTime = neverActive then some (0, cache)
  else do
    let (initialState, cache) ← k.getStateFor pindexPrev cache
    if initialState = .defined then return (0, cache)
    else
      let first := k.periodParent pindexPrev
      if first = [] then none
      else
        let (first, cache) ← k.sinceLoop initialState (first.length + 1) first cache
        let b ← first.head?
        return ((b.nHeight : ℤ) + 1, cache)

/-! ### States without a cache -/

/-- How many blocks of the period that ends with `c` meet the condition. -/
def signalling (c : Branch) : ℕ := (c.tails.take k.period).countP k.condition

/-- What becomes of a state at the end `c` of a period. -/
def transition (state : ThresholdState) (c : Branch) : ThresholdState :=
  match state with
  | .defined => if k.beginTime ≤ getMedianTimePast c then .started else .defined
  | .started =>
    if k.threshold ≤ k.signalling c then .lockedIn
    else if k.endTime ≤ getMedianTimePast c then .failed
    else .started
  | .lockedIn => if k.minActivationHeight ≤ nextHeight c then .active else .lockedIn
  | .active => .active
  | .failed => .failed

/-- The state in the `n`th period on the branch `c`, from period to period. -/
def periodState (c : Branch) : ℕ → ThresholdState
  | 0 => .defined
  | n + 1 => k.transition (periodState c n) (getAncestor (((n + 1) * k.period : ℕ) - 1 : ℤ) c)

/-- The state of the block after `c`. -/
def stateFor (c : Branch) : ThresholdState :=
  if k.beginTime = alwaysActive then .active
  else if k.beginTime = neverActive then .failed
  else k.periodState c (nextHeight c / k.period)

/-- The state of the block at height `j` of the branch that ends with the parent `c`. -/
def blockState (c : Branch) (j : ℕ) : ThresholdState := k.stateFor (getAncestor ((j : ℤ) - 1) c)

/-- The moves of BIP 9. -/
inductive Moves : ThresholdState → ThresholdState → Prop
  | stay (s : ThresholdState) : Moves s s
  | start : Moves .defined .started
  | lockIn : Moves .started .lockedIn
  | fail : Moves .started .failed
  | activate : Moves .lockedIn .active

theorem transition_moves (s : ThresholdState) (c : Branch) : Moves s (k.transition s c) := by
  cases s with
  | defined =>
    rw [transition]
    split_ifs
    · exact .start
    · exact .stay _
  | started =>
    rw [transition]
    split_ifs
    · exact .lockIn
    · exact .fail
    · exact .stay _
  | lockedIn =>
    rw [transition]
    split_ifs
    · exact .activate
    · exact .stay _
  | active => exact .stay _
  | failed => exact .stay _

end Checker

/-! ### Positions on a branch -/

variable {c : Branch} {b : BlockIndex}

theorem getAncestor_sub_one (h : Linked c) {n : ℕ} (hn : n ≤ c.length) :
    getAncestor ((n : ℤ) - 1) c = c.drop (c.length - n) := by
  cases n with
  | zero =>
    rw [Nat.sub_zero, drop_length]
    cases c with
    | nil => rfl
    | cons b c => rw [getAncestor, if_pos (.inr (by decide))]
  | succ n =>
    rw [Nat.cast_succ, Int.add_sub_cancel, Pow.getAncestor_eq h (by omega),
      show c.length - 1 - n = c.length - (n + 1) by omega]

theorem getAncestor_sub (h : Linked (b :: c)) {d : ℕ}
    (hd : d ≤ (b :: c).length) : getAncestor ((b.nHeight : ℤ) - d) (b :: c) = (b :: c).drop d := by
  have hcast : b.nHeight - d = (((b :: c).length - d : ℕ) : ℤ) - 1 := by
    rw [length_cons, h.1] at *
    omega
  rw [hcast, getAncestor_sub_one h (Nat.sub_le _ _), Nat.sub_sub_self hd]

theorem getAncestor_drop (h : Linked c) {n d : ℕ} (hn : n + d ≤ c.length) :
    getAncestor ((n : ℤ) - 1) (c.drop d) = getAncestor ((n : ℤ) - 1) c := by
  rw [getAncestor_sub_one (h.suffix (drop_suffix _ _)) (by rw [length_drop]; omega),
    getAncestor_sub_one h (by omega), drop_drop, length_drop]
  congr 1
  omega

namespace Checker

variable {k : Checker} {n d : ℕ} {cache : Cache}

section

variable (h : Linked c)
include h

theorem periodParent_eq : k.periodParent c = c.drop (c.length % k.period) := by
  cases c with
  | nil => rfl
  | cons b c =>
    have hlen : (b :: c).length = b.nHeight + 1 := by rw [length_cons, h.1]
    rw [hlen]
    exact getAncestor_sub h (hlen ▸ Nat.mod_le _ _)

theorem previousPeriodParent_eq (hc : k.period ≤ c.length) :
    k.previousPeriodParent c = c.drop k.period := by
  cases c with
  | nil =>
    rw [drop_nil]
    rfl
  | cons b c => exact getAncestor_sub h hc

/-- The state in a period is the same seen from any later block. -/
theorem periodState_drop (hn : n * k.period + d ≤ c.length) :
    k.periodState (c.drop d) n = k.periodState c n := by
  induction n with
  | zero => rfl
  | succ n ih =>
    have hle : n * k.period ≤ (n + 1) * k.period := Nat.mul_le_mul_right _ (Nat.le_succ n)
    rw [periodState, periodState, ih (by omega), getAncestor_drop h hn]

theorem periodState_succ (hc : c.length = (n + 1) * k.period) :
    k.periodState c (n + 1) = k.transition (k.periodState (c.drop k.period) n) c := by
  have hsucc : (n + 1) * k.period = n * k.period + k.period := Nat.succ_mul n k.period
  rw [periodState, periodState_drop h (by omega), getAncestor_sub_one h (by omega), hc,
    Nat.sub_self, drop_zero]

/-- Before the start time every period is `DEFINED`. -/
theorem periodState_eq_defined (ht : TimesIncrease c)
    (hmtp : (getMedianTimePast c : ℤ) < k.beginTime) (hn : n * k.period ≤ c.length) :
    k.periodState c n = .defined := by
  induction n with
  | zero => rfl
  | succ n ih =>
    have hle : n * k.period ≤ (n + 1) * k.period := Nat.mul_le_mul_right _ (Nat.le_succ n)
    rw [periodState, ih (by omega), getAncestor_sub_one h hn, transition]
    have hmono := getMedianTimePast_mono ht (drop_suffix (c.length - (n + 1) * k.period) c)
    rw [if_neg (by omega)]

end

/-! ### Counting -/

theorem countLoop_eq (hn : n ≤ c.length) (count : ℤ) :
    k.countLoop n c count = some (count + ((c.tails.take n).countP k.condition : ℕ)) := by
  induction n generalizing c count with
  | zero => simp [countLoop]
  | succ n ih =>
    cases c with
    | nil => simp at hn
    | cons b c =>
      rw [countLoop, ih (by simpa using hn), tails_cons, take_succ_cons, countP_cons,
        Option.some_inj]
      split_ifs <;> omega

theorem nextState_eq (hc : k.period ≤ c.length) (state : ThresholdState) :
    k.nextState state c = some (k.transition state c) := by
  cases c with
  | nil =>
    have := k.period_pos
    simp at hc
    omega
  | cons b c =>
    cases state with
    | defined =>
      rw [nextState, transition]
      split_ifs <;> rfl
    | started =>
      rw [nextState, countLoop_eq hc, zero_add, ← signalling]
      simp only [bind, Option.bind, transition, ge_iff_le]
      by_cases hcount : k.threshold ≤ k.signalling (b :: c)
      · rw [if_pos hcount, if_pos hcount]
      · split_ifs <;> rfl
    | lockedIn =>
      have hheight : ((nextHeight (b :: c) : ℕ) : ℤ) = b.nHeight + 1 := rfl
      rw [nextState, transition, hheight]
      split_ifs <;> rfl
    | active => rfl
    | failed => rfl

/-! ### Caches -/

/-- The cache holds states only. -/
def Good (k : Checker) (cache : Cache) : Prop :=
  ∀ c s, cache.lookup c = some s → s = k.periodState c (c.length / k.period)

theorem good_empty : k.Good ∅ := fun _ _ h => by cases h

theorem Good.insert {s : ThresholdState} (h : k.Good cache)
    (hs : s = k.periodState c (c.length / k.period)) : k.Good (cache.insert c s) := by
  intro c' s' hs'
  rw [Map.lookup_insert_eq_ite] at hs'
  split_ifs at hs' with heq
  · rw [heq, ← hs]
    exact (Option.some.inj hs').symm
  · exact h c' s' hs'

/-- Walking back finds a block whose state is known, and from there the blocks passed lead forward
to the state of the block it started from. -/
theorem walkBack_eq (h : Linked c) (ht : TimesIncrease c) (hdvd : k.period ∣ c.length)
    (hn : c.length < n) (hgood : k.Good cache) (vToCompute : List Branch) :
    ∃ cache', k.Good cache' ∧ (do
        let (known, cache, vToCompute) ← k.walkBack n c cache vToCompute
        let state ← cache.lookup known
        k.walkForward vToCompute state cache) =
      k.walkForward vToCompute (k.periodState c (c.length / k.period)) cache' := by
  induction n generalizing c vToCompute with
  | zero => exact absurd hn (Nat.not_lt_zero _)
  | succ n ih =>
    -- The walk stops here, with the state `s` in the cache.
    have hstop : ∀ {cache' s}, k.Good cache' → cache'.lookup c = some s →
        ((cache'.lookup c).bind fun s => k.walkForward vToCompute s cache') =
          k.walkForward vToCompute (k.periodState c (c.length / k.period)) cache' := by
      intro cache' s hg hs
      rw [hs, Option.bind_some, hg c s hs]
    rw [walkBack]
    split_ifs with hin hnil hmtp
    · obtain ⟨s, hs⟩ := Option.isSome_iff_exists.1 hin
      exact ⟨cache, hgood, hstop hgood hs⟩
    · have hg := hgood.insert (c := c) (s := .defined) (by rw [hnil, length_nil, Nat.zero_div]; rfl)
      exact ⟨_, hg, hstop hg (AList.lookup_insert _)⟩
    · have hg := hgood.insert (periodState_eq_defined h ht hmtp (Nat.div_mul_le_self _ _)).symm
      exact ⟨_, hg, hstop hg (AList.lookup_insert _)⟩
    · obtain ⟨m | m, hm⟩ := hdvd
      · exact absurd (length_eq_zero_iff.1 hm) hnil
      have hlen : c.length = (m + 1) * k.period := by rw [hm, mul_comm]
      have hsucc : (m + 1) * k.period = m * k.period + k.period := Nat.succ_mul m k.period
      have hdrop : (c.drop k.period).length = m * k.period := by
        rw [length_drop]
        omega
      have hdiv : ∀ j, j * k.period / k.period = j := fun j => Nat.mul_div_cancel j k.period_pos
      have hsuf := drop_suffix k.period c
      have hperiod := k.period_pos
      obtain ⟨cache', hg, hrun⟩ := ih (h.suffix hsuf) (ht.suffix hsuf)
        ⟨m, by rw [hdrop, mul_comm]⟩ (by omega) (c :: vToCompute)
      refine ⟨cache'.insert c (k.periodState c (c.length / k.period)), hg.insert rfl, ?_⟩
      rw [previousPeriodParent_eq h (by omega), hrun, hdrop, hdiv, walkForward,
        nextState_eq (by omega), hlen, hdiv, periodState_succ h hlen]
      rfl

theorem stateFor_eq (h : Linked c)
    (hstart : k.beginTime ≠ alwaysActive ∧ k.beginTime ≠ neverActive) :
    k.stateFor c = k.periodState c (c.length / k.period) := by
  rw [stateFor, if_neg hstart.1, if_neg hstart.2, nextHeight_eq_length h]

theorem getStateFor_eq (h : Linked c) (ht : TimesIncrease c) (hgood : k.Good cache) :
    ∃ cache', k.getStateFor c cache = some (k.stateFor c, cache') ∧ k.Good cache' := by
  unfold getStateFor
  split_ifs with halways hnever
  · exact ⟨cache, by rw [stateFor, if_pos halways], hgood⟩
  · exact ⟨cache, by rw [stateFor, if_neg halways, if_pos hnever], hgood⟩
  · have hmod := Nat.mod_add_div c.length k.period
    have hsuf := drop_suffix (c.length % k.period) c
    have hlen : (c.drop (c.length % k.period)).length = c.length / k.period * k.period := by
      rw [length_drop, mul_comm]
      omega
    have hdvd : k.period ∣ (c.drop (c.length % k.period)).length := ⟨_, by rw [hlen, mul_comm]⟩
    obtain ⟨cache', hgood', hrun⟩ := walkBack_eq (h.suffix hsuf) (ht.suffix hsuf) hdvd
      (Nat.lt_succ_self _) hgood []
    rw [hlen, Nat.mul_div_cancel _ k.period_pos, periodState_drop h (by rw [mul_comm]; omega),
      ← stateFor_eq h ⟨halways, hnever⟩] at hrun
    refine ⟨cache', ?_, hgood'⟩
    dsimp only
    rw [periodParent_eq h, hlen]
    exact hrun

theorem runQueries_eq (queries : List Branch) (hq : ∀ c ∈ queries, Linked c ∧ TimesIncrease c)
    (hgood : k.Good cache) :
    ∃ cache', k.runQueries queries cache = some (queries.map k.stateFor, cache') ∧
      k.Good cache' := by
  induction queries generalizing cache with
  | nil => exact ⟨cache, rfl, hgood⟩
  | cons c queries ih =>
    obtain ⟨hlink, htimes⟩ := hq c mem_cons_self
    obtain ⟨cache1, hstate, hgood1⟩ := getStateFor_eq hlink htimes hgood
    obtain ⟨cache2, hrest, hgood2⟩ := ih (fun c hc => hq c (mem_cons_of_mem _ hc)) hgood1
    refine ⟨cache2, ?_, hgood2⟩
    simp only [runQueries, hstate, hrest, bind, Option.bind]
    rfl

/-- The state changes with the last block of a period only. -/
theorem stateFor_cons (h : Linked (b :: c))
    (hstart : k.beginTime ≠ alwaysActive ∧ k.beginTime ≠ neverActive) : k.stateFor (b :: c) =
      if k.period ∣ c.length + 1 then k.transition (k.stateFor c) (b :: c) else k.stateFor c := by
  have hmul := Nat.div_mul_le_self c.length k.period
  have hsame : k.periodState c (c.length / k.period) =
      k.periodState (b :: c) (c.length / k.period) :=
    periodState_drop (d := 1) h (by rw [length_cons]; omega)
  rw [stateFor_eq h hstart, stateFor_eq h.2 hstart, hsame, length_cons, Nat.succ_div]
  split_ifs with hdvd
  · have hend : (c.length / k.period + 1) * k.period = (b :: c).length := by
      rw [← Nat.succ_div_of_dvd hdvd, Nat.div_mul_cancel hdvd, length_cons]
    rw [periodState, getAncestor_sub_one h hend.le, hend, Nat.sub_self, drop_zero]
  · rfl

theorem stateFor_moves (h : Linked (b :: c)) : Moves (k.stateFor c) (k.stateFor (b :: c)) := by
  by_cases hstart : k.beginTime ≠ alwaysActive ∧ k.beginTime ≠ neverActive
  · rw [stateFor_cons h hstart]
    split_ifs
    · exact k.transition_moves _ _
    · exact .stay _
  · have hconst : k.stateFor c = k.stateFor (b :: c) := by
      rw [stateFor, stateFor]
      split_ifs with h1 h2
      · rfl
      · rfl
      · exact absurd ⟨h1, h2⟩ hstart
    rw [hconst]
    exact .stay _

/-- **The cache cannot be seen, and states move forward only.** -/
theorem getStateFor_transparent (k : Checker) (queries : List Branch)
    (h : ∀ c ∈ queries, Linked c ∧ TimesIncrease c) :
    (∃ cache, k.runQueries queries ∅ = some (queries.map k.stateFor, cache)) ∧
      ∀ b c, Linked (b :: c) → Moves (k.stateFor c) (k.stateFor (b :: c)) := by
  obtain ⟨cache, hrun, -⟩ := runQueries_eq queries h good_empty
  exact ⟨⟨cache, hrun⟩, fun b c => stateFor_moves⟩

/-- A chain of `n` blocks, ten minutes apart, that all signal with bit 1. -/
def signallingChain : ℕ → Branch
  | 0 => []
  | n + 1 =>
    { hash := BitVec.ofNat 256 n, nHeight := n, nVersion := 0x20000002, nTime := 600 * n,
      nBits := 0 } :: signallingChain n

theorem signallingChain_spec (n : ℕ) : Linked (signallingChain n) ∧
    TimesIncrease (signallingChain n) ∧ (signallingChain n).length = n ∧
      ∀ b ∈ signallingChain n, b.nTime + 600 ≤ 600 * n := by
  induction n with
  | zero => exact ⟨trivial, trivial, rfl, fun b hb => absurd hb not_mem_nil⟩
  | succ n ih =>
    obtain ⟨hlink, htimes, hlen, hmax⟩ := ih
    refine ⟨⟨hlen.symm, hlink⟩, ⟨fun hne => ?_, htimes⟩, congrArg (· + 1) hlen, fun b hb => ?_⟩
    · have hpos := length_pos_iff.2 hne
      have hle := getMedianTimePast_le (m := 600 * n - 600) (fun b hb => ?_) hne
      · show getMedianTimePast (signallingChain n) < 600 * n
        omega
      · have := hmax b hb
        omega
    · rcases mem_cons.1 hb with rfl | hb
      · show 600 * n + 600 ≤ 600 * (n + 1)
        omega
      · have := hmax b hb
        omega

/-- A deployment of bit 1 with periods of four blocks. -/
def shortDeployment : Checker := versionBitsChecker 1 1200 100000 0 4 3 (by decide)

theorem getStateFor_transparent_short :
    Linked (signallingChain 22) ∧ TimesIncrease (signallingChain 22) ∧
      ∃ cache, shortDeployment.runQueries [signallingChain 22, signallingChain 9] ∅ =
        some ([shortDeployment.stateFor (signallingChain 22),
          shortDeployment.stateFor (signallingChain 9)], cache) := by
  obtain ⟨hlink, htimes, -⟩ := signallingChain_spec 22
  obtain ⟨hlink', htimes', -⟩ := signallingChain_spec 9
  refine ⟨hlink, htimes, (getStateFor_transparent shortDeployment _ fun c hc => ?_).1⟩
  rcases mem_cons.1 hc with rfl | hc
  · exact ⟨hlink, htimes⟩
  · rw [mem_singleton.1 hc]
    exact ⟨hlink', htimes'⟩

/-! ### Since when -/

/-- The block at which the loop stops ends the period before the state began. -/
theorem head_drop_period (h : Linked c) {n : ℕ} (hpos : 0 < n) (hn : n ≤ c.length) :
    ∃ b, (c.drop (c.length - n)).head? = some b ∧ b.nHeight + 1 = n := by
  obtain ⟨b, hb, hheight⟩ := h.head_drop (show n - 1 < c.length by omega)
  rw [show c.length - 1 - (n - 1) = c.length - n by omega] at hb
  exact ⟨b, hb, by omega⟩

section

variable (h : Linked c) (hstart : k.beginTime ≠ alwaysActive ∧ k.beginTime ≠ neverActive)

include h hstart

theorem stateFor_drop {j : ℕ} (hj : j ≤ c.length) :
    k.stateFor (c.drop (c.length - j)) = k.periodState c (j / k.period) := by
  have hlen : (c.drop (c.length - j)).length = j := by
    rw [length_drop]
    omega
  have hmul := Nat.div_mul_le_self j k.period
  rw [stateFor_eq (h.suffix (drop_suffix _ _)) hstart, hlen, periodState_drop h (by omega)]

theorem blockState_eq {j : ℕ} (hj : j ≤ c.length) :
    k.blockState c j = k.periodState c (j / k.period) := by
  rw [blockState, getAncestor_sub_one h hj, stateFor_drop h hstart hj]

/-- The loop stops at the first of the periods that follow one another with the same state. -/
theorem sinceLoop_eq {m : ℕ} {s : ThresholdState} (ht : TimesIncrease c)
    (hm : (m + 1) * k.period ≤ c.length) (hs : k.periodState c (m + 1) = s) (hne : s ≠ .defined)
    (hn : m < n) (hgood : k.Good cache) :
    ∃ i ≤ m, ∃ cache', k.sinceLoop s n (c.drop (c.length - (m + 1) * k.period)) cache =
        some (c.drop (c.length - (i + 1) * k.period), cache') ∧
      (∀ j, i + 1 ≤ j → j ≤ m + 1 → k.periodState c j = s) ∧ k.periodState c i ≠ s := by
  induction n generalizing m cache with
  | zero => exact absurd hn (Nat.not_lt_zero _)
  | succ n ih =>
    have hsucc : (m + 1) * k.period = m * k.period + k.period := Nat.succ_mul m k.period
    have hsuf := drop_suffix (c.length - m * k.period) c
    have hprev : k.previousPeriodParent (c.drop (c.length - (m + 1) * k.period)) =
        c.drop (c.length - m * k.period) := by
      rw [previousPeriodParent_eq (h.suffix (drop_suffix _ _)) (by rw [length_drop]; omega),
        drop_drop]
      congr 1
      omega
    -- What holds when the loop stops here.
    have hhere : ∀ j, m + 1 ≤ j → j ≤ m + 1 → k.periodState c j = s := by
      intro j h1 h2
      rw [le_antisymm h2 h1, hs]
    simp only [sinceLoop, hprev]
    by_cases hnil : c.drop (c.length - m * k.period) = []
    · have hzero : m * k.period = 0 := by
        have := drop_eq_nil_iff.1 hnil
        omega
      obtain rfl := (mul_eq_zero.1 hzero).resolve_right k.period_pos.ne'
      rw [if_pos hnil]
      exact ⟨0, le_rfl, cache, rfl, hhere, fun heq => hne heq.symm⟩
    · obtain ⟨cache1, hstate, hgood1⟩ := getStateFor_eq (h.suffix hsuf) (ht.suffix hsuf) hgood
      rw [stateFor_drop h hstart (by omega), Nat.mul_div_cancel _ k.period_pos] at hstate
      simp only [if_neg hnil, hstate, bind, Option.bind]
      split_ifs with hsame
      · cases m with
        | zero => exact absurd hsame.symm hne
        | succ m =>
          obtain ⟨i, hi, cache2, hloop, hrange, hbelow⟩ := ih (by omega) hsame (by omega) hgood1
          refine ⟨i, by omega, cache2, hloop, fun j h1 h2 => ?_, hbelow⟩
          rcases Nat.le_or_eq_of_le_succ h2 with hj | rfl
          · exact hrange j h1 hj
          · exact hs
      · exact ⟨m, le_rfl, cache1, rfl, hhere, hsame⟩

/-- `h` is the height at which the state of the block after `c` began. -/
structure IsSince (k : Checker) (c : Branch) (h : ℕ) : Prop where
  dvd : k.period ∣ h
  of_defined : k.stateFor c = .defined → h = 0
  pos : k.stateFor c ≠ .defined → 0 < h
  le : h ≤ nextHeight c
  since : ∀ j, h ≤ j → j ≤ nextHeight c → k.stateFor c ≠ .defined →
    k.blockState c j = k.stateFor c
  below : k.stateFor c ≠ .defined → k.blockState c (h - 1) ≠ k.stateFor c
  least : k.stateFor c ≠ .defined → ∀ h' ≤ nextHeight c,
    (∀ j, h' ≤ j → j ≤ nextHeight c → k.blockState c j = k.stateFor c) → h ≤ h'

/-- The state began with the first of the last periods that have it. -/
theorem isSince_of_periods {m i : ℕ} (hm : c.length / k.period = m + 1) (hi : i ≤ m)
    (hne : k.stateFor c ≠ .defined)
    (hrange : ∀ j, i + 1 ≤ j → j ≤ m + 1 → k.periodState c j = k.stateFor c)
    (hbelow : k.periodState c i ≠ k.stateFor c) : k.IsSince c ((i + 1) * k.period) := by
  have hlen := nextHeight_eq_length h
  have hsucc : (i + 1) * k.period = i * k.period + k.period := Nat.succ_mul i k.period
  have hpos := k.period_pos
  have hle : (i + 1) * k.period ≤ c.length := (Nat.le_div_iff_mul_le hpos).1 (by rw [hm]; omega)
  have hstop : k.blockState c ((i + 1) * k.period - 1) ≠ k.stateFor c := by
    have hdiv : ((i + 1) * k.period - 1) / k.period = i := by
      rw [Nat.div_eq_iff hpos]
      omega
    rw [blockState_eq h hstart (by omega), hdiv]
    exact hbelow
  refine ⟨Dvd.intro_left _ rfl, fun hdef => absurd hdef hne, fun _ => by omega, by omega,
    fun j h1 h2 _ => ?_, fun _ => hstop, fun _ h' _ hall => ?_⟩
  · rw [hlen] at h2
    rw [blockState_eq h hstart h2]
    exact hrange _ ((Nat.le_div_iff_mul_le hpos).2 h1) (hm ▸ Nat.div_le_div_right h2)
  · by_contra hlt
    exact hstop (hall _ (by omega) (by omega))

theorem getStateSinceHeightFor_eq (ht : TimesIncrease c) (hgood : k.Good cache) :
    ∃ (height : ℕ) (cache' : Cache), k.getStateSinceHeightFor c cache = some (↑height, cache') ∧
      k.IsSince c height := by
  obtain ⟨cache1, hstate, hgood1⟩ := getStateFor_eq h ht hgood
  have hstart' : ¬ (k.beginTime = alwaysActive ∨ k.beginTime = neverActive) := by tauto
  simp only [getStateSinceHeightFor, if_neg hstart', hstate, bind, Option.bind]
  by_cases hdef : k.stateFor c = .defined
  · rw [if_pos hdef]
    exact ⟨0, cache1, rfl, ⟨dvd_zero _, fun _ => rfl, absurd hdef, Nat.zero_le _,
      fun _ _ _ hne => absurd hdef hne, absurd hdef, absurd hdef⟩⟩
  rw [if_neg hdef]
  have hcur := stateFor_eq h hstart
  -- The present period is not the first one, which is `DEFINED`.
  obtain ⟨m, hm⟩ : ∃ m, c.length / k.period = m + 1 := by
    cases hq : c.length / k.period with
    | zero =>
      rw [hcur, hq] at hdef
      exact absurd rfl hdef
    | succ m => exact ⟨m, rfl⟩
  rw [hm] at hcur
  have hmod : c.length % k.period + (m + 1) * k.period = c.length := by
    rw [← hm, mul_comm]
    exact Nat.mod_add_div _ _
  have hpos := k.period_pos
  have hmle := Nat.le_mul_of_pos_right (m + 1) hpos
  have hfirst : k.periodParent c = c.drop (c.length - (m + 1) * k.period) := by
    rw [periodParent_eq h]
    congr 1
    omega
  have hlen : (c.drop (c.length - (m + 1) * k.period)).length = (m + 1) * k.period := by
    rw [length_drop]
    omega
  have hnonempty : c.drop (c.length - (m + 1) * k.period) ≠ [] := length_pos_iff.1 (by omega)
  obtain ⟨i, hi, cache2, hloop, hrange, hbelow⟩ := sinceLoop_eq (m := m)
    (n := (m + 1) * k.period + 1) h hstart ht (by omega) hcur.symm hdef (by omega) hgood1
  have hile := Nat.mul_le_mul_right k.period (show i + 1 ≤ m + 1 by omega)
  obtain ⟨b, hb, hheight⟩ := head_drop_period h (n := (i + 1) * k.period)
    (Nat.mul_pos (Nat.succ_pos i) hpos) (by omega)
  refine ⟨(i + 1) * k.period, cache2, ?_, isSince_of_periods h hstart hm hi hdef hrange hbelow⟩
  rw [hfirst, if_neg hnonempty, hlen, hloop]
  simp only [hb]
  rw [← hheight]
  rfl

end

/-- **The height since which the state holds is exact**, whatever was asked before. -/
theorem getStateSinceHeightFor_exact (k : Checker)
    (hstart : k.beginTime ≠ alwaysActive ∧ k.beginTime ≠ neverActive) (queries : List Branch)
    (hq : ∀ c ∈ queries, Linked c ∧ TimesIncrease c) (c : Branch) (h : Linked c ∧ TimesIncrease c) :
    ∃ states cache, k.runQueries queries ∅ = some (states, cache) ∧
      ∃ (height : ℕ) (cache' : Cache), k.getStateSinceHeightFor c cache = some (↑height, cache') ∧
        k.IsSince c height := by
  obtain ⟨cache, hrun, hgood⟩ := runQueries_eq queries hq good_empty
  exact ⟨_, cache, hrun, getStateSinceHeightFor_eq h.1 hstart h.2 hgood⟩

theorem getStateSinceHeightFor_short :
    Linked (signallingChain 22) ∧ TimesIncrease (signallingChain 22) ∧
      ∃ states cache, shortDeployment.runQueries [signallingChain 9] ∅ = some (states, cache) ∧
        ∃ (height : ℕ) (cache' : Cache),
          shortDeployment.getStateSinceHeightFor (signallingChain 22) cache =
            some (↑height, cache') ∧ shortDeployment.IsSince (signallingChain 22) height := by
  obtain ⟨hlink, htimes, -⟩ := signallingChain_spec 22
  obtain ⟨hlink', htimes', -⟩ := signallingChain_spec 9
  refine ⟨hlink, htimes, getStateSinceHeightFor_exact shortDeployment ⟨by decide, by decide⟩
    [signallingChain 9] (fun c hc => ?_) (signallingChain 22) ⟨hlink, htimes⟩⟩
  rw [mem_singleton.1 hc]
  exact ⟨hlink', htimes'⟩

/-! ### `GetStateStatisticsFor` -/

/-- `BIP9Stats`. -/
structure BIP9Stats where
  period : ℕ
  threshold : ℤ
  elapsed : ℕ := 0
  count : ℕ := 0
  possible : Bool := false

/-- The loop of `GetStateStatisticsFor`, down to `blocks_in_period = 0`. -/
def statisticsLoop (k : Checker) : ℕ → Branch → ℕ → ℕ → List Bool → Option (ℕ × ℕ × List Bool)
  | 0, _, elapsed, count, signallingBlocks => some (elapsed, count, signallingBlocks)
  | _ + 1, [], _, _, _ => none
  | blocksInPeriod + 1, b :: pprev, elapsed, count, signallingBlocks =>
    if k.condition (b :: pprev) then
      statisticsLoop k blocksInPeriod pprev (elapsed + 1) (count + 1)
        (signallingBlocks.set blocksInPeriod true)
    else statisticsLoop k blocksInPeriod pprev (elapsed + 1) count signallingBlocks

/-- `GetStateStatisticsFor`, with `signalling_blocks`; `none` if it follows a null pointer. -/
def getStateStatisticsFor (k : Checker) : Branch → Option (BIP9Stats × List Bool)
  | [] => some (⟨k.period, k.threshold, 0, 0, false⟩, [])
  | b :: pprev => do
    let blocksInPeriod := 1 + b.nHeight % k.period
    let (elapsed, count, signallingBlocks) ← k.statisticsLoop blocksInPeriod (b :: pprev) 0 0
      (replicate blocksInPeriod false)
    return (⟨k.period, k.threshold, elapsed, count,
      (k.period : ℤ) - k.threshold ≥ (elapsed : ℤ) - count⟩, signallingBlocks)

theorem statisticsLoop_eq (hn : n ≤ c.length) (elapsed count : ℕ) (rest : List Bool) :
    k.statisticsLoop n c elapsed count (replicate n false ++ rest) =
      some (elapsed + n, count + (c.tails.take n).countP k.condition,
        ((c.tails.take n).map k.condition).reverse ++ rest) := by
  induction n generalizing c elapsed count rest with
  | zero => rfl
  | succ n ih =>
    cases c with
    | nil => simp at hn
    | cons b c =>
      have hset : (replicate n false ++ false :: rest).set n true =
          replicate n false ++ true :: rest := by
        simp
      have hle : n ≤ c.length := by simpa using hn
      rw [statisticsLoop, replicate_succ', append_assoc, singleton_append, tails_cons,
        take_succ_cons, countP_cons, map_cons, reverse_cons, append_assoc, singleton_append]
      split_ifs with hcond
      · rw [hset, ih hle, hcond, Nat.add_right_comm elapsed, Nat.add_assoc count, Nat.add_comm 1]
        rfl
      · rw [ih hle, Bool.eq_false_iff.2 hcond, Nat.add_right_comm elapsed]
        rfl

/-- The count when the blocks `e` that follow signal. -/
theorem countP_append_tails {e : Branch}
    (he : ∀ i < e.length, k.condition ((e ++ c).drop i) = true) :
    ((e ++ c).tails.take (e.length + n)).countP k.condition =
      e.length + (c.tails.take n).countP k.condition := by
  induction e with
  | nil => simp
  | cons a e ih =>
    have hfirst : k.condition (a :: (e ++ c)) = true := he 0 (Nat.succ_pos _)
    have hrest := ih fun i hi => he (i + 1) (Nat.succ_lt_succ hi)
    rw [cons_append, tails_cons, length_cons, Nat.add_right_comm, take_succ_cons,
      countP_cons, hrest, if_pos hfirst]
    omega

/-- A block with the bit set can follow any block. -/
theorem exists_signalling {bit : ℕ} (hbit : bit < 29) (h : Linked c) (n : ℕ) :
    ∃ e : Branch, e.length = n ∧ Linked (e ++ c) ∧
      ∀ i < n, versionBitsCondition bit ((e ++ c).drop i) = true := by
  have hversion : ∀ bit < 29, (BitVec.ofInt 32 (0x20000000 + 2 ^ bit) &&& 0xE0000000#32 ==
      0x20000000#32 &&
      BitVec.ofInt 32 (0x20000000 + 2 ^ bit) &&& (1#32 <<< bit) != 0#32) = true := by decide
  induction n with
  | zero => exact ⟨[], rfl, h, nofun⟩
  | succ n ih =>
    obtain ⟨e, he, hlink, hsignal⟩ := ih
    refine ⟨{ blockAt (e ++ c).length 0 0 with nVersion := 0x20000000 + 2 ^ bit } :: e,
      congrArg (· + 1) he, ⟨rfl, hlink⟩, fun i hi => ?_⟩
    cases i with
    | zero => exact hversion bit hbit
    | succ i => exact hsignal i (by omega)

/-- **The statistics agree with the states.**  At the end of a period that is `STARTED` the count
decides; before, `possible` says whether blocks that signal can still reach the threshold. -/
theorem statistics_agree (bit : ℕ) (hbit : bit < 29) (k : Checker)
    (hk : k.condition = versionBitsCondition bit) (b : BlockIndex) (c : Branch)
    (h : Linked (b :: c)) :
    ∃ stats signallingBlocks, k.getStateStatisticsFor (b :: c) = some (stats, signallingBlocks) ∧
      (∀ cache, k.Good cache → TimesIncrease (b :: c) → (b.nHeight + 1) % k.period = 0 →
        (k.getStateFor c cache).map Prod.fst = some .started →
          ((k.getStateFor (b :: c) cache).map Prod.fst = some .lockedIn ↔
            k.threshold ≤ stats.count)) ∧
      (stats.possible = true ↔ ∃ e, Linked (e ++ b :: c) ∧ e.length + stats.elapsed = k.period ∧
        (∀ i < e.length, k.condition ((e ++ b :: c).drop i) = true) ∧
        k.threshold ≤ k.signalling (e ++ b :: c)) ∧
      stats.elapsed = 1 + b.nHeight % k.period ∧
      signallingBlocks.reverse = ((b :: c).tails.take stats.elapsed).map k.condition := by
  have hmod := Nat.mod_lt b.nHeight k.period_pos
  have hle : 1 + b.nHeight % k.period ≤ (b :: c).length := by
    have := Nat.mod_le b.nHeight k.period
    rw [length_cons, ← h.1]
    omega
  have hloop := statisticsLoop_eq (k := k) hle 0 0 []
  rw [append_nil, append_nil, Nat.zero_add, Nat.zero_add] at hloop
  refine ⟨_, _, by rw [getStateStatisticsFor, hloop]; rfl,
    fun cache hgood ht hlast hstarted => ?_, ?_, rfl, reverse_reverse _⟩
  · obtain ⟨_, hprev, -⟩ := getStateFor_eq h.2 ht.2 hgood
    obtain ⟨_, hstate, -⟩ := getStateFor_eq h ht hgood
    simp only [hprev, hstate, Option.map_some, Option.some_inj] at hstarted ⊢
    have hstart : k.beginTime ≠ alwaysActive ∧ k.beginTime ≠ neverActive := by
      constructor <;> intro he <;> simp [stateFor, he, alwaysActive, neverActive] at hstarted
    have hperiod : 1 + b.nHeight % k.period = k.period := by
      by_contra hne
      rw [← Nat.mod_add_mod, Nat.mod_eq_of_lt (by omega)] at hlast
      omega
    rw [stateFor_cons h hstart, ← h.1, if_pos (Nat.dvd_of_mod_eq_zero hlast), hstarted, hperiod,
      transition, ← signalling]
    split_ifs <;> simp [*]
  · -- with blocks that signal up to the end, the count grows by their number
    have hcount : ∀ e : Branch, e.length + (1 + b.nHeight % k.period) = k.period →
        (∀ i < e.length, k.condition ((e ++ b :: c).drop i) = true) →
        k.signalling (e ++ b :: c) =
          e.length + ((b :: c).tails.take (1 + b.nHeight % k.period)).countP k.condition := by
      intro e hlen he
      have hsum := countP_append_tails (n := 1 + b.nHeight % k.period) he
      rwa [hlen] at hsum
    dsimp only
    rw [decide_eq_true_eq]
    constructor
    · intro hpossible
      obtain ⟨e, he, hlink, hsignal⟩ :=
        exists_signalling hbit h (k.period - (1 + b.nHeight % k.period))
      rw [← he, ← hk] at hsignal
      have hlen : e.length + (1 + b.nHeight % k.period) = k.period := by omega
      refine ⟨e, hlink, hlen, hsignal, ?_⟩
      rw [hcount e hlen hsignal]
      omega
    · rintro ⟨e, -, hlen, hsignal, hreach⟩
      rw [hcount e hlen hsignal] at hreach
      omega

theorem stateFor_signallingChain : shortDeployment.stateFor (signallingChain 7) = .started := by
  have hmedian : 1200 ≤ getMedianTimePast (signallingChain 4) :=
    (le_getMedianTimePast_iff (cons_ne_nil _ _)).2 (by decide)
  exact if_pos (Int.ofNat_le.2 hmedian)

/-- The deployment is started in the second period, whose blocks all signal. -/
theorem statistics_agree_short : ∃ stats signallingBlocks,
    shortDeployment.getStateStatisticsFor (signallingChain 8) = some (stats, signallingBlocks) ∧
      stats.elapsed = 4 ∧ (shortDeployment.getStateFor (signallingChain 7) ∅).map Prod.fst =
        some .started ∧ ((shortDeployment.getStateFor (signallingChain 8) ∅).map Prod.fst =
          some .lockedIn ↔ (3 : ℤ) ≤ stats.count) := by
  obtain ⟨hlink, htimes, -⟩ := signallingChain_spec 8
  obtain ⟨stats, blocks, hstats, hlocked, -, helapsed, -⟩ := statistics_agree 1 (by decide)
    shortDeployment rfl _ (signallingChain 7) hlink
  obtain ⟨_, hstate, -⟩ := getStateFor_eq hlink.2 htimes.2 (good_empty (k := shortDeployment))
  have hstarted : (shortDeployment.getStateFor (signallingChain 7) ∅).map Prod.fst =
      some .started := by
    rw [hstate, stateFor_signallingChain, Option.map_some]
  exact ⟨stats, blocks, hstats, helapsed, hstarted, hlocked ∅ good_empty htimes rfl hstarted⟩

end Checker

end KPCoin.Chain
