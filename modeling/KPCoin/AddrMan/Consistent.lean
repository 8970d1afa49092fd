import KPCoin.AddrMan.Calls
import KPCoin.AddrMan.Check

/-!
# The address manager stays consistent

`addrman_consistent` : as long as the counter of the identifiers does not overflow, the check finds
nothing wrong, every entry is reachable through `mapAddr`, and no call meets a failed assertion.

The counter is an `int`.  A peer that makes the address manager forget one address for every one it
learns can run it around (`addrman_id_overflow`): the entry with the identifier `-1` then stands in
a slot that looks empty.
-/

namespace KPCoin.AddrMan

open Program AList State

section Consistent

variable {Service NetAddr Network : Type} [DecidableEq Service] [DecidableEq NetAddr]
  [DecidableEq Network] {P : Params Service NetAddr Network} {s s' : State Service NetAddr Network}

/-- **The tables are never corrupted** in a run in which the identifiers do not run out: the check
passes, every entry is found through its address, there is none for `-1`, and the next call returns
instead of failing an assertion. -/
theorem addrman_consistent (P : Params Service NetAddr Network) (hkey : P.nKey ≠ 0)
    (s : State Service NetAddr Network) (h : ((system P).restrict (KeepsIds P)).Reachable s) :
    checkAddrman P s = 0 ∧
      (∀ nId info, s.mapInfo.lookup nId = some info → s.mapAddr.lookup info.addr = some nId) ∧
      (-1 : ℤ) ∉ s.mapInfo ∧
      ∀ l : Call Service NetAddr Network, l.Timed → KeepsIds P s l →
        ∃ s', l.run P s = .ok () s' := by
  have hinv := reachable_inv h
  refine ⟨hinv.checkAddrman hkey, fun nId info hl => hinv.indexed.addr hl, fun hmem => ?_, ?_⟩
  · obtain ⟨info, hl⟩ := Option.isSome_iff_exists.1 (lookup_isSome.2 hmem)
    exact hinv.indexed.ne_neg_one hl rfl
  · intro l htimed hids
    obtain ⟨_, s', hrun, -⟩ := (wp_run hinv htimed hids).exists_ok
    exact ⟨s', hrun⟩

instance (addr : Address Service) : Decidable (IdLeft P s addr) :=
  inferInstanceAs (Decidable (_ → _ → _))

/-- Whether there are identifiers left can be computed. -/
def decidableIdsLeft (source : NetAddr) (timePenalty : ℤ) :
    (vAddr : List (Address Service × Draw)) → (s : State Service NetAddr Network) →
      Decidable (IdsLeft P source timePenalty s vAddr)
  | [], _ => .isTrue trivial
  | x :: rest, s =>
    have : DecidablePred fun s' => IdsLeft P source timePenalty s' rest :=
      decidableIdsLeft source timePenalty rest
    inferInstanceAs (Decidable (IdLeft P s x.1 ∧ wp (addSingle P x.1 source timePenalty x.2)
      (fun _ s' => IdsLeft P source timePenalty s' rest) (fun _ => True) s))

instance (s : State Service NetAddr Network) : (l : Call Service NetAddr Network) →
    Decidable (KeepsIds P s l)
  | .add vAddr source timePenalty => decidableIdsLeft source timePenalty vAddr s
  | .good _ _ => .isTrue trivial
  | .attempt _ _ _ => .isTrue trivial
  | .connected _ _ => .isTrue trivial
  | .setServices _ _ => .isTrue trivial
  | .resolveCollisions _ => .isTrue trivial
  | .selectTriedCollision _ => .isTrue trivial
  | .select _ _ _ _ => .isTrue trivial
  | .getAddr _ _ _ _ _ _ => .isTrue trivial

/-- Run a call if it finds the identifiers that it needs. -/
def runKeeping (P : Params Service NetAddr Network) (s : State Service NetAddr Network)
    (l : Call Service NetAddr Network) : Option (State Service NetAddr Network) :=
  if KeepsIds P s l then
    match l.run P s with
    | .ok _ s' => some s'
    | .error _ _ => none
  else none

theorem reachable_runKeeping {ls : List (Call Service NetAddr Network)} (htimed : ∀ l ∈ ls, l.Timed)
    (h : ((system P).restrict (KeepsIds P)).Reachable s)
    (hrun : ls.foldlM (runKeeping P) s = some s') :
    ((system P).restrict (KeepsIds P)).Reachable s' := by
  induction ls generalizing s with
  | nil =>
    cases hrun
    exact h
  | cons l ls ih =>
    obtain ⟨t, ht, hrest⟩ := Option.bind_eq_some_iff.1 hrun
    unfold runKeeping at ht
    split_ifs at ht with hids
    have hstep : l.run P s = .ok () t := by
      cases hl : l.run P s with
      | ok a u =>
        rw [hl] at ht
        rw [Option.some.inj ht]
      | error e u =>
        rw [hl] at ht
        cases ht
    exact ih (fun l' hl' => htimed l' (List.mem_cons_of_mem _ hl'))
      (h.tail ⟨⟨htimed l List.mem_cons_self, hstep⟩, hids⟩) hrest

end Consistent

/-- Two addresses, of which each has the slots of the other. -/
def twoAddresses : Params Bool Unit Unit where
  nKey := 1
  getNetwork _ := ()
  getNetClass _ := ()
  isRoutable _ := true
  isValid _ := true
  netAddr _ := ()
  getTriedBucket _ := 0
  getNewBucket _ _ := 0
  getBucketPosition _ _ _ := 0
  nullService := false
  nullNetAddr := ()

/-- An announcement of an address that was last seen long ago. -/
def oldAddress (x : Bool) : Address Bool := ⟨x, 1, 0⟩

/-- The entry of such an address. -/
def oldInfo (x : Bool) (nRefCount nRandomPos : ℤ) : AddrInfo Bool Unit :=
  { toAddress := oldAddress x, source := (), nRefCount, nRandomPos }

/-- The announcement is made a year after. -/
def announce (x : Bool) : Call Bool Unit Unit :=
  .add [(oldAddress x, ⟨365 * 24 * 60 * 60, 365 * 24 * 60 * 60, 0⟩)] () 0

variable (x : Bool)

theorem announce_timed : (announce x).Timed := by
  intro y hy
  obtain rfl := List.mem_singleton.1 hy
  have hyear : (0 : ℤ) < 365 * 24 * 60 * 60 := by decide
  exact ⟨one_pos, hyear, hyear⟩

/-- Only `x` is known, with the identifier `i`, and the next one is `j`. -/
def holding (x : Bool) (i j : ℤ) : State Bool Unit Unit where
  nIdCount := j
  mapInfo := singleton i (oldInfo x 1 0)
  mapAddr := singleton x i
  vRandom := [i]
  nNew := 1
  vvNew := Function.update (fun _ => -1) (0, 0) i
  networkCounts := singleton () (1, 0)

/-- `x` is in the slot, and there is a new entry for the other address. -/
def holdingBoth (x : Bool) (i j k : ℤ) : State Bool Unit Unit where
  nIdCount := k
  mapInfo := (singleton i (oldInfo x 1 0)).insert j (oldInfo (!x) 0 1)
  mapAddr := (singleton x i).insert (!x) j
  vRandom := [i, j]
  nNew := 2
  vvNew := Function.update (fun _ => -1) (0, 0) i
  networkCounts := singleton () (2, 0)

theorem create_holding (i j : ℤ) :
    ((holding x i j).create twoAddresses (oldAddress (!x)) ()).modInfo j
      (fun info => { info with nTime := max 0 (info.nTime - 0) }) =
        holdingBoth x i j (increment j) := by
  simp [State.create, State.countNew, State.modInfo, holding, Map.modify]
  rfl

variable {i j : ℤ} (n : ℕ)

theorem replace_holding (hij : i ≠ j) (k : ℤ) :
    ((((holdingBoth x i j k).dropRef (0, 0) i).swapRandom 0 1 i j).remove twoAddresses i x).addRef
      (0, 0) j = holding (!x) j k := by
  simp [State.remove, State.countNew, State.modInfo, State.dropRef, State.setNew, State.swapRandom,
    addRef, holding, holdingBoth, Map.modify, oldInfo, AList.insert, AList.singleton,
    AList.lookup, AList.erase, hij, hij.symm]

theorem lookup_holdingBoth_other (hij : i ≠ j) (k : ℤ) :
    (holdingBoth x i j k).mapInfo.lookup i = some (oldInfo x 1 0) :=
  (lookup_insert_ne hij).trans (by simp [lookup])

theorem wp_clearNew_holdingBoth (hij : i ≠ j) (hi : i ≠ -1) (k : ℤ) :
    wp (clearNew twoAddresses (0, 0)) (fun _ s' => s' =
      (((holdingBoth x i j k).dropRef (0, 0) i).swapRandom 0 1 i j).remove twoAddresses i x)
      (fun _ => False) (holdingBoth x i j k) := by
  have hslot : (holdingBoth x i j k).vvNew (0, 0) = i := by simp [holdingBoth]
  have hl := lookup_holdingBoth_other x hij k
  have hl' := lookup_dropRef_self hl (0, 0)
  have hmem : i ∈ ((holdingBoth x i j k).dropRef (0, 0) i).mapInfo :=
    lookup_isSome.1 (by simp [hl'])
  have hmem' : j ∈ ((holdingBoth x i j k).dropRef (0, 0) i).mapInfo := by
    refine lookup_isSome.1 ?_
    rw [dropRef, setNew, lookup_modInfo_of_ne hij.symm]
    exact Option.isSome_of_mem (lookup_insert _)
  rw [clearNew, wp_bind, wp_get, hslot, wp_ite]
  refine ⟨fun _ => ?_, absurd hi⟩
  simp only [wp_bind, wp_getInfo hl, wp_assert, wp_modify]
  refine ⟨Bool.noConfusion, fun _ => ?_⟩
  rw [wp_ite]
  refine ⟨fun _ => ?_, absurd rfl⟩
  simp only [delete, wp_bind, wp_get, wp_assert, wp_getInfo hl', hmem]
  refine ⟨Bool.noConfusion, fun _ => ⟨Bool.noConfusion, fun _ => ⟨Bool.noConfusion, fun _ => ?_⟩⟩⟩
  -- the entry moves to the end of the random order
  change wp (swapRandom 0 1) _ _ _
  rw [swapRandom, wp_ite]
  refine ⟨(absurd · zero_ne_one), fun _ => ?_⟩
  have h0 : ((holdingBoth x i j k).dropRef (0, 0) i).vRandom[0]? = some i := rfl
  have h1 : ((holdingBoth x i j k).dropRef (0, 0) i).vRandom[1]? = some j := rfl
  simp only [wp_bind, wp_get, h0, h1, wp_assert, hmem, hmem', wp_set, wp_modify]
  exact ⟨Bool.noConfusion, fun _ => ⟨Bool.noConfusion, fun _ => rfl⟩⟩

/-- **An announcement replaces the address**, as the one known is too old to keep. -/
theorem run_announce (hij : i ≠ j) (hi : i ≠ -1) :
    (announce (!x)).run twoAddresses (holding x i j) = .ok () (holding (!x) j (increment j)) := by
  have hadd : wp (addSingle twoAddresses (oldAddress (!x)) ()  0
      ⟨365 * 24 * 60 * 60, 365 * 24 * 60 * 60, 0⟩) (fun _ s' => s' = holding (!x) j (increment j))
      (fun _ => False) (holding x i j) := by
    have hfind : (holding x i j).find (oldAddress (!x)).addr = none := by
      cases x <;> simp [find, oldAddress, holding, lookup]
    have hnewSlot : twoAddresses.newSlot (oldInfo (!x) 0 1).addr () = (0, 0) := rfl
    have hslot : (holdingBoth x i j (increment j)).vvNew (0, 0) = i := by simp [holdingBoth]
    have hl : (holdingBoth x i j (increment j)).mapInfo.lookup j = _ := lookup_insert _
    have hl' := lookup_holdingBoth_other x hij (increment j)
    rw [addSingle, wp_ite]
    refine ⟨(absurd · Bool.false_ne_true), fun _ => ?_⟩
    simp only [wp_bind, wp_get, hfind]
    change wp (addToNew twoAddresses j () _) _ _ (((holding x i j).create twoAddresses
      (oldAddress (!x)) ()).modInfo j fun info => { info with nTime := max 0 (info.nTime - 0) })
    rw [create_holding, addToNew, wp_bind, wp_getInfo hl, wp_bind, wp_get]
    simp only [hnewSlot, hslot]
    rw [wp_ite]
    refine ⟨fun _ => ?_, absurd hij⟩
    rw [wp_bind, overwrites, wp_ite]
    refine ⟨fun h => absurd h hi, fun _ => ?_⟩
    rw [wp_bind, wp_getInfo hl', wp_pure, wp_bind, insertOrDelete, wp_ite]
    refine ⟨fun _ => ?_, absurd rfl⟩
    rw [wp_bind]
    refine (wp_clearNew_holdingBoth x hij hi (increment j)).mono ?_ fun _ => id
    rintro - _ rfl
    exact replace_holding x hij (increment j)
  have hrun : wp ((announce (!x)).run twoAddresses) (fun _ s' => s' = holding (!x) j (increment j))
      (fun _ => False) (holding x i j) := by
    refine wp_quietly ?_
    rw [add, wp_bind, List.foldlM_cons, wp_bind, wp_bind]
    exact hadd.mono (fun _ _ h => h) fun _ => id
  obtain ⟨_, s', hok, rfl⟩ := hrun.exists_ok
  exact hok

/-- Both addresses are announced and used: the second collides with the first. -/
def collide : List (Call Bool Unit Unit) :=
  [announce false, .good false 1, announce true, .good true 2]

theorem collide_timed : ∀ l ∈ collide, l.Timed := by
  intro l hl
  simp only [collide, List.mem_cons, List.not_mem_nil, or_false] at hl
  rcases hl with rfl | rfl | rfl | rfl
  · exact announce_timed false
  · exact one_pos
  · exact announce_timed true
  · exact two_pos

/-- In a run in which an address waits for the slot of another in the tried table, the next call
resolves the collision. -/
theorem addrman_consistent_collide : ∃ s, ((system twoAddresses).restrict
    (KeepsIds twoAddresses)).Reachable s ∧ (s.nNew, s.nTried) = (1, 1) ∧ s.triedCollisions = [1] ∧
    checkAddrman twoAddresses s = 0 ∧
    ∃ s', (Call.resolveCollisions fun _ => 3).run twoAddresses s = .ok () s' := by
  have hrun : ((collide.foldlM (runKeeping twoAddresses) {}).map fun s =>
      ((s.nNew, s.nTried), s.triedCollisions)) = some ((1, 1), [1]) := by
    decide +kernel
  obtain ⟨s, hs, hview⟩ := Option.map_eq_some_iff.1 hrun
  have hreach := reachable_runKeeping collide_timed (LTS.Reachable.start rfl) hs
  obtain ⟨hcheck, -, -, hcalls⟩ := addrman_consistent twoAddresses (by decide) s hreach
  exact ⟨s, hreach, congrArg Prod.fst hview, congrArg Prod.snd hview, hcheck,
    hcalls (.resolveCollisions fun _ => 3) (fun _ => three_pos) trivial⟩

/-- The identifier after `n` increments. -/
def idAt (n : ℕ) : ℤ := Int.bmod n (2 ^ 32)

theorem increment_idAt : increment (idAt n) = idAt (n + 1) := by
  have h : Int.bmod (Int.bmod n (2 ^ 32) + 1) (2 ^ 32) = Int.bmod (n + 1) (2 ^ 32) :=
    Int.bmod_add_bmod
  exact h

theorem idAt_eq : idAt n = if (n : ℤ) % 4294967296 < 2147483648 then (n : ℤ) % 4294967296
    else (n : ℤ) % 4294967296 - 4294967296 := by
  exact Int.bmod_def n (2 ^ 32)

theorem idAt_ne : idAt n ≠ idAt (n + 1) := by
  rw [idAt_eq, idAt_eq]
  split_ifs <;> omega

theorem idAt_ne_neg_one {n : ℕ} (h : n < 4294967295) : idAt n ≠ -1 := by
  rw [idAt_eq]
  split_ifs <;> omega

/-- The two addresses are announced in turn, as often as one likes before an identifier is `-1`. -/
theorem reachable_holding {n : ℕ} (hn : n < 4294967296) :
    (system twoAddresses).Reachable (holding (decide (n % 2 = 1)) (idAt n) (idAt (n + 1))) := by
  induction n with
  | zero =>
    refine LTS.Reachable.tail (LTS.Reachable.start rfl) ⟨announce_timed false, ?_⟩
    rfl
  | succ n ih =>
    have hne : idAt n ≠ -1 := idAt_ne_neg_one (by omega)
    have hrun := run_announce (decide (n % 2 = 1)) (idAt_ne n) hne
    rw [increment_idAt] at hrun
    have hparity : (!decide (n % 2 = 1)) = decide ((n + 1) % 2 = 1) := by
      rw [← decide_not]
      exact decide_eq_decide.2 (by omega)
    rw [hparity] at hrun
    exact (ih (by omega)).tail ⟨announce_timed _, hrun⟩

theorem foldlM_skip {ι α : Type} {f : α → ι → Except ℤ α} (hskip : ∀ a i, f a i = pure a)
    (l : List ι) (a : α) : l.foldlM f a = pure a := by
  induction l with
  | nil => rfl
  | cons i l ih => rw [List.foldlM_cons, hskip, pure_bind, ih]

/-- What is left of the check where the loops over the slots find nothing.  It is stated for any
tables, so that nothing runs through the slots of the ones below. -/
theorem checkTables_skip {P : Params Bool Unit Unit} {s : State Bool Unit Unit}
    (htried : ∀ a i, checkTriedSlot P s a i = pure a)
    (hnew : ∀ a i, checkNewSlot P s a i = pure a) :
    checkTables P s = (do
      failIf ((s.vRandom.length : ℤ) != s.nTried + s.nNew) (-7)
      let t ← s.mapInfo.entries.foldlM (checkEntry P s) {}
      failIf ((t.setTried.card : ℤ) != s.nTried) (-9)
      failIf ((t.mapNew.keys.length : ℤ) != s.nNew) (-10)
      failIf (t.setTried.card != 0) (-13)
      failIf (t.mapNew.keys.length != 0) (-15)
      failIf (P.nKey == 0) (-16)
      failIf (s.networkCounts.keys.length < t.localCounts.keys.length) (-20)
      failIf (s.networkCounts.entries.any fun x => (t.localCounts.lookup x.1).getD 0 != x.2)
        (-21)) := by
  simp [checkTables, foldlM_skip htried, foldlM_skip hnew]

/-- An entry whose identifier is `-1` is in no slot that the check looks at. -/
theorem checkAddrman_neg_one : checkAddrman twoAddresses (holding true (-1) 0) = -15 := by
  have htried : ∀ a i, checkTriedSlot twoAddresses (holding true (-1) 0) a i = pure a :=
    fun _ _ => rfl
  have hnew : ∀ a i, checkNewSlot twoAddresses (holding true (-1) 0) a i = pure a := by
    intro a i
    have hempty : (holding true (-1) 0).vvNew i = -1 := by simp [holding]
    rw [checkNewSlot, if_pos hempty]
  rw [checkAddrman, checkTables_skip htried hnew]
  rfl

/-- The counter runs around: after `2 ^ 32` announcements an entry has the identifier `-1`. -/
theorem addrman_id_overflow : ∃ s, (system twoAddresses).Reachable s ∧
    checkAddrman twoAddresses s = -15 ∧ (-1 : ℤ) ∈ s.mapInfo := by
  refine ⟨holding true (-1) 0, ?_, checkAddrman_neg_one, mem_keys.2 (by decide)⟩
  have h := reachable_holding (n := 4294967295) (by omega)
  exact h

end KPCoin.AddrMan
