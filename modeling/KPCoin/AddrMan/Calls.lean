import KPCoin.AddrMan.Operations
import KPCoin.LTS.Basic

/-!
# Runs of the address manager

The public functions are the labels of a transition system (`system`), together with the times that
the caller passes or the clock shows, all of them positive, and with the random choices.

`wp_run` : from a state with the invariant every call returns, and keeps it, while the identifiers
do not run out (`KeepsIds`).  `reachable_inv` : it holds after every such run.
-/

namespace KPCoin.AddrMan

open Program List

variable {Service NetAddr Network : Type}
  {P : Params Service NetAddr Network} {s s' : State Service NetAddr Network} {bucket position : ℕ}
  {H : Hand Service}

/-- Run a function for its effect. -/
def quietly {α : Type} (m : M Service NetAddr Network α) : M Service NetAddr Network Unit := do
  let _ ← m
  pure ()

theorem wp_quietly {α : Type} {m : M Service NetAddr Network α}
    {Q : State Service NetAddr Network → Prop} (h : wp m (fun _ s' => Q s') (fun _ => False) s) :
    wp (quietly m) (fun _ s' => Q s') (fun _ => False) s := by
  rw [quietly, wp_bind]
  exact h.mono (fun _ _ ht => ht) fun _ => id

theorem Tables.getEntry (h : Tables P H s) {useTried : Bool}
    (hne : s.getEntry useTried bucket position ≠ -1) :
    ∃ info, s.mapInfo.lookup (s.getEntry useTried bucket position) = some info := by
  generalize he : s.getEntry useTried bucket position = n at hne ⊢
  unfold State.getEntry at he
  split_ifs at he <;> subst he
  · obtain ⟨info, hl, -⟩ := h.triedSlot _ hne
    exact ⟨info, hl⟩
  · exact absurd rfl hne
  · obtain ⟨info, hl, -⟩ := h.newSlot _ hne
    exact ⟨info, hl⟩
  · exact absurd rfl hne

variable [DecidableEq Network] {network : Option Network} {searchTried : Bool}

theorem Tables.firstEntry (h : Tables P H s) {nodeId : ℤ}
    (hfirst : s.firstEntry P searchTried network bucket position = some nodeId) :
    ∃ info, s.mapInfo.lookup nodeId = some info := by
  obtain ⟨i, -, rfl⟩ := mem_map.1 (mem_of_find?_eq_some hfirst)
  have hp := find?_some hfirst
  rw [Bool.and_eq_true_iff] at hp
  exact h.getEntry (by simpa using hp.1)

theorem wp_selectLoop (h : Tables P {} s) (picks : List Pick) :
    wp (selectLoop P searchTried network picks) (fun _ s' => s' = s) (fun _ => False) s := by
  induction picks with
  | nil => exact rfl
  | cons pick picks ih =>
    rw [selectLoop, wp_bind, wp_get]
    cases hfirst : s.firstEntry P searchTried network
        (pick.bucket % if searchTried then triedBucketCount else newBucketCount)
        (pick.position % bucketSize) with
    | none => simpa [hfirst] using ih
    | some nodeId =>
      obtain ⟨info, hl⟩ := h.firstEntry hfirst
      simp only [hfirst, hl]
      rw [wp_ite]
      exact ⟨fun _ => rfl, fun _ => ih⟩

theorem wp_select (h : Tables P {} s) {newOnly coin : Bool} {picks : List Pick} :
    wp (select P newOnly network coin picks) (fun _ s' => s' = s) (fun _ => False) s := by
  rw [select, wp_bind, wp_get, wp_ite]
  refine ⟨fun _ => rfl, fun _ => ?_⟩
  split
  · exact rfl
  · rw [wp_ite]
    refine ⟨fun _ => rfl, fun _ => ?_⟩
    rw [wp_ite]
    exact ⟨fun _ => rfl, fun _ => wp_selectLoop h picks⟩

theorem mild_attempted (lastGood : ℤ) (fCountFailure : Bool) (time : ℤ) :
    Mild (AddrInfo.attempted lastGood fCountFailure time : AddrInfo Service NetAddr → _) := by
  constructor <;> intro info <;> unfold AddrInfo.attempted <;> split_ifs <;> rfl

theorem mild_connected (time : ℤ) :
    Mild (AddrInfo.connected time : AddrInfo Service NetAddr → _) := by
  constructor <;> intro info <;> unfold AddrInfo.connected <;> split_ifs <;> rfl

variable [DecidableEq Service]

section

variable (h : Inv P {} s) {addr : Service}
include h

theorem Inv.setCollisions {l : List ℤ} (hl : ∀ k ∈ l, k < s.nIdCount ∧ ∀ info,
    s.mapInfo.lookup k = some info → P.triedSlot info.addr ∉ ({} : Hand Service).gap →
      s.vvTried (P.triedSlot info.addr) ≠ -1) :
    Inv P {} { s with triedCollisions := l } := by
  refine ⟨h.indexed.of_eq, h.counted.of_eq, fun hk => ?_, h.tables.newSlot, h.tables.triedSlot, hl⟩
  obtain ⟨h1, h2, h3, h4, h5, h6⟩ := h.tables.entry hk
  exact ⟨h1, h2, h3, h4, h5, h6⟩

/-- An entry that finds its slot of the tried table taken waits for it. -/
theorem Inv.addCollision {nId : ℤ} {info : AddrInfo Service NetAddr}
    (hl : s.mapInfo.lookup nId = some info) (htaken : s.vvTried (P.triedSlot info.addr) ≠ -1) :
    Inv P {} (s.addCollision nId) := by
  unfold State.addCollision
  split_ifs
  · refine h.setCollisions fun k hk => ?_
    rcases mem_orderedInsert _ |>.1 hk with rfl | hk
    · refine ⟨(h.indexed.ids hl).2, fun i hi _ => ?_⟩
      rw [hi, Option.some.injEq] at hl
      exact hl ▸ htaken
    · exact h.tables.collisions k hk
  · exact h

theorem wp_good {testBeforeEvict : Bool} {time : ℤ} (htime : 0 < time) :
    wp (good P addr testBeforeEvict time) (fun _ s' => Inv P {} s') (fun _ => False) s := by
  have h1 : Inv P {} { s with lastGood := time } := h.of_eq rfl
  rw [good, wp_bind, wp_modify, wp_bind, wp_get]
  generalize ({ s with lastGood := time } : State Service NetAddr Network) = t at h1
  cases hfind : t.find addr with
  | none => exact h1
  | some nId =>
    obtain ⟨info, hl, -⟩ := h1.indexed.of_find hfind
    have h2 : Inv P {} (t.modInfo nId fun info =>
        { info with lastSuccess := time, lastTry := time, nAttempts := 0 }) :=
      h1.modInfo ⟨fun _ => rfl, fun _ => rfl, fun _ => rfl, fun _ => rfl⟩
        fun _ _ => ⟨htime.le, htime.le, fun _ => htime⟩
    have hl2 := State.lookup_modInfo_self
      (f := fun info => { info with lastSuccess := time, lastTry := time, nAttempts := 0 }) hl
    simp only [wp_bind, wp_modify, wp_getInfo hl2, wp_ite, wp_pure, wp_get, wp_set]
    refine ⟨fun _ => h2, fun htried => ⟨fun _ => h2, fun _ => ⟨fun hc => ?_, fun _ => ?_⟩⟩⟩
    · exact h2.addCollision hl2 hc.2
    · exact wp_makeTried h2 hl2 (by simpa using htried) htime

/-- A mild change of an entry that does not make its times negative. -/
theorem wp_onEntry
    {f : State Service NetAddr Network → AddrInfo Service NetAddr → AddrInfo Service NetAddr}
    (hf : Mild (f s)) (htimes : ∀ info, 0 ≤ info.lastTry → 0 ≤ (f s info).lastTry)
    (hsuccess : ∀ info, (f s info).lastSuccess = info.lastSuccess) :
    wp (onEntry addr f) (fun _ s' => Inv P {} s') (fun _ => False) s := by
  rw [onEntry, wp_bind, wp_get]
  cases s.find addr with
  | none => exact h
  | some nId =>
    refine h.modInfo hf fun info hl => ?_
    have he := h.tables.entry hl
    rw [hsuccess info]
    exact ⟨htimes info he.lastTry, he.lastSuccess, fun ht => (he.tried ht).2⟩

theorem wp_resolveCollision {idNew now : ℤ} (hnow : 0 < now) :
    wp (resolveCollision P idNew now) (fun _ s' => Inv P {} s') (fun _ => False) s := by
  have hgood : ∀ {addr} (r : Bool), wp (good P addr false now >>= fun _ => pure r)
      (fun _ s' => Inv P {} s') (fun _ => False) s := by
    intro addr r
    rw [wp_bind]
    exact (wp_good h hnow).mono (fun _ _ ht => ht) fun _ => id
  rw [resolveCollision, wp_bind, wp_get, wp_ite]
  refine ⟨fun _ => h, fun hin => ?_⟩
  obtain ⟨infoNew, hl⟩ := Option.isSome_iff_exists.1 (AList.lookup_isSome.2 (not_not.1 hin))
  rw [wp_bind, wp_getInfo hl, wp_ite]
  refine ⟨fun _ => h, fun _ => ?_⟩
  rw [wp_bind, wp_get, wp_ite]
  refine ⟨fun htaken => ?_, fun _ => hgood true⟩
  obtain ⟨infoOld, hlOld, -⟩ := h.tables.triedSlot _ htaken
  rw [wp_bind, wp_getInfo hlOld]
  simp only [wp_ite]
  exact ⟨fun _ => h, fun _ => ⟨fun _ => ⟨fun _ => hgood true, fun _ => h⟩,
    fun _ => ⟨fun _ => hgood true, fun _ => h⟩⟩⟩

theorem Inv.eraseCollision (nId : ℤ) :
    Inv P {} { s with triedCollisions := s.triedCollisions.erase nId } :=
  h.setCollisions fun k hk => h.tables.collisions k (mem_of_mem_erase hk)

theorem wp_resolveCollisions {clock : ℤ → ℤ} (hclock : ∀ nId, 0 < clock nId) :
    wp (resolveCollisions P clock) (fun _ s' => Inv P {} s') (fun _ => False) s := by
  refine wp_forM (fun _ s' => Inv P {} s') h fun _ idNew _ t _ ht => ?_
  rw [wp_bind]
  refine (wp_resolveCollision ht (hclock idNew)).mono (fun eraseCollision u hu => ?_) fun _ => id
  rw [wp_ite]
  exact ⟨fun _ => hu.eraseCollision idNew, fun _ => hu⟩

theorem wp_selectTriedCollision {random : ℕ} :
    wp (selectTriedCollision P random) (fun _ s' => Inv P {} s') (fun _ => False) s := by
  rw [selectTriedCollision, wp_bind, wp_get]
  cases hat : s.triedCollisions[random % s.triedCollisions.length]? with
  | none => exact h
  | some idNew =>
    rw [wp_ite]
    refine ⟨fun _ => h.eraseCollision idNew, fun hin => ?_⟩
    obtain ⟨newInfo, hl⟩ := Option.isSome_iff_exists.1 (AList.lookup_isSome.2 (not_not.1 hin))
    -- the slot is still taken, so that no entry is made for `-1`
    have htaken := (h.tables.collisions idNew (mem_of_getElem? hat)).2 newInfo hl not_mem_nil
    obtain ⟨infoOld, hlOld, -⟩ := h.tables.triedSlot _ htaken
    simp only [wp_bind, wp_getInfo hl, wp_get, wp_getInfo hlOld, wp_pure]
    exact h

theorem wp_getAddr {maxAddresses maxPct : ℕ} {filtered : Bool} {now : ℤ} {random : ℕ → ℕ} :
    wp (getAddr P maxAddresses maxPct network filtered now random) (fun _ s' => Inv P {} s')
      (fun _ => False) s := by
  refine (wp_foldlM (fun _ _ t => Inv P {} t ∧ t.vRandom.length = s.vRandom.length)
    ⟨h, rfl⟩ ?_).mono (fun _ _ ht => ht.1) fun _ => id
  rintro done n rest addresses t hsplit ⟨ht, hlen⟩
  have hn : n < s.vRandom.length := by
    have : n ∈ range s.vRandom.length := by simp [hsplit]
    simpa using this
  rw [wp_ite]
  refine ⟨fun _ => ⟨ht, hlen⟩, fun _ => ?_⟩
  have hother : random n % (s.vRandom.length - n) + n < t.vRandom.length := by
    have := Nat.mod_lt (random n) (show 0 < s.vRandom.length - n by omega)
    omega
  rw [wp_bind]
  refine (wp_swapRandom ht (by omega) hother).mono ?_ fun _ => id
  rintro - u ⟨hu, hulen, -⟩
  rw [wp_bind, wp_get]
  have hat : u.vRandom[n]? = some u.vRandom[n] := getElem?_eq_getElem (by omega)
  obtain ⟨ai, hl, -⟩ := hu.indexed.entry hat
  simp only [hat, Option.bind_some, hl, wp_ite, wp_pure]
  exact ⟨fun _ => ⟨hu, by omega⟩, fun _ => ⟨fun _ => ⟨hu, by omega⟩, fun _ => ⟨hu, by omega⟩⟩⟩

end

theorem inv_empty (P : Params Service NetAddr Network) :
    Inv P {} ({} : State Service NetAddr Network) := by
  have hcount : (0 : ℤ) ≤ 0 ∧ (0 : ℤ) < 2 ^ 31 := by decide
  refine ⟨⟨nofun, nofun, nofun, nofun, rfl, nofun, hcount⟩, ⟨?_, nofun⟩, ⟨nofun, ?_, ?_, nofun⟩⟩
  · funext o
    cases o <;> rfl
  · exact fun slot hslot => absurd rfl hslot
  · exact fun slot hslot => absurd rfl hslot

variable [DecidableEq NetAddr]

/-- There are identifiers left for all the addresses that get a new entry. -/
def IdsLeft (P : Params Service NetAddr Network) (source : NetAddr) (timePenalty : ℤ) :
    State Service NetAddr Network → List (Address Service × Draw) → Prop
  | _, [] => True
  | s, x :: rest => IdLeft P s x.1 ∧ wp (addSingle P x.1 source timePenalty x.2)
      (fun _ s' => IdsLeft P source timePenalty s' rest) (fun _ => True) s

theorem wp_add (h : Inv P {} s) {vAddr : List (Address Service × Draw)} {source : NetAddr}
    {timePenalty : ℤ} (hids : IdsLeft P source timePenalty s vAddr) :
    wp (add P vAddr source timePenalty) (fun _ s' => Inv P {} s') (fun _ => False) s := by
  have hloop : ∀ (added : ℕ), wp (vAddr.foldlM (fun (added : ℕ) x => do
      let inserted ← addSingle P x.1 source timePenalty x.2
      pure (added + if inserted then 1 else 0)) added) (fun _ s' => Inv P {} s')
      (fun _ => False) s := by
    induction vAddr generalizing s with
    | nil => exact fun _ => h
    | cons x rest ih =>
      intro added
      rw [foldlM_cons, wp_bind, wp_bind]
      obtain ⟨inserted, t, hrun, ht⟩ := (wp_addSingle h source timePenalty x.2 hids.1).exists_ok
      refine wp_of_ok hrun ?_
      exact ih ht (hids.2.ok hrun) _
  rw [add, wp_bind]
  exact (hloop 0).mono (fun _ _ ht => ht) fun _ => id

/-- A call, with its random choices and the times it reads from the clock. -/
inductive Call (Service NetAddr Network : Type)
  | add (vAddr : List (Address Service × Draw)) (source : NetAddr) (timePenalty : ℤ)
  | good (addr : Service) (time : ℤ)
  | attempt (addr : Service) (fCountFailure : Bool) (time : ℤ)
  | connected (addr : Service) (time : ℤ)
  | setServices (addr : Service) (nServices : ℕ)
  | resolveCollisions (clock : ℤ → ℤ)
  | selectTriedCollision (random : ℕ)
  | select (newOnly : Bool) (network : Option Network) (coin : Bool) (picks : List Pick)
  | getAddr (maxAddresses maxPct : ℕ) (network : Option Network) (filtered : Bool) (now : ℤ)
      (random : ℕ → ℕ)

/-- The times are positive. -/
def Call.Timed : Call Service NetAddr Network → Prop
  | .add vAddr _ _ => ∀ x ∈ vAddr, 0 < x.1.nTime ∧ 0 < x.2.now ∧ 0 < x.2.later
  | .good _ time => 0 < time
  | .attempt _ _ time => 0 < time
  | .connected _ time => 0 < time
  | .resolveCollisions clock => ∀ nId, 0 < clock nId
  | .getAddr _ _ _ _ now _ => 0 < now
  | _ => True

/-- The function called.  `Good` tests before it evicts. -/
def Call.run (P : Params Service NetAddr Network) :
    Call Service NetAddr Network → M Service NetAddr Network Unit
  | .add vAddr source timePenalty => quietly (AddrMan.add P vAddr source timePenalty)
  | .good addr time => quietly (AddrMan.good P addr true time)
  | .attempt addr fCountFailure time => AddrMan.attempt addr fCountFailure time
  | .connected addr time => AddrMan.connected addr time
  | .setServices addr nServices => AddrMan.setServices addr nServices
  | .resolveCollisions clock => AddrMan.resolveCollisions P clock
  | .selectTriedCollision random => quietly (AddrMan.selectTriedCollision P random)
  | .select newOnly network coin picks => quietly (AddrMan.select P newOnly network coin picks)
  | .getAddr maxAddresses maxPct network filtered now random =>
    quietly (AddrMan.getAddr P maxAddresses maxPct network filtered now random)

/-- The address manager, which starts without addresses. -/
def system (P : Params Service NetAddr Network) :
    LTS (State Service NetAddr Network) (Call Service NetAddr Network) where
  init s := s = {}
  step s l s' := l.Timed ∧ l.run P s = .ok () s'

/-- The call finds an identifier for every entry that it makes. -/
def KeepsIds (P : Params Service NetAddr Network) (s : State Service NetAddr Network) :
    Call Service NetAddr Network → Prop
  | .add vAddr source timePenalty => IdsLeft P source timePenalty s vAddr
  | _ => True

/-- **Every call keeps the invariant**, and meets no failed assertion. -/
theorem wp_run (h : Inv P {} s) {l : Call Service NetAddr Network} (htimed : l.Timed)
    (hids : KeepsIds P s l) : wp (l.run P) (fun _ s' => Inv P {} s') (fun _ => False) s := by
  cases l with
  | add vAddr source timePenalty => exact wp_quietly (wp_add h hids)
  | good addr time => exact wp_quietly (wp_good h htimed)
  | attempt addr fCountFailure time =>
    have htime : 0 < time := htimed
    refine wp_onEntry h (mild_attempted _ _ _) (fun info _ => ?_) fun info => ?_
    · unfold AddrInfo.attempted
      split_ifs <;> exact htime.le
    · unfold AddrInfo.attempted
      split_ifs <;> rfl
  | connected addr time =>
    refine wp_onEntry h (mild_connected _) (fun info h0 => ?_) fun info => ?_
    · unfold AddrInfo.connected
      split_ifs <;> exact h0
    · unfold AddrInfo.connected
      split_ifs <;> rfl
  | setServices addr nServices =>
    exact wp_onEntry h ⟨fun _ => rfl, fun _ => rfl, fun _ => rfl, fun _ => rfl⟩ (fun _ => id)
      fun _ => rfl
  | resolveCollisions clock => exact wp_resolveCollisions h htimed
  | selectTriedCollision random => exact wp_quietly (wp_selectTriedCollision h)
  | select newOnly network coin picks =>
    exact wp_quietly ((wp_select h.tables).mono (fun _ _ ht => ht ▸ h) fun _ => id)
  | getAddr maxAddresses maxPct network filtered now random => exact wp_quietly (wp_getAddr h)

theorem reachable_inv (h : ((system P).restrict (KeepsIds P)).Reachable s) : Inv P {} s := by
  refine h.invariant ?_ ?_
  · rintro s rfl
    exact inv_empty P
  · rintro s l s' hs ⟨⟨htimed, hrun⟩, hids⟩
    exact (wp_run hs htimed hids).ok hrun

end KPCoin.AddrMan
