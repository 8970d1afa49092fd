import KPCoin.TxRequest.Tracker

/-!
# The container and its counters

What `Erase` and `Modify` do, apart from what the states mean.  A tracker is `Good` if no peer has
announced a transaction twice, the sequence numbers are distinct, and the counters of each peer
are those of its announcements.  In a good tracker the two functions find their counters, no
modification is lost to a taken key, and the tracker stays good (`Good.modify`, `Good.erase`).

`Maps t t' f` says that the announcements of `t'` are those of `t`, each changed or dropped as
`f` says.
-/

namespace KPCoin.TxRequest

open OrderedList MultiIndex Announcement

variable {C : PriorityComputer} {t t' t'' : Tracker C} {a a' b : Announcement} {h : Uint256}
  {pre post : List Announcement} {s s' : State} {k : PeerKey}

theorem txHashKey_le_iff {h' : Uint256} {p p' : ℕ} :
    txHashKey h s p ≤ txHashKey h' s' p' ↔ h.toNat < h'.toNat ∨ h.toNat = h'.toNat ∧
      (s.rank < s'.rank ∨ s.rank = s'.rank ∧ p ≤ p') := by
  simp [txHashKey, Prod.Lex.toLex_le_toLex]

theorem byTxHash_le_iff : byTxHash C a ≤ byTxHash C b ↔
    a.txhash.toNat < b.txhash.toNat ∨ a.txhash.toNat = b.txhash.toNat ∧
      (a.state.rank < b.state.rank ∨ a.state.rank = b.state.rank ∧
        (if a.state = .candidateReady then C.priority a else 0) ≤
          if b.state = .candidateReady then C.priority b else 0) :=
  txHashKey_le_iff

section

variable (hab : byTxHash C a ≤ byTxHash C b)
include hab

theorem txhash_le : a.txhash.toNat ≤ b.txhash.toNat := by
  rcases byTxHash_le_iff.1 hab with h | h
  · exact h.le
  · exact h.1.le

theorem rank_le (hh : b.txhash = a.txhash) : a.state.rank ≤ b.state.rank := by
  rcases byTxHash_le_iff.1 hab with h | h
  · rw [hh] at h
    omega
  · omega

theorem priority_le (hh : b.txhash = a.txhash) (ha : a.state = .candidateReady)
    (hb : b.state = .candidateReady) : C.priority a ≤ C.priority b := by
  rcases byTxHash_le_iff.1 hab with h | ⟨-, h | h⟩
  · rw [hh] at h
    omega
  · rw [ha, hb] at h
    omega
  · simpa [ha, hb] using h.2

theorem txhash_between {c : Announcement} (hbc : byTxHash C b ≤ byTxHash C c)
    (h : c.txhash = a.txhash) : b.txhash = a.txhash := by
  have h1 := txhash_le hab
  have h2 := txhash_le hbc
  rw [h] at h2
  exact BitVec.eq_of_toNat_eq (by omega)

end

/-- The same announcement, possibly with another state and time. -/
structure Announcement.Same (a b : Announcement) : Prop where
  txhash : b.txhash = a.txhash
  peer : b.peer = a.peer
  sequence : b.sequence = a.sequence
  preferred : b.preferred = a.preferred
  isWtxid : b.isWtxid = a.isWtxid

namespace Announcement.Same

theorem refl (a : Announcement) : a.Same a := ⟨rfl, rfl, rfl, rfl, rfl⟩

theorem setState (a : Announcement) (s : State) : a.Same (a.setState s) := ⟨rfl, rfl, rfl, rfl, rfl⟩

theorem trans {c : Announcement} (h : a.Same b) (h' : b.Same c) : a.Same c :=
  ⟨h'.txhash.trans h.txhash, h'.peer.trans h.peer, h'.sequence.trans h.sequence,
    h'.preferred.trans h.preferred, h'.isWtxid.trans h.isWtxid⟩

theorem setState_eq (h : a.Same b) (ht : b.time = a.time) : a.setState b.state = b := by
  obtain ⟨h1, h2, h3, h4, h5⟩ := h
  simp [Announcement.setState, ← h1, ← h2, ← h3, ← h4, ← h5, ← ht]

theorem priority (h : a.Same b) : C.priority b = C.priority a := by
  simp [PriorityComputer.priority, h.txhash, h.peer, h.preferred]

end Announcement.Same

/-- The counters of a peer, from the announcements. -/
def peerInfoOf (l : List Announcement) (p : ℤ) : Option PeerInfo :=
  if l.countP (fun a => a.peer == p) = 0 then none
  else some
    { total := l.countP fun a => a.peer == p
      completed := l.countP fun a => a.peer == p && a.state == .completed
      requested := l.countP fun a => a.peer == p && a.state == .requested }

/-- No announcement is repeated, and the counters are right. -/
structure Tracker.Good (t : Tracker C) : Prop where
  unique : ∀ a ∈ t.index, ∀ b ∈ t.index, a.peer = b.peer → a.txhash = b.txhash → a = b
  sequence : ∀ a ∈ t.index, ∀ b ∈ t.index, a.sequence = b.sequence → a = b
  fresh : ∀ a ∈ t.index, a.sequence < t.currentSequence
  counted : ∀ p, t.peerinfo.lookup p = peerInfoOf t.index.fst p

/-- The announcements of `t'` are those of `t`, changed or dropped by `f`. -/
structure Maps (t t' : Tracker C) (f : Announcement → Option Announcement) : Prop where
  mem : ∀ b, b ∈ t'.index ↔ ∃ a ∈ t.index, f a = some b
  same : ∀ a ∈ t.index, ∀ b, f a = some b → a.Same b
  currentSequence : t'.currentSequence = t.currentSequence

namespace Maps

variable {f g : Announcement → Option Announcement}

theorem refl (t : Tracker C) : Maps t t some :=
  ⟨fun b => by simp, fun a _ b hb => by obtain rfl := Option.some.inj hb; exact .refl a, rfl⟩

theorem trans (hf : Maps t t' f) (hg : Maps t' t'' g) : Maps t t'' fun a => (f a).bind g where
  mem b := by
    rw [hg.mem]
    constructor
    · rintro ⟨a', ha', hb⟩
      obtain ⟨a, ha, hfa⟩ := (hf.mem a').1 ha'
      exact ⟨a, ha, by simp [hfa, hb]⟩
    · rintro ⟨a, ha, hb⟩
      obtain ⟨a', hfa, hb⟩ := Option.bind_eq_some_iff.1 hb
      exact ⟨a', (hf.mem a').2 ⟨a, ha, hfa⟩, hb⟩
  same a ha b hb := by
    obtain ⟨a', hfa, hb⟩ := Option.bind_eq_some_iff.1 hb
    exact (hf.same a ha a' hfa).trans (hg.same a' ((hf.mem a').2 ⟨a, ha, hfa⟩) b hb)
  currentSequence := hg.currentSequence.trans hf.currentSequence

theorem congr (hf : Maps t t' f) (hfg : ∀ a ∈ t.index, f a = g a) : Maps t t' g where
  mem b := by
    rw [hf.mem]
    exact exists_congr fun a => and_congr_right fun ha => by rw [hfg a ha]
  same a ha b hb := hf.same a ha b ((hfg a ha).trans hb)
  currentSequence := hf.currentSequence

end Maps

section Counters

variable {l l' : List Announcement} {p : ℤ}

theorem peerInfoOf_perm (hl : l.Perm l') : peerInfoOf l p = peerInfoOf l' p := by
  simp [peerInfoOf, hl.countP_eq]

theorem peerInfoOf_cons_ne (hp : a.peer ≠ p) : peerInfoOf (a :: l) p = peerInfoOf l p := by
  simp [peerInfoOf, hp]

theorem countP_inState (s : State) :
    (((a :: l).countP fun b => b.peer == a.peer && b.state == s : ℕ) : ℤ) =
      (l.countP fun b => b.peer == a.peer && b.state == s : ℕ) + a.inState s := by
  by_cases hs : a.state = s
  · simp [inState, hs]
  · simp [inState, hs]

theorem peerInfoOf_cons_self : peerInfoOf (a :: l) a.peer = some
    { total := l.countP (fun b => b.peer == a.peer) + 1
      completed := l.countP (fun b => b.peer == a.peer && b.state == .completed) +
        a.inState .completed
      requested := l.countP (fun b => b.peer == a.peer && b.state == .requested) +
        a.inState .requested } := by
  simp only [peerInfoOf, countP_inState]
  simp

end Counters

namespace Tracker

/-- `a` becomes `a'`. -/
def put (a a' : Announcement) (x : Announcement) : Option Announcement :=
  some (if x = a then a' else x)

/-- `a` is dropped. -/
def drop (a : Announcement) (x : Announcement) : Option Announcement :=
  if x = a then none else some x

theorem maps_put (ha : a ∈ t.index) (hs : a.Same a')
    (hfree : ∀ b ∈ t.index, b ≠ a → byPeer a' ≠ byPeer b) (hi : t'.index = t.index.modify a a')
    (hseq : t'.currentSequence = t.currentSequence) : Maps t t' (put a a') := by
  refine ⟨fun b => ?_, fun x hx b hb => ?_, hseq⟩
  · rw [hi, mem_modify ha hfree]
    constructor
    · rintro (rfl | ⟨hne, hb⟩)
      · exact ⟨a, ha, by simp [put]⟩
      · exact ⟨b, hb, by simp [put, hne]⟩
    · rintro ⟨x, hx, hb⟩
      by_cases hxa : x = a
      · exact .inl (by simpa [put, hxa] using hb.symm)
      · obtain rfl : x = b := by simpa [put, hxa] using hb
        exact .inr ⟨hxa, hx⟩
  · by_cases hxa : x = a
    · obtain rfl : a' = b := by simpa [put, hxa] using hb
      exact hxa ▸ hs
    · obtain rfl : x = b := by simpa [put, hxa] using hb
      exact .refl x

theorem maps_drop (hi : t'.index = t.index.erase a)
    (hseq : t'.currentSequence = t.currentSequence) : Maps t t' (drop a) := by
  refine ⟨fun b => ?_, fun x hx b hb => ?_, hseq⟩
  · rw [hi, mem_erase]
    constructor
    · rintro ⟨hne, hb⟩
      exact ⟨b, hb, by simp [drop, hne]⟩
    · rintro ⟨x, hx, hb⟩
      obtain ⟨hne, rfl⟩ : ¬ x = a ∧ x = b := by simpa [drop] using hb
      exact ⟨hne, hx⟩
  · obtain ⟨-, rfl⟩ : ¬ x = a ∧ x = b := by simpa [drop] using hb
    exact .refl x

namespace Good

theorem of_maps {f : Announcement → Option Announcement} (hg : t.Good) (hm : Maps t t' f)
    (hc : ∀ p, t'.peerinfo.lookup p = peerInfoOf t'.index.fst p) : t'.Good where
  unique a ha b hb hp hh := by
    obtain ⟨x, hx, hfx⟩ := (hm.mem a).1 ha
    obtain ⟨y, hy, hfy⟩ := (hm.mem b).1 hb
    have h1 := hm.same x hx a hfx
    have h2 := hm.same y hy b hfy
    obtain rfl := hg.unique x hx y hy (by rw [← h1.peer, ← h2.peer, hp])
      (by rw [← h1.txhash, ← h2.txhash, hh])
    exact Option.mem_unique hfx hfy
  sequence a ha b hb hs := by
    obtain ⟨x, hx, hfx⟩ := (hm.mem a).1 ha
    obtain ⟨y, hy, hfy⟩ := (hm.mem b).1 hb
    obtain rfl := hg.sequence x hx y hy
      (by rw [← (hm.same x hx a hfx).sequence, ← (hm.same y hy b hfy).sequence, hs])
    exact Option.mem_unique hfx hfy
  fresh a ha := by
    obtain ⟨x, hx, hfx⟩ := (hm.mem a).1 ha
    rw [(hm.same x hx a hfx).sequence, hm.currentSequence]
    exact hg.fresh x hx
  counted := hc

section Member

variable (hg : t.Good) (ha : a ∈ t.index)
include hg ha

theorem lookup_peer : t.peerinfo.lookup a.peer = peerInfoOf (a :: t.index.fst.erase a) a.peer :=
  (hg.counted _).trans (peerInfoOf_perm (List.perm_cons_erase ha))

theorem lookup_other {p : ℤ} (hp : a.peer ≠ p) :
    t.peerinfo.lookup p = peerInfoOf (t.index.fst.erase a) p := by
  rw [hg.counted, peerInfoOf_perm (List.perm_cons_erase ha), peerInfoOf_cons_ne hp]

/-- The same announcement in two states has come from one. -/
theorem setState_inj (hb : b ∈ t.index) (heq : a.setState s = b.setState s') : a = b :=
  hg.unique a ha b hb (by simpa using congrArg peer heq)
    (by simpa using congrArg txhash heq)

/-- No other announcement has the key of a later version of `a`. -/
theorem key_free (hs : a.Same a') : ∀ b ∈ t.index, b ≠ a → byPeer a' ≠ byPeer b := by
  intro b hb hne heq
  have hkey : a'.peer = b.peer ∧ a'.txhash.toNat = b.txhash.toNat := by
    simp only [byPeer, peerKey, toLex_inj, Prod.mk.injEq] at heq
    exact ⟨heq.1, heq.2.2⟩
  refine hne (hg.unique b hb a ha ?_ ?_)
  · rw [← hkey.1, hs.peer]
  · rw [← BitVec.eq_of_toNat_eq hkey.2, hs.txhash]

theorem modify (hs : a.Same a') :
    ∃ t', t.modify a a' = some t' ∧ t'.Good ∧ Maps t t' (put a a') := by
  have hfree := hg.key_free ha hs
  have hmem : a' ∈ (t.index.modify a a').fst := (mem_modify ha hfree).2 (.inl rfl)
  obtain ⟨info, hinfo⟩ : ∃ info, t.peerinfo.lookup a.peer = some info :=
    ⟨_, (hg.lookup_peer ha).trans peerInfoOf_cons_self⟩
  refine ⟨_, by simp only [Tracker.modify, hinfo, hmem, guard_true]; rfl, ?_⟩
  have hm u hi
      hseq : Maps t u (put a a') :=
    maps_put ha hs hfree hi hseq
  refine ⟨hg.of_maps (hm _ rfl rfl) fun p => ?_, hm _ rfl rfl⟩
  rw [peerInfoOf_perm (modify_perm ha hfree), Map.lookup_insert_eq_ite]
  by_cases hp : p = a.peer
  · rw [hp, ← hs.peer, peerInfoOf_cons_self]
    have := (hg.lookup_peer ha).trans peerInfoOf_cons_self
    rw [hinfo, Option.some.injEq] at this
    rw [this, hs.peer]
    simp
  · rw [if_neg hp, peerInfoOf_cons_ne (by rw [hs.peer]; exact Ne.symm hp),
      hg.lookup_other ha (Ne.symm hp)]

theorem erase :
    ∃ t', t.erase a = some t' ∧ t'.Good ∧ Maps t t' (drop a) ∧ t'.index = t.index.erase a := by
  have hinfo := (hg.lookup_peer ha).trans peerInfoOf_cons_self
  refine ⟨_, by simp only [Tracker.erase, hinfo]; rfl, ?_⟩
  refine ⟨hg.of_maps (maps_drop rfl rfl) fun p => ?_, maps_drop rfl rfl, rfl⟩
  change (if _ then _ else _ : Map ℤ PeerInfo).lookup p = peerInfoOf (t.index.fst.erase a) p
  by_cases hp : p = a.peer
  · subst hp
    by_cases hzero : (t.index.fst.erase a).countP (fun b => b.peer == a.peer) = 0
    · simp [hzero, peerInfoOf]
    · simp [hzero, peerInfoOf]
  · rw [← hg.lookup_other ha (Ne.symm hp)]
    split_ifs
    · rw [Map.lookup_erase_eq_ite, if_neg hp]
    · rw [Map.lookup_insert_eq_ite, if_neg hp]

end Member

section

variable (hg : t.Good) (hsplit : t.index.snd = pre ++ a :: post) (ha : a.txhash = h)
  (hpre : ∀ b ∈ pre, b.txhash ≠ h)
include hg hsplit ha hpre

/-- `Erase` of the first announcement of a transaction, and what follows it. -/
theorem erase_first :
    ∃ t', t.erase a = some t' ∧ t'.Good ∧ Maps t t' (drop a) ∧ next a t.index.snd = post.head? ∧
      t'.index.snd = pre ++ post ∧ ∀ x ∈ t.index, x ≠ a → x ∈ pre ++ post := by
  have hnot : a ∉ pre := fun hmem => hpre a hmem ha
  obtain ⟨t', ht', hg', hm', hi⟩ := hg.erase (a := a) (t.index.mem_snd.1 (by simp [hsplit]))
  refine ⟨t', ht', hg', hm', by rw [next, hsplit, after_of_split hnot], ?_, fun x hx hne => ?_⟩
  · rw [hi]
    change t.index.snd.erase a = pre ++ post
    rw [hsplit, List.erase_append_right _ hnot, List.erase_cons_head]
  · have hx : x ∈ pre ++ a :: post := hsplit ▸ t.index.mem_snd.2 hx
    simpa [hne] using hx

/-- Erasing from the first announcement of a transaction on drops all of them. -/
theorem eraseHash {n : ℕ} (hn : post.length < n) :
    ∃ t', Tracker.eraseHash h n t a = some t' ∧ t'.Good ∧
      Maps t t' fun x => if x.txhash = h then none else some x := by
  induction post generalizing t a n with
  | nil =>
    obtain ⟨n, rfl⟩ := Nat.exists_eq_succ_of_ne_zero (ne_of_gt hn)
    obtain ⟨t1, ht1, hg1, hm1, hnext, -, hmem⟩ := hg.erase_first hsplit ha hpre
    refine ⟨t1, by simp [Tracker.eraseHash, hnext, ht1], hg1, hm1.congr fun x hx => ?_⟩
    by_cases hxa : x = a
    · simp [drop, hxa, ha]
    · have hx : x ∈ pre := by simpa using hmem x hx hxa
      simp [drop, hxa, hpre x hx]
  | cons b post ih =>
    obtain ⟨n, rfl⟩ := Nat.exists_eq_succ_of_ne_zero (ne_of_gt (Nat.zero_lt_of_lt hn))
    obtain ⟨t1, ht1, hg1, hm1, hnext, hsnd, hmem⟩ := hg.erase_first hsplit ha hpre
    by_cases hb : b.txhash = h
    · obtain ⟨t', ht', hg', hm'⟩ := ih hg1 hsnd hb (by simpa using hn)
      refine ⟨t', by simp [Tracker.eraseHash, hnext, ht1, hb, ht'], hg', ?_⟩
      refine (hm1.trans hm').congr fun x _ => ?_
      by_cases hxa : x = a
      · simp [drop, hxa, ha]
      · simp [drop, hxa]
    · refine ⟨t1, by simp [Tracker.eraseHash, hnext, ht1, hb], hg1, hm1.congr fun x hx => ?_⟩
      by_cases hxa : x = a
      · simp [drop, hxa, ha]
      · have hxh : x.txhash ≠ h := by
          rcases List.mem_append.1 (hmem x hx hxa) with hx | hx
          · exact hpre x hx
          · -- the index is sorted, so no announcement of the transaction comes after another
            intro hxh
            have hsorted := t.index.sorted_snd
            rw [hsplit] at hsorted
            obtain ⟨-, hpost, -⟩ := List.pairwise_append.1 hsorted
            obtain ⟨hab, hpost⟩ := List.pairwise_cons.1 hpost
            rcases List.mem_cons.1 hx with rfl | hx
            · exact hb hxh
            · exact hb ((txhash_between (hab b (by simp)) ((List.pairwise_cons.1 hpost).1 x hx)
                (hxh.trans ha.symm)).trans ha)
        simp [drop, hxa, hxh]

end

/-- Each step of a loop that deals with one announcement leaves fewer to deal with. -/
theorem countP_lt (hg' : t'.Good) {p : Announcement → Bool} (ha : a ∈ t.index) (hpa : p a = true)
    (hp : ∀ y ∈ t'.index, p y = true →
      ∃ x ∈ t.index, x.sequence = y.sequence ∧ x ≠ a ∧ p x = true) :
    t'.index.fst.countP p < t.index.fst.countP p := by
  rw [List.countP_eq_length_filter, List.countP_eq_length_filter]
  have hnodup : ((t'.index.fst.filter p).map Announcement.sequence).Nodup := by
    refine (List.nodup_map_iff_inj_on (t'.index.nodup_fst.filter p)).2 fun x hx y hy hseq => ?_
    exact hg'.sequence x (List.mem_of_mem_filter hx) y (List.mem_of_mem_filter hy) hseq
  have hsub : (t'.index.fst.filter p).map Announcement.sequence ⊆
      ((t.index.fst.filter p).erase a).map Announcement.sequence := by
    intro n hn
    obtain ⟨y, hy, rfl⟩ := List.mem_map.1 hn
    obtain ⟨hy, hpy⟩ := List.mem_filter.1 hy
    obtain ⟨x, hx, hseq, hxa, hpx⟩ := hp y hy hpy
    exact List.mem_map.2 ⟨x, (List.mem_erase_of_ne hxa).2 (List.mem_filter.2 ⟨hx, hpx⟩), hseq⟩
  have hmem : a ∈ t.index.fst.filter p := List.mem_filter.2 ⟨ha, hpa⟩
  have hle := (List.subperm_of_subset hnodup hsub).length_le
  rw [List.length_map, List.length_map, List.length_erase_of_mem hmem] at hle
  have hpos := List.length_pos_of_mem hmem
  omega

end Good

theorem byPeer_eq_iff {p : ℤ} {best : Bool} :
    byPeer a = peerKey p best h ↔
      a.peer = p ∧ (a.state == .candidateBest) = best ∧ a.txhash = h := by
  simp [byPeer, peerKey, BitVec.toNat_inj]

theorem find_eq_some (hf : t.find k = some a) : a ∈ t.index ∧ byPeer a = k :=
  ⟨List.mem_of_find?_eq_some hf, by simpa using List.find?_some hf⟩

theorem find_eq_none (hf : t.find k = none) (ha : a ∈ t.index) : byPeer a ≠ k := by
  simpa using List.find?_eq_none.1 hf a ha

theorem Good.insert (hg : t.Good) {new : Announcement} {I : Index C}
    (hperm : I.fst.Perm (new :: t.index.fst)) (hseq : new.sequence = t.currentSequence)
    (hnew : new.state = .candidateDelayed)
    (hnone : ∀ b ∈ t.index, b.peer = new.peer → b.txhash ≠ new.txhash) {info : PeerInfo}
    (hinfo : info = (t.peerinfo.lookup new.peer).getD {}) :
    Good { currentSequence := t.currentSequence + 1
           index := I
           peerinfo := t.peerinfo.insert new.peer { info with total := info.total + 1 } } := by
  have hmem : ∀ b, b ∈ I ↔ b = new ∨ b ∈ t.index := fun b => by
    rw [← I.mem_fst, hperm.mem_iff, List.mem_cons, mem_fst]
  have hold : ∀ b ∈ t.index, b.sequence < new.sequence := fun b hb => hseq ▸ hg.fresh b hb
  refine ⟨fun a ha b hb hp hh => ?_, fun a ha b hb hs => ?_, fun a ha => ?_, fun p => ?_⟩
  · rcases (hmem a).1 ha with rfl | ha' <;> rcases (hmem b).1 hb with rfl | hb'
    · rfl
    · exact absurd hh.symm (hnone b hb' hp.symm)
    · exact absurd hh (hnone a ha' hp)
    · exact hg.unique a ha' b hb' hp hh
  · rcases (hmem a).1 ha with rfl | ha' <;> rcases (hmem b).1 hb with rfl | hb'
    · rfl
    · exact absurd hs (hold b hb').ne'
    · exact absurd hs (hold a ha').ne
    · exact hg.sequence a ha' b hb' hs
  · rcases (hmem a).1 ha with rfl | ha
    · exact hseq ▸ Nat.lt_succ_self _
    · exact (hg.fresh a ha).trans (Nat.lt_succ_self _)
  · rw [peerInfoOf_perm hperm, Map.lookup_insert_eq_ite]
    by_cases hp : p = new.peer
    · rw [hp, hinfo, hg.counted]
      by_cases hzero : t.index.fst.countP (fun b => b.peer == new.peer) = 0
      · -- a peer without announcements has none in any state
        have hno : ∀ s : State,
            t.index.fst.countP (fun b => b.peer == new.peer && b.state == s) = 0 := fun s =>
          Nat.le_zero.1 (hzero ▸ List.countP_mono_left fun b _ hb => by
            simpa using (Bool.and_eq_true_iff.1 hb).1)
        simp [peerInfoOf, hzero, hno, hnew]
      · simp [peerInfoOf, hzero, hnew]
    · rw [if_neg hp, peerInfoOf_cons_ne (Ne.symm hp), hg.counted]

theorem Good.receivedInv (hg : t.Good) (peer : ℤ) (gtxid : GenTxid) (preferred : Bool)
    (reqtime : ℤ) :
    t.receivedInv peer gtxid preferred reqtime = t ∨
      (t.receivedInv peer gtxid preferred reqtime).Good ∧
        ∃ new : Announcement, new.state = .candidateDelayed ∧
          (∀ b ∈ t.index, b.peer = new.peer → b.txhash ≠ new.txhash) ∧
          ∀ b, b ∈ (t.receivedInv peer gtxid preferred reqtime).index ↔ b = new ∨ b ∈ t.index := by
  unfold Tracker.receivedInv
  cases hfind : t.find (peerKey peer true gtxid.hash) with
  | some a => exact .inl (by simp)
  | none =>
    generalize hnew : Announcement.mk gtxid.hash reqtime peer t.currentSequence preferred
      gtxid.isWtxid .candidateDelayed = new
    cases hemp : t.index.emplace new with
    | none => exact .inl rfl
    | some I =>
      obtain ⟨hperm, hfree⟩ := t.index.emplace_eq_some hemp
      have hmem : ∀ b, b ∈ I ↔ b = new ∨ b ∈ t.index := fun b => by
        rw [← I.mem_fst, hperm.mem_iff, List.mem_cons, mem_fst]
      have hnone : ∀ b ∈ t.index, b.peer = new.peer → b.txhash ≠ new.txhash := by
        intro b hb hp hh
        by_cases hbest : b.state = .candidateBest
        · refine find_eq_none hfind hb (byPeer_eq_iff.2 ⟨?_, by simp [hbest], ?_⟩)
          · rw [hp, ← hnew]
          · rw [hh, ← hnew]
        · refine hfree b hb (Eq.symm (byPeer_eq_iff.2 ⟨hp, ?_, hh⟩))
          simp [hbest, ← hnew]
      have hstate : new.state = .candidateDelayed := by rw [← hnew]
      have hpeer : new.peer = peer := by rw [← hnew]
      have hgood := hg.insert hperm (by rw [← hnew]) hstate hnone rfl
      rw [hpeer] at hgood
      exact .inr ⟨hgood, new, hstate, hnone, hmem⟩

end Tracker

end KPCoin.TxRequest
