import KPCoin.Primitives.Serialize

/-!
# Network addresses

`CNetAddr`, `CService` and `CSubNet` of `netaddress.h`.  An address is the bytes of one of six
networks.

* `wire_spec` : an address is read back from either format, and a BIP155 record of an unknown
  network, or of one embedded in IPv6, is skipped without losing the place of the next.
* `getKey_unique_iff` : the key of a service, which leaves out the network, is unique but for those
  of `Alias`: a Tor and an I2P address of the same bytes, and a CJDNS address with the bytes that an
  address of an older network is written with.
* `subNet_spec` : a subnet matches the addresses that agree with it in the bits of its mask.

`m_scope_id`, which no comparison reads, is left out.
-/

namespace KPCoin.NetAddress

open List Serialize

open Reader (Reads reads_pure reads_take)

/-- `Network`, without `NET_UNROUTABLE` and `NET_MAX`, which no address has. -/
inductive Network
  | ipv4 | ipv6 | onion | i2p | cjdns | internal
  deriving DecidableEq

/-- `ADDR_IPV4_SIZE` to `ADDR_INTERNAL_SIZE`. -/
def Network.addrSize : Network → ℕ
  | ipv4 => 4
  | ipv6 | cjdns => 16
  | onion | i2p => 32
  | internal => 10

/-- `IPV4_IN_IPV6_PREFIX`. -/
def ipv4InIPv6 : List UInt8 := replicate 10 0 ++ [0xFF, 0xFF]

/-- `TORV2_IN_IPV6_PREFIX`. -/
def torv2InIPv6 : List UInt8 := [0xFD, 0x87, 0xD8, 0x7E, 0xEB, 0x43]

/-- `INTERNAL_IN_IPV6_PREFIX`. -/
def internalInIPv6 : List UInt8 := [0xFD, 0x6B, 0x88, 0xC0, 0x87, 0x24]

/-- `CNetAddr`. -/
@[ext]
structure CNetAddr where
  mNet : Network := .ipv6
  mAddr : List UInt8 := replicate 16 0
  deriving DecidableEq

namespace CNetAddr

/-- The bytes are as many as the network has. -/
def WellFormed (a : CNetAddr) : Prop := a.mAddr.length = a.mNet.addrSize

/-- No other network is embedded in the bytes of an IPv6 address. -/
def Unembedded (a : CNetAddr) : Prop :=
  a.mNet = .ipv6 → ∀ p ∈ [ipv4InIPv6, torv2InIPv6, internalInIPv6], ¬p <+: a.mAddr

/-- `SerializeV1Array`. -/
def serializeV1Array (a : CNetAddr) : List UInt8 :=
  match a.mNet with
  | .ipv6 => a.mAddr
  | .ipv4 => ipv4InIPv6 ++ a.mAddr
  | .internal => internalInIPv6 ++ a.mAddr
  | .onion | .i2p | .cjdns => replicate 16 0

/-- `IsAddrV1Compatible`. -/
def isAddrV1Compatible (a : CNetAddr) : Bool :=
  match a.mNet with
  | .ipv4 | .ipv6 | .internal => true
  | .onion | .i2p | .cjdns => false

/-- `GetAddrBytes`. -/
def getAddrBytes (a : CNetAddr) : List UInt8 :=
  if a.isAddrV1Compatible then a.serializeV1Array else a.mAddr

/-- Two networks that share their addresses in `GetAddrBytes`. -/
def Alias (a b : CNetAddr) : Prop :=
  a.mNet = .onion ∧ b.mNet = .i2p ∧ a.mAddr = b.mAddr ∨
    a.isAddrV1Compatible ∧ b.mNet = .cjdns ∧ a.serializeV1Array = b.mAddr

/-- `SetLegacyIPv6`. -/
def setLegacyIPv6 (ipv6 : List UInt8) : CNetAddr :=
  if ipv4InIPv6 <+: ipv6 then ⟨.ipv4, ipv6.drop ipv4InIPv6.length⟩
  else if torv2InIPv6 <+: ipv6 then {}
  else if internalInIPv6 <+: ipv6 then ⟨.internal, ipv6.drop internalInIPv6.length⟩
  else ⟨.ipv6, ipv6⟩

/-- `IsValid`. -/
def isValid (a : CNetAddr) : Bool :=
  !(a.mNet = .ipv6 && a.mAddr = replicate 16 0) &&
    !(a.mNet = .cjdns && a.mAddr.head? ≠ some 0xFC) &&
    !(a.mNet = .ipv6 && [0x20, 0x01, 0x0D, 0xB8] <+: a.mAddr) && !(a.mNet = .internal) &&
    !(a.mNet = .ipv4 && (a.mAddr = replicate 4 0 || a.mAddr = replicate 4 0xFF))

variable {a b : CNetAddr}

theorem setLegacyIPv6_serializeV1Array (h : a.Unembedded) (hc : a.isAddrV1Compatible) :
    setLegacyIPv6 a.serializeV1Array = a := by
  obtain ⟨net, addr⟩ := a
  cases net with
  | ipv4 => simp [setLegacyIPv6, serializeV1Array]
  | ipv6 => simp_all [setLegacyIPv6, serializeV1Array, Unembedded]
  | internal =>
    simp [setLegacyIPv6, serializeV1Array, ipv4InIPv6, torv2InIPv6, internalInIPv6]
  | onion | i2p | cjdns => cases hc

theorem length_serializeV1Array (h : a.WellFormed) : a.serializeV1Array.length = 16 := by
  obtain ⟨net, addr⟩ := a
  cases net <;>
    simp_all [WellFormed, Network.addrSize, serializeV1Array, ipv4InIPv6, internalInIPv6]

/-- An older network meets one without a place in IPv6 only if that is CJDNS. -/
theorem alias_of_compatible (ha : a.WellFormed) (hb : b.WellFormed) (hca : a.isAddrV1Compatible)
    (hcb : ¬b.isAddrV1Compatible) (h : a.serializeV1Array = b.mAddr) : Alias a b := by
  have hlen := length_serializeV1Array ha
  rw [h, hb] at hlen
  refine .inr ⟨hca, ?_, h⟩
  cases hn : b.mNet <;> simp_all [Network.addrSize, isAddrV1Compatible]

theorem Alias.getAddrBytes_eq (h : Alias a b) : a.getAddrBytes = b.getAddrBytes := by
  obtain ⟨hna, hnb, h⟩ | ⟨hca, hnb, h⟩ := h
  · simpa [getAddrBytes, isAddrV1Compatible, hna, hnb] using h
  · rw [getAddrBytes, if_pos hca, h]
    simp [getAddrBytes, isAddrV1Compatible, hnb]

theorem Alias.ne (h : Alias a b) : a ≠ b := by
  rintro rfl
  obtain ⟨ho, hi, -⟩ | ⟨hc, hn, -⟩ := h
  · simp [ho] at hi
  · simp [isAddrV1Compatible, hn] at hc

theorem getAddrBytes_eq_iff (ha : a.WellFormed) (hb : b.WellFormed) (hua : a.Unembedded)
    (hub : b.Unembedded) : a.getAddrBytes = b.getAddrBytes ↔ a = b ∨ Alias a b ∨ Alias b a := by
  constructor
  · intro h
    by_cases hca : a.isAddrV1Compatible <;> by_cases hcb : b.isAddrV1Compatible <;>
      simp only [getAddrBytes, hca, hcb, if_true, if_false, Bool.false_eq_true] at h
    · -- what was written is read back
      left
      rw [← setLegacyIPv6_serializeV1Array hua hca, h, setLegacyIPv6_serializeV1Array hub hcb]
    · exact .inr (.inl (alias_of_compatible ha hb hca hcb h))
    · exact .inr (.inr (alias_of_compatible hb ha hcb hca h.symm))
    · -- the length tells CJDNS from Tor and I2P
      have hlen := (congrArg length h).symm.trans ha
      rw [hb] at hlen
      obtain ⟨net, addr⟩ := a
      obtain ⟨net', addr'⟩ := b
      cases net <;> cases net' <;> simp_all [Network.addrSize, isAddrV1Compatible, Alias]
  · rintro (rfl | h | h)
    · rfl
    · exact h.getAddrBytes_eq
    · exact h.getAddrBytes_eq.symm

/-! ### The wire -/

/-- `UnserializeV1Stream`. -/
def unserializeV1Stream : Reader UInt8 CNetAddr := do return setLegacyIPv6 (← Reader.take 16)

/-- The networks of `BIP155Network` that are supported. -/
def bip155Network : UInt8 → Option Network
  | 1 => some .ipv4
  | 2 => some .ipv6
  | 4 => some .onion
  | 5 => some .i2p
  | 6 => some .cjdns
  | _ => none

/-- `GetBIP155Network`.  An internal address is not asked for its number. -/
def getBIP155Network (a : CNetAddr) : UInt8 :=
  match a.mNet with
  | .ipv4 => 1
  | .ipv6 => 2
  | .onion => 4
  | .i2p => 5
  | .cjdns => 6
  | .internal => 0

/-- `SerializeV2Stream`. -/
def serializeV2Stream (a : CNetAddr) : List UInt8 :=
  if a.mNet = .internal then 2 :: (writeCompactSize 16 ++ a.serializeV1Array)
  else a.getBIP155Network :: writeVector ([·]) a.mAddr

/-- `SetNetFromBIP155Network`, which throws on a wrong size, and leaves the address alone for an
unknown network. -/
def setNetFromBIP155Network (a : CNetAddr) (bip155Net : UInt8) (size : ℕ) :
    Reader UInt8 (Bool × CNetAddr) :=
  match bip155Network bip155Net with
  | some net => if size = net.addrSize then return (true, { a with mNet := net }) else failure
  | none => return (false, a)

/-- The last lines of `UnserializeV2Stream`. -/
def mimicDefault (a : CNetAddr) : CNetAddr := { a with mNet := .ipv6, mAddr := replicate 16 0 }

/-- What `UnserializeV2Stream` does once the bytes are read. -/
def checkEmbedded (a : CNetAddr) : CNetAddr :=
  if a.mNet ≠ .ipv6 then a
  else if internalInIPv6 <+: a.mAddr then
    { a with mNet := .internal, mAddr := a.mAddr.drop internalInIPv6.length }
  else if ¬ipv4InIPv6 <+: a.mAddr ∧ ¬torv2InIPv6 <+: a.mAddr then a
  else a.mimicDefault

/-- `UnserializeV2Stream` after the network and the size, with `MAX_ADDRV2_SIZE`. -/
def unserializeV2Addr (a : CNetAddr) (bip155Net : UInt8) (size : ℕ) : Reader UInt8 CNetAddr := do
  if size > 512 then failure
  let (known, a) ← setNetFromBIP155Network a bip155Net size
  let addr ← Reader.take size
  return if known then checkEmbedded { a with mAddr := addr } else a.mimicDefault

/-- `UnserializeV2Stream`, into an address that may have been used. -/
def unserializeV2Stream (a : CNetAddr) : Reader UInt8 CNetAddr := do
  let bip155Net ← readByte
  let size ← readCompactSize
  unserializeV2Addr a bip155Net size

/-- The bytes of a BIP155 record: a network, and an address of any length. -/
def writeRecord (r : UInt8 × List UInt8) : List UInt8 := r.1 :: writeVector ([·]) r.2

/-- The length is that of the network, if it is known. -/
def RightSize (r : UInt8 × List UInt8) : Prop :=
  ∀ net ∈ bip155Network r.1, r.2.length = net.addrSize

instance : DecidablePred RightSize := fun _ => inferInstanceAs (Decidable (∀ net ∈ _, _))

/-- The address that a record stands for. -/
inductive Yields : UInt8 × List UInt8 → CNetAddr → Prop
  | unknown {id addr} (h : bip155Network id = none) : Yields (id, addr) {}
  | embedded {id addr} (h : bip155Network id = some .ipv6)
      (hp : ipv4InIPv6 <+: addr ∨ torv2InIPv6 <+: addr) : Yields (id, addr) {}
  | internal {id addr} (h : bip155Network id = some .ipv6) :
      Yields (id, internalInIPv6 ++ addr) ⟨.internal, addr⟩
  | own {id net addr} (h : bip155Network id = some net) (hu : Unembedded ⟨net, addr⟩) :
      Yields (id, addr) ⟨net, addr⟩

/-- What is read for a record. -/
def ofRecord (r : UInt8 × List UInt8) : CNetAddr :=
  (bip155Network r.1).elim {} fun net => checkEmbedded ⟨net, r.2⟩

variable {r : UInt8 × List UInt8} {old : CNetAddr}

theorem yields_ofRecord : Yields r (ofRecord r) := by
  obtain ⟨id, addr⟩ := r
  cases h : bip155Network id with
  | none => simpa [ofRecord, h] using Yields.unknown h
  | some net =>
    simp only [ofRecord, h, Option.elim_some, checkEmbedded]
    split_ifs with hnet hi hp
    · exact .own h fun h6 => absurd h6 hnet
    · obtain rfl := not_not.1 hnet
      obtain ⟨addr, rfl⟩ := hi
      simpa using Yields.internal h
    · exact .own h fun _ => by simp [hp, hi]
    · obtain rfl := not_not.1 hnet
      exact .embedded h (by simpa only [not_and_or, not_not] using hp)

theorem run_writeRecord (hr : r.2.length ≤ 512) (rest : List UInt8) :
    (unserializeV2Stream old).run (writeRecord r ++ rest) =
      (unserializeV2Addr old r.1 r.2.length).run (r.2 ++ rest) := by
  have hbyte := reads_byte r.1 (writeVector ([·]) r.2 ++ rest)
  have hsize := reads_compactSize (Nat.le_trans hr (by decide)) (r.2 ++ rest)
  rw [unserializeV2Stream, StateT.run_bind, writeRecord, cons_append, ← singleton_append, hbyte,
    writeVector]
  simp [hsize]

theorem reads_record (hr : r.2.length ≤ 512) (hs : RightSize r) :
    Reads (unserializeV2Stream old) (writeRecord r) (ofRecord r) := by
  intro rest
  rw [run_writeRecord hr, unserializeV2Addr, if_neg (Nat.not_lt.2 hr), setNetFromBIP155Network,
    ofRecord]
  cases hn : bip155Network r.1 with
  | none => exact ((reads_take r.2).map fun _ => old.mimicDefault) rest
  | some net =>
    simp only [if_pos (hs net hn)]
    exact ((reads_take r.2).map fun addr => checkEmbedded ⟨net, addr⟩) rest

theorem run_writeRecord_of_not (hr : r.2.length ≤ 512) (hs : ¬RightSize r) (rest : List UInt8) :
    (unserializeV2Stream old).run (writeRecord r ++ rest) = none := by
  simp only [RightSize, not_forall] at hs
  obtain ⟨net, hn, hne⟩ := hs
  rw [run_writeRecord hr, unserializeV2Addr, if_neg (Nat.not_lt.2 hr), setNetFromBIP155Network,
    Option.mem_def.1 hn]
  simp only [if_neg hne]
  rfl

theorem reads_records {rs : List (UInt8 × List UInt8)}
    (h : ∀ r ∈ rs, r.2.length ≤ 512 ∧ RightSize r) :
    Reads (Reader.replicate (unserializeV2Stream old) rs.length) (rs.flatMap writeRecord)
      (rs.map ofRecord) := by
  induction rs with
  | nil => exact reads_pure []
  | cons r rs ih =>
    have hr := h r mem_cons_self
    have hrs := ih fun r hr => h r (mem_cons_of_mem _ hr)
    exact (reads_record hr.1 hr.2).bind (hrs.map (ofRecord r :: ·))

theorem exists_record (hw : a.WellFormed) (hu : a.Unembedded) :
    ∃ r, a.serializeV2Stream = writeRecord r ∧ r.2.length ≤ 512 ∧ RightSize r ∧ ofRecord r = a := by
  by_cases hi : a.mNet = .internal
  · have hv1 := length_serializeV1Array hw
    have harr : a.serializeV1Array = internalInIPv6 ++ a.mAddr := by rw [serializeV1Array, hi]
    refine ⟨(2, a.serializeV1Array), ?_, ?_, ?_, ?_⟩
    · rw [serializeV2Stream, if_pos hi, writeRecord, writeVector, flatMap_singleton', hv1]
    · simp [hv1]
    · simp [RightSize, bip155Network, hv1, Network.addrSize]
    · simp [ofRecord, bip155Network, checkEmbedded, harr, ← hi]
  · refine ⟨(a.getBIP155Network, a.mAddr), if_neg hi, ?_⟩
    obtain ⟨net, addr⟩ := a
    cases net <;>
      simp_all [RightSize, ofRecord, getBIP155Network, bip155Network, checkEmbedded, Unembedded,
        WellFormed, Network.addrSize]

/-- **Addresses are read back, and records of other networks are skipped**, whatever address they
are read into. -/
theorem wire_spec (old : CNetAddr) :
    (∀ a : CNetAddr, a.WellFormed → a.Unembedded →
      Reads (unserializeV2Stream old) a.serializeV2Stream a ∧
        (a.isAddrV1Compatible → Reads unserializeV1Stream a.serializeV1Array a)) ∧
    (∀ r, Yields r (ofRecord r)) ∧
    ∀ rs : List (UInt8 × List UInt8), (∀ r ∈ rs, r.2.length ≤ 512) →
      let good := rs.takeWhile RightSize
      Reads (Reader.replicate (unserializeV2Stream old) good.length) (good.flatMap writeRecord)
        (good.map ofRecord) ∧
      ∀ r tail, rs.dropWhile RightSize = r :: tail → ∀ rest,
        (unserializeV2Stream old).run (writeRecord r ++ rest) = none := by
  refine ⟨fun a hw hu => ⟨?_, fun hc => ?_⟩, fun _ => yields_ofRecord, fun rs hrs =>
    ⟨reads_records fun r hr => ?_, fun r tail hdrop => ?_⟩⟩
  · obtain ⟨r, hr, hlen, hs, rfl⟩ := exists_record hw hu
    exact hr ▸ reads_record hlen hs
  · have h := (reads_take a.serializeV1Array).map setLegacyIPv6
    rwa [length_serializeV1Array hw, setLegacyIPv6_serializeV1Array hu hc] at h
  · exact ⟨hrs r (takeWhile_subset _ hr), of_decide_eq_true (all_eq_true.1 all_takeWhile r hr)⟩
  · have hmem : r ∈ rs := dropWhile_subset _ (hdrop ▸ mem_cons_self)
    have hnot := head?_dropWhile_not (RightSize ·) rs
    rw [hdrop] at hnot
    exact run_writeRecord_of_not (hrs r hmem) (of_decide_eq_false hnot)

end CNetAddr

/-- `CService`. -/
@[ext]
structure CService extends CNetAddr where
  port : UInt16

namespace CService

variable {a b : CService}

/-- `GetKey`. -/
def getKey (a : CService) : List UInt8 :=
  a.getAddrBytes ++ [(a.port / 0x100).toUInt8, (a.port &&& 0x0FF).toUInt8]

theorem getKey_eq_iff : a.getKey = b.getKey ↔
    a.getAddrBytes = b.getAddrBytes ∧ a.port = b.port := by
  constructor
  · intro h
    obtain ⟨haddr, hport⟩ := append_inj' h rfl
    refine ⟨haddr, UInt16.toNat_inj.1 ?_⟩
    simp only [cons.injEq, and_true, ← UInt8.toNat_inj, UInt16.toNat_toUInt8, UInt16.toNat_div,
      UInt16.toNat_and, UInt16.reduceToNat] at hport
    have := a.port.toNat_lt
    have := b.port.toNat_lt
    have hmask n : n &&& 255 = n % 256 := Nat.and_two_pow_sub_one_eq_mod n 8
    rw [hmask, hmask] at hport
    omega
  · rintro ⟨haddr, hport⟩
    rw [getKey, getKey, haddr, hport]

/-- **The key of a service is unique, unless its network shares the address with another.** -/
theorem getKey_unique_iff (ha : a.WellFormed) (hb : b.WellFormed) (hua : a.Unembedded)
    (hub : b.Unembedded) :
    (a.getKey = b.getKey ↔ a.mNet = b.mNet ∧ a.mAddr = b.mAddr ∧ a.port = b.port) ↔
      ¬(a.port = b.port ∧ (a.Alias b.toCNetAddr ∨ b.Alias a.toCNetAddr)) := by
  have heq : (a.mNet = b.mNet ∧ a.mAddr = b.mAddr) ↔ a.toCNetAddr = b.toCNetAddr :=
    CNetAddr.ext_iff.symm
  rw [getKey_eq_iff, CNetAddr.getAddrBytes_eq_iff ha hb hua hub, ← and_assoc, heq]
  have hab := CNetAddr.Alias.ne (a := a.toCNetAddr) (b := b.toCNetAddr)
  have hba := CNetAddr.Alias.ne (a := b.toCNetAddr) (b := a.toCNetAddr)
  constructor
  · rintro h ⟨hp, hal⟩
    have heq := (h.1 ⟨.inr hal, hp⟩).1
    exact hal.elim (hab · heq) (hba · heq.symm)
  · intro h
    constructor
    · rintro ⟨heq | hal, hp⟩
      · exact ⟨heq, hp⟩
      · exact absurd ⟨hp, hal⟩ h
    · exact And.imp_left .inl

/-- A Tor and an I2P service with one key. -/
theorem getKey_onion_i2p :
    getKey ⟨⟨.onion, replicate 32 1⟩, 8333⟩ = getKey ⟨⟨.i2p, replicate 32 1⟩, 8333⟩ ∧
      Network.onion ≠ .i2p := by
  decide

theorem getKey_unique_onion :
    getKey ⟨⟨.onion, replicate 32 1⟩, 8333⟩ ≠ getKey ⟨⟨.onion, replicate 32 2⟩, 8333⟩ := by
  have h := getKey_unique_iff (a := ⟨⟨.onion, replicate 32 1⟩, 8333⟩)
    (b := ⟨⟨.onion, replicate 32 2⟩, 8333⟩) (by rfl) (by rfl) (by simp [CNetAddr.Unembedded])
    (by simp [CNetAddr.Unembedded])
  simpa using h.2 (by simp [CNetAddr.Alias])

end CService

/-! ### Subnets -/

/-- `CSubNet`. -/
structure CSubNet where
  network : CNetAddr := {}
  netmask : List UInt8 := replicate 16 0
  valid : Bool := false

namespace CSubNet

/-- The address with a netmask, which the address is normalized to. -/
def ofMask (addr : CNetAddr) (mask : List UInt8) : CSubNet where
  network := { addr with mAddr := addr.mAddr.zipWith (· &&& ·) mask }
  netmask := mask ++ replicate (16 - mask.length) 0
  valid := true

/-- A byte that starts with so many ones. -/
def byteMask (bits : ℕ) : UInt8 := UInt8.ofNat (0xFF <<< (8 - bits))

/-- The first `size` bytes of the netmask that starts with `n` ones, byte by byte. -/
def prefixMask : (size n : ℕ) → List UInt8
  | 0, _ => []
  | size + 1, n =>
    let bits := if n < 8 then n else 8
    byteMask bits :: prefixMask size (n - bits)

/-- `CSubNet` of an address and a number of bits. -/
def ofBits (addr : CNetAddr) (n : ℕ) : CSubNet :=
  if addr.mNet = .ipv4 ∧ n ≤ 4 * 8 ∨ addr.mNet = .ipv6 ∧ n ≤ 16 * 8 then
    ofMask addr (prefixMask addr.mAddr.length n)
  else {}

/-- `NetmaskBits`, where `none` is `-1`. -/
def netmaskBits : UInt8 → Option ℕ
  | 0x00 => some 0
  | 0x80 => some 1
  | 0xc0 => some 2
  | 0xe0 => some 3
  | 0xf0 => some 4
  | 0xf8 => some 5
  | 0xfc => some 6
  | 0xfe => some 7
  | 0xff => some 8
  | _ => none

/-- The search for ones after zeros. -/
def checkMask : (zerosFound : Bool) → List UInt8 → Bool
  | _, [] => true
  | zerosFound, b :: rest =>
    match netmaskBits b with
    | none => false
    | some n => if zerosFound && n ≠ 0 then false else checkMask (zerosFound || n < 8) rest

/-- `CSubNet` of an address and a mask. -/
def ofAddr (addr mask : CNetAddr) : CSubNet :=
  if (addr.mNet = .ipv4 ∨ addr.mNet = .ipv6) ∧ addr.mNet = mask.mNet ∧
    checkMask false mask.mAddr then
    ofMask addr mask.mAddr
  else {}

/-- The comparison of the bytes in `Match`. -/
def matchBytes (s : CSubNet) (addr : CNetAddr) : Bool :=
  addr.mAddr.zipWith (· &&& ·) s.netmask = s.network.mAddr

/-- `Match`. -/
def Match (s : CSubNet) (addr : CNetAddr) : Bool :=
  s.valid && addr.isValid && s.network.mNet = addr.mNet &&
    match s.network.mNet with
    | .ipv4 | .ipv6 => s.matchBytes addr
    | .onion | .i2p | .cjdns | .internal => addr = s.network

/-- The bytes are those of the subnet, whether the address is valid or not. -/
def Contains (s : CSubNet) (addr : CNetAddr) : Prop :=
  s.network.mNet = addr.mNet ∧ s.matchBytes addr

/-- Bit `i` of an address, counted from the highest of its first byte. -/
def bitAt : List UInt8 → ℕ → Bool
  | [], _ => false
  | b :: l, i => if i < 8 then b.toBitVec.getMsbD i else bitAt l (i - 8)

/-- `n` ones and then zeros. -/
def Ones (n : ℕ) (l : List UInt8) : Prop :=
  n ≤ 8 * l.length ∧ ∀ i < 8 * l.length, bitAt l i = decide (i < n)

/-- The first `n` bits are the same. -/
def Agree (n : ℕ) (l m : List UInt8) : Prop := ∀ i < n, bitAt l i = bitAt m i

variable {l m : List UInt8} {b : UInt8} {n k c i : ℕ}

theorem ext_bitAt (hlen : l.length = m.length) (h : ∀ i < 8 * l.length, bitAt l i = bitAt m i) :
    l = m := by
  induction l generalizing m with
  | nil => exact (length_eq_zero_iff.1 hlen.symm).symm
  | cons b l ih =>
    obtain _ | ⟨c, m⟩ := m
    · cases hlen
    simp only [bitAt, length_cons] at h hlen
    congr 1
    · refine UInt8.toBitVec_inj.1 (BitVec.eq_of_getMsbD_eq fun i hi => ?_)
      simpa [hi] using h i (by omega)
    · exact ih (by omega) fun i hi => by
        simpa [show ¬i + 8 < 8 by omega] using h (i + 8) (by omega)

theorem length_prefixMask : (prefixMask k n).length = k := by
  induction k generalizing n with
  | zero => rfl
  | succ k ih => rw [prefixMask, length_cons, ih]

theorem getMsbD_byteMask : ∀ c ≤ 8, ∀ i < 8, (byteMask c).toBitVec.getMsbD i = decide (i < c) := by
  decide

theorem bitAt_prefixMask (h : i < 8 * k) : bitAt (prefixMask k n) i = decide (i < n) := by
  induction k generalizing n i with
  | zero => omega
  | succ k ih =>
    rw [prefixMask, bitAt]
    split
    · rw [getMsbD_byteMask _ (by grind) i ‹_›]
      grind
    · rw [ih (by omega)]
      grind

theorem ones_iff : Ones n l ↔ n ≤ 8 * l.length ∧ l = prefixMask l.length n := by
  refine and_congr_right fun _ => ⟨fun h => ?_, fun h i hi => ?_⟩
  · exact ext_bitAt length_prefixMask.symm fun i hi => (h i hi).trans (bitAt_prefixMask hi).symm
  · exact (congrArg (bitAt · i) h).trans (bitAt_prefixMask hi)

/-- A byte with the bits outside of a mask set to `v`. -/
def fill : (v : Bool) → UInt8 → UInt8 → UInt8
  | false => (· &&& ·)
  | true => fun b mask => b ||| ~~~mask

theorem bitAt_zipWith_fill (v : Bool) (h : i < 8 * l.length) (hlen : l.length = m.length) :
    bitAt (l.zipWith (fill v) m) i = if bitAt m i then bitAt l i else v := by
  induction l generalizing m i with
  | nil => cases h
  | cons b l ih =>
    obtain _ | ⟨c, m⟩ := m
    · cases hlen
    simp only [zipWith_cons_cons, bitAt, length_cons] at h hlen ⊢
    split
    · cases v <;> simp [fill, Bool.and_comm, Bool.or_comm, *]
    · exact ih (by omega) (by omega)

/-- Masking keeps the first `n` bits. -/
theorem bitAt_mask (v : Bool) (h : i < 8 * l.length) :
    bitAt (l.zipWith (fill v) (prefixMask l.length n)) i = if i < n then bitAt l i else v := by
  rw [bitAt_zipWith_fill v h length_prefixMask.symm, bitAt_prefixMask h]
  simp

theorem mask_eq_iff (hlen : l.length = m.length) (h : n ≤ 8 * l.length) :
    l.zipWith (· &&& ·) (prefixMask l.length n) = m.zipWith (· &&& ·) (prefixMask m.length n) ↔
      Agree n l m := by
  constructor
  · intro heq i hi
    have hl := bitAt_mask (n := n) false (show i < 8 * l.length by omega)
    have hm := bitAt_mask (n := n) false (show i < 8 * m.length by omega)
    rw [if_pos hi] at hl hm
    exact hl.symm.trans ((congrArg (bitAt · i) heq).trans hm)
  · refine fun heq => ext_bitAt (by simp [hlen]) fun i hi => ?_
    rw [length_zipWith, length_prefixMask, Nat.min_self] at hi
    refine (bitAt_mask false hi).trans (.trans ?_ (bitAt_mask false (hlen ▸ hi)).symm)
    split
    · exact heq i ‹_›
    · rfl

/-- A subnet that contains no more addresses has no shorter a prefix. -/
theorem le_of_forall (hk : k ≤ 8 * l.length) (h : ∀ x : List UInt8, x.length = l.length →
    Agree n x l → Agree k x m) : k ≤ n := by
  by_contra hnk
  have hbit v : v = bitAt m n := by
    rw [← h (l.zipWith (fill v) (prefixMask l.length n))
      (by simp [length_prefixMask]) ?_ n (by omega), bitAt_mask v (by omega), if_neg (by omega)]
    intro i hi
    rw [bitAt_mask v (by omega), if_pos hi]
  exact absurd ((hbit true).trans (hbit false).symm) (by decide)

theorem netmaskBits_eq_some : netmaskBits b = some c ↔ c ≤ 8 ∧ b = byteMask c := by
  constructor
  · intro h
    unfold netmaskBits at h
    split at h <;> cases h <;> decide
  · rintro ⟨h, rfl⟩
    revert c
    decide

/-- The search accepts the masks that start with ones, and only zeros once one was found. -/
theorem checkMask_iff {zerosFound : Bool} : checkMask zerosFound l ↔
    ∃ n, (zerosFound → n = 0) ∧ n ≤ 8 * l.length ∧ l = prefixMask l.length n := by
  induction l generalizing zerosFound with
  | nil => simp [checkMask, prefixMask]
  | cons b l ih =>
    constructor
    · intro h
      rw [checkMask] at h
      split at h
      · cases h
      rename_i c hc
      obtain ⟨hc, rfl⟩ := netmaskBits_eq_some.1 hc
      split_ifs at h
      obtain ⟨n, hzero, hn, heq⟩ := ih.1 h
      have hbits : (if c + n < 8 then c + n else 8) = c := by grind
      refine ⟨c + n, fun h => by grind, by grind, ?_⟩
      rw [length_cons, prefixMask, hbits, Nat.add_sub_cancel_left, ← heq]
    · rintro ⟨n, hz, hn, heq⟩
      obtain ⟨rfl, hl⟩ := cons.inj heq
      have hc : (if n < 8 then n else 8) ≤ 8 := by grind
      rw [checkMask, netmaskBits_eq_some.2 ⟨hc, rfl⟩]
      have hrest : checkMask (zerosFound || (if n < 8 then n else 8) < 8) l :=
        ih.2 ⟨_, by grind, by grind, hl⟩
      grind

variable {a x y : CNetAddr} (ha : a.WellFormed) (h : (ofBits a n).valid)

include ha h

theorem ofBits_of_valid : (a.mNet = .ipv4 ∨ a.mNet = .ipv6) ∧ n ≤ 8 * a.mAddr.length ∧
    ofBits a n = ofMask a (prefixMask a.mAddr.length n) := by
  unfold ofBits at h ⊢
  split_ifs at h ⊢ with hn
  refine ⟨hn.imp And.left And.left, ?_, rfl⟩
  rw [ha]
  obtain ⟨hn, h⟩ | ⟨hn, h⟩ := hn <;> simp only [hn, Network.addrSize] <;> omega

theorem contains_ofBits (hx : x.WellFormed) :
    (ofBits a n).Contains x ↔ x.mNet = a.mNet ∧ Agree n x.mAddr a.mAddr := by
  obtain ⟨-, hn, heq⟩ := ofBits_of_valid ha h
  rw [heq, ofMask, eq_comm]
  refine and_congr_right fun hnet => ?_
  have hlen : x.mAddr.length = a.mAddr.length := by rw [hx, ha, hnet]
  have hpad : (x.mAddr ++ []).zipWith (· &&& ·)
      (prefixMask a.mAddr.length n ++ replicate (16 - a.mAddr.length) 0) = _ :=
    zipWith_append (hlen.trans length_prefixMask.symm)
  rw [append_nil] at hpad
  rw [← mask_eq_iff hlen (hlen ▸ hn), matchBytes]
  simp [length_prefixMask, hpad, hlen]

theorem match_ofBits (hx : x.WellFormed) :
    (ofBits a n).Match x ↔ x.isValid ∧ x.mNet = a.mNet ∧ Agree n x.mAddr a.mAddr := by
  rw [← contains_ofBits ha h hx, Contains, Match, h]
  obtain ⟨hip, -, heq⟩ := ofBits_of_valid ha h
  have hnet : (ofBits a n).network.mNet = a.mNet := by rw [heq, ofMask]
  obtain hip | hip := hip <;> simp [hnet, hip, and_assoc]

/-- Subnets are equal that contain the same addresses. -/
theorem ofBits_eq_of_forall (hy : y.WellFormed) (h' : (ofBits y k).valid)
    (heq : ∀ x : CNetAddr, x.WellFormed → ((ofBits a n).Contains x ↔ (ofBits y k).Contains x)) :
    ofBits a n = ofBits y k := by
  obtain ⟨-, hn, hofa⟩ := ofBits_of_valid ha h
  obtain ⟨-, hk, hofy⟩ := ofBits_of_valid hy h'
  have heq x hx :=
    (contains_ofBits ha h hx).symm.trans ((heq x hx).trans (contains_ofBits hy h' hx))
  obtain ⟨hnet, -⟩ := (heq a ha).1 ⟨rfl, fun _ _ => rfl⟩
  have hlen : a.mAddr.length = y.mAddr.length := by rw [ha, hy, hnet]
  have hmem l (hl : l.length = a.mAddr.length) :
      Agree n l a.mAddr ↔ Agree k l y.mAddr := by
    simpa [hnet] using heq ⟨a.mNet, l⟩ (hl.trans ha)
  obtain rfl : n = k := Nat.le_antisymm
    (le_of_forall (hlen ▸ hn) fun l hl => (hmem l (hl.trans hlen.symm)).2)
    (le_of_forall (hlen ▸ hk) fun l hl => (hmem l hl).1)
  have hmask := (mask_eq_iff hlen hn).2 ((hmem _ rfl).1 fun _ _ => rfl)
  rw [hofa, hofy, ofMask, ofMask, hmask, hlen, hnet]

omit h

theorem ofAddr_eq_ofBits {m : CNetAddr} (hm : m.WellFormed) (hnet : m.mNet = a.mNet)
    (hip : a.mNet = .ipv4 ∨ a.mNet = .ipv6) (h : Ones n m.mAddr) :
    ofAddr a m = ofBits a n ∧ (ofBits a n).valid := by
  obtain ⟨hn, heq⟩ := ones_iff.1 h
  have hcheck : checkMask false m.mAddr := checkMask_iff.2 ⟨n, nofun, hn, heq⟩
  rw [hm, hnet] at hn heq
  have hvalid : a.mNet = .ipv4 ∧ n ≤ 4 * 8 ∨ a.mNet = .ipv6 ∧ n ≤ 16 * 8 := by
    obtain hip | hip := hip <;> simp_all [Network.addrSize]
  rw [ofAddr, if_pos ⟨hip, hnet.symm, hcheck⟩, ofBits, if_pos hvalid, heq, ha]
  exact ⟨rfl, rfl⟩

/-- **A subnet is a prefix, and matches what starts with it.** -/
theorem subNet_spec :
    (∀ m : CNetAddr, m.WellFormed → m.mNet = a.mNet → a.mNet = .ipv4 ∨ a.mNet = .ipv6 →
      ((ofAddr a m).valid ↔ ∃ n, Ones n m.mAddr) ∧
      ∀ n, Ones n m.mAddr → ofAddr a m = ofBits a n) ∧
    ∀ n, (ofBits a n).valid →
      (∀ x : CNetAddr, x.WellFormed → ((ofBits a n).Match x ↔
        x.isValid ∧ x.mNet = a.mNet ∧ Agree n x.mAddr a.mAddr)) ∧
      ∀ b k, b.WellFormed → (ofBits b k).valid → (ofBits a n = ofBits b k ↔
        ∀ x : CNetAddr, x.WellFormed → ((ofBits a n).Contains x ↔ (ofBits b k).Contains x)) := by
  refine ⟨fun m hm hnet hip => ?_, fun n h => ⟨fun x hx => match_ofBits ha h hx, fun b k hb h' =>
    ⟨fun heq x _ => by rw [heq], ofBits_eq_of_forall ha h hb h'⟩⟩⟩
  have hmask (n) := ofAddr_eq_ofBits (n := n) ha hm hnet hip
  refine ⟨⟨fun hv => ?_, fun ⟨n, hn⟩ => ?_⟩, fun n hn => (hmask n hn).1⟩
  · unfold ofAddr at hv
    split_ifs at hv with hc
    obtain ⟨n, -, hn⟩ := checkMask_iff.1 hc.2.2
    exact ⟨n, ones_iff.2 hn⟩
  · rw [(hmask n hn).1]
    exact (hmask n hn).2

omit ha in
theorem subNet_spec_loopback : (ofBits ⟨.ipv4, [127, 0, 0, 1]⟩ 8).Match ⟨.ipv4, [127, 1, 2, 3]⟩ :=
  (((subNet_spec (a := ⟨_, _⟩) (by rfl)).2 8 rfl).1 _ (by rfl)).2
    ⟨by decide, rfl, by unfold Agree; decide⟩

end CSubNet

end KPCoin.NetAddress
