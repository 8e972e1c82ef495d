import Edos.Lib.Except
import Edos.Net.Tcp

/-!
# Packets

The formats of a received frame and the functions that take them apart. Every index and every slice
is checked, as the compiled code checks it: one that is out of range, or a sum that overflows, is a
panic, not a value. A parser that rejects its input returns `none`.

What the parsers cut out of a frame is described by `Returns`: they return, and the payload has the
length the header announces. `parse` of IPv4 is the exception. It slices up to the total length
without comparing that with the length of the header, so it needs a header that fits.
-/

namespace Edos.Net

/-- Why a computation of the kernel does not return. -/
inductive Trap
  /-- An index or a slice out of range, or an overflow. -/
  | panic
  /-- A loop that was cut off. -/
  | fuel
  deriving Repr, DecidableEq

/-- What a checked computation comes to. -/
abbrev Checked := Except Trap

/-! ## Checked reads -/

/-- `&data[start..stop]`. -/
def slice (data : List UInt8) (start stop : ℕ) : Checked (List UInt8) :=
  if start ≤ stop ∧ stop ≤ data.length then pure (window data start (stop - start))
  else throw .panic

/-- `data[i]`. -/
def readByte (data : List UInt8) (i : ℕ) : Checked UInt8 :=
  match data[i]? with
  | some b => pure b
  | none => throw .panic

/-- `from_be_bytes` of the `n` bytes at `off`. -/
def readBe (data : List UInt8) (off n : ℕ) : Checked ℕ := (slice data off (off + n)).map beNat

/-- `try_from(&data[off..off + n])`, an array of `n` bytes. -/
def readArray (n : ℕ) (data : List UInt8) (off : ℕ) : Checked (Vector UInt8 n) :=
  (slice data off (off + n)).map fun bs ↦ Vector.ofFn fun i ↦ bs.getD i 0

variable {data : List UInt8}

theorem slice_eq {start stop : ℕ} (h : start ≤ stop) (hlen : stop ≤ data.length) :
    slice data start stop = .ok (window data start (stop - start)) := if_pos ⟨h, hlen⟩

variable {i : ℕ}

theorem readByte_eq (h : i < data.length) : readByte data i = .ok (data.getD i 0) := by
  rw [readByte, List.getD_eq_getElem?_getD, List.getElem?_eq_getElem h]
  rfl

theorem readBe_eq {off n : ℕ} (h : off + n ≤ data.length) :
    readBe data off n = .ok (beNat (window data off n)) := by
  rw [readBe, slice_eq (Nat.le_add_right _ _) h, Nat.add_sub_cancel_left]
  rfl

theorem readArray_eq {off n : ℕ} (h : off + n ≤ data.length) :
    readArray n data off = .ok (Vector.ofFn fun i ↦ (window data off n).getD i 0) := by
  rw [readArray, slice_eq (Nat.le_add_right _ _) h, Nat.add_sub_cancel_left]
  rfl

/-- `internet_checksum`, with its 32-bit sum. The folding of the carries adds two 16-bit halves and
cannot overflow. -/
def checksum (data : List UInt8) : Checked (BitVec 16) :=
  if wordSum data < 2 ^ 32 then pure (internetChecksum data) else throw .panic

theorem checksum_eq (h : data.length ≤ 131000) : checksum data = .ok (internetChecksum data) := by
  have hsum := wordSum_le data
  exact if_pos (by omega)

/-! ## Ethernet -/

/-- A hardware address. -/
abbrev Mac := Vector UInt8 6

namespace Ethernet

def headerLen : ℕ := 14
def broadcast : Mac := #v[0xff, 0xff, 0xff, 0xff, 0xff, 0xff]
def ipv4 : ℕ := 0x0800
def arp : ℕ := 0x0806

structure EthernetHeader where
  dst : Mac
  src : Mac
  ethertype : ℕ

def parseFrame (data : List UInt8) : Checked (Option (EthernetHeader × List UInt8)) :=
  if data.length < headerLen then pure none
  else do
    let dst ← readArray 6 data 0
    let src ← readArray 6 data 6
    let ethertype ← readBe data 12 2
    let payload ← slice data headerLen data.length
    pure (some (⟨dst, src, ethertype⟩, payload))

theorem parseFrame_eq (data : List UInt8) (h : headerLen ≤ data.length) :
    ∃ hdr, parseFrame data = .ok (some (hdr, data.drop headerLen)) ∧
      hdr.ethertype = beNat (window data 12 2) := by
  have hlen : 14 ≤ data.length := h
  have htail : window data headerLen (data.length - headerLen) = data.drop headerLen :=
    List.take_of_length_le (by rw [List.length_drop])
  rw [parseFrame, if_neg (not_lt.mpr h), readArray_eq (by omega), readArray_eq (by omega),
    readBe_eq (by omega), slice_eq h le_rfl, htail]
  exact ⟨_, rfl, rfl⟩

def buildFrame (dst src : Mac) (ethertype : ℕ) (payload : List UInt8) : List UInt8 :=
  dst.toList ++ src.toList ++ beBytes 2 ethertype ++ payload

end Ethernet

/-! ## ARP -/

namespace Arp

/-- `ARP_REQUEST`. -/
def request : ℕ := 1
/-- `ARP_REPLY`. -/
def reply : ℕ := 2
def packetLen : ℕ := 28

structure ArpPacket where
  htype : ℕ
  ptype : ℕ
  hlen : UInt8
  plen : UInt8
  oper : ℕ
  sha : Mac
  spa : Ip
  tha : Mac
  tpa : Ip

def parse (data : List UInt8) : Checked (Option ArpPacket) :=
  if data.length < packetLen then pure none
  else do
    let htype ← readBe data 0 2
    let ptype ← readBe data 2 2
    let hlen ← readByte data 4
    let plen ← readByte data 5
    let oper ← readBe data 6 2
    let sha ← readArray 6 data 8
    let spa ← readArray 4 data 14
    let tha ← readArray 6 data 18
    let tpa ← readArray 4 data 24
    pure (some ⟨htype, ptype, hlen, plen, oper, sha, spa, tha, tpa⟩)

theorem parse_returns (data : List UInt8) : Returns (parse data) fun _ ↦ True := by
  rw [parse]
  split_ifs with hshort
  · exact .pure trivial
  · have hlen : 28 ≤ data.length := not_lt.mp hshort
    rw [readBe_eq (by omega), readBe_eq (by omega), readByte_eq (by omega), readByte_eq (by omega),
      readBe_eq (by omega), readArray_eq (by omega), readArray_eq (by omega),
      readArray_eq (by omega), readArray_eq (by omega)]
    exact .pure trivial

def ArpPacket.serialize (pkt : ArpPacket) : List UInt8 :=
  beBytes 2 pkt.htype ++ beBytes 2 pkt.ptype ++ [pkt.hlen, pkt.plen] ++ beBytes 2 pkt.oper ++
    pkt.sha.toList ++ pkt.spa.toList ++ pkt.tha.toList ++ pkt.tpa.toList

end Arp

/-! ## IPv4 -/

inductive IpProtocol
  | icmp
  | tcp
  | udp
  deriving Repr, DecidableEq

/-- The number of a protocol. -/
def IpProtocol.toByte : IpProtocol → UInt8
  | .icmp => 1
  | .tcp => 6
  | .udp => 17

/-- `Ipv4Header`. The fields that nothing reads (`dscp_ecn`, `ttl`, `checksum`) are left out. -/
structure Ipv4Header where
  versionIhl : UInt8
  totalLength : ℕ
  identification : ℕ
  flagsFragment : ℕ
  protocol : UInt8
  srcAddr : Ip
  dstAddr : Ip
  deriving DecidableEq

def Ipv4Header.headerLen (hdr : Ipv4Header) : ℕ := (hdr.versionIhl &&& 0x0f).toNat * 4

variable {payload : List UInt8}

namespace Ipv4

def headerLen : ℕ := 20

/-- The header that `parse` reads. -/
def readHeader (data : List UInt8) : Checked Ipv4Header := do
  let versionIhl ← readByte data 0
  let totalLength ← readBe data 2 2
  let identification ← readBe data 4 2
  let flagsFragment ← readBe data 6 2
  let protocol ← readByte data 9
  let srcAddr ← readArray 4 data 12
  let dstAddr ← readArray 4 data 16
  pure ⟨versionIhl, totalLength, identification, flagsFragment, protocol, srcAddr, dstAddr⟩

/-- `parse`, from the header on: `data[hdr_len..total]` is cut although `hdr_len` may be more than
`total`. -/
def parseBody (data : List UInt8) (hdr : Ipv4Header) :
    Checked (Option (Ipv4Header × List UInt8)) :=
  if data.length < hdr.headerLen then pure none
  else do
    let cksum ← checksum (← slice data 0 hdr.headerLen)
    if cksum ≠ 0 then pure none
    else if data.length < hdr.totalLength then pure none
    else do
      let payload ← slice data hdr.headerLen hdr.totalLength
      pure (some (hdr, payload))

def parse (data : List UInt8) : Checked (Option (Ipv4Header × List UInt8)) :=
  if data.length < headerLen then pure none
  else do
    let version ← readByte data 0
    if version >>> 4 ≠ 4 then pure none
    else readHeader data >>= parseBody data

/-- The header at the start of a packet. -/
def headerOf (data : List UInt8) : Ipv4Header where
  versionIhl := data.getD 0 0
  totalLength := beNat (window data 2 2)
  identification := beNat (window data 4 2)
  flagsFragment := beNat (window data 6 2)
  protocol := data.getD 9 0
  srcAddr := Vector.ofFn fun i ↦ (window data 12 4).getD i 0
  dstAddr := Vector.ofFn fun i ↦ (window data 16 4).getD i 0

theorem readHeader_eq {data : List UInt8} (h : headerLen ≤ data.length) :
    readHeader data = .ok (headerOf data) := by
  have hlen : 20 ≤ data.length := h
  rw [readHeader, readByte_eq (by omega), readBe_eq (by omega), readBe_eq (by omega),
    readBe_eq (by omega), readByte_eq (by omega), readArray_eq (by omega), readArray_eq (by omega)]
  rfl

theorem headerLen_le (hdr : Ipv4Header) : hdr.headerLen ≤ 60 := by
  have hnibble : hdr.versionIhl &&& 0x0f ≤ 0x0f := UInt8.and_le_right
  have hle : (hdr.versionIhl &&& 0x0f).toNat ≤ 15 := UInt8.le_iff_toNat_le.mp hnibble
  rw [Ipv4Header.headerLen]
  omega

/-- The checks of `parse` are passed. -/
def Accepted (data : List UInt8) : Prop :=
  headerLen ≤ data.length ∧ data.getD 0 0 >>> 4 = 4 ∧ (headerOf data).headerLen ≤ data.length ∧
    internetChecksum (window data 0 (headerOf data).headerLen) = 0 ∧
    (headerOf data).totalLength ≤ data.length

instance (data : List UInt8) : Decidable (Accepted data) := inferInstanceAs (Decidable (_ ∧ _))

/-- **`parse` returns** when the header of an accepted packet is not longer than the packet claims
to be, and then cuts what lies between. -/
theorem parse_returns {data : List UInt8}
    (h : Accepted data → (headerOf data).headerLen ≤ (headerOf data).totalLength) :
    Returns (parse data) fun r ↦ ∀ hdr payload, r = some (hdr, payload) →
      Accepted data ∧ hdr = headerOf data ∧
        payload = window data hdr.headerLen (hdr.totalLength - hdr.headerLen) := by
  refine .reject fun hshort ↦ ?_
  have hlen : headerLen ≤ data.length := not_lt.mp hshort
  rw [readByte_eq (lt_of_lt_of_le (by decide) hlen), readHeader_eq hlen]
  refine .reject fun hversion ↦ ?_
  refine .reject fun hcut ↦ ?_
  have hle := headerLen_le (headerOf data)
  have hwhole : (window data 0 ((headerOf data).headerLen - 0)).length ≤ 131000 := by
    rw [length_window (by omega)]
    omega
  rw [slice_eq (Nat.zero_le _) (Nat.not_lt.mp hcut)]
  show Returns (checksum _ >>= _) _
  rw [checksum_eq hwhole]
  refine .reject fun hsum ↦ ?_
  refine .reject fun htotal ↦ ?_
  have haccepted : Accepted data :=
    ⟨hlen, not_not.mp hversion, not_lt.mp hcut, not_not.mp hsum, not_lt.mp htotal⟩
  rw [slice_eq (h haccepted) (not_lt.mp htotal)]
  refine .pure fun hdr payload hsome ↦ ?_
  cases hsome
  exact ⟨haccepted, rfl, rfl⟩

def build (src dst : Ip) (protocol : IpProtocol) (ttl : UInt8) (id : BitVec 16)
    (payload : List UInt8) : List UInt8 :=
  let hdr := [0x45, 0x00] ++ beBytes 2 (headerLen + payload.length) ++ beBytes 2 id.toNat ++
    beBytes 2 0x4000 ++ [ttl, protocol.toByte] ++ beBytes 2 0 ++ src.toList ++ dst.toList
  patch hdr 10 (beBytes 2 (internetChecksum hdr).toNat) ++ payload

theorem exists_bytes (ip : Ip) : ∃ a b c d, ip.toList = [a, b, c, d] := by
  have hlen : ip.toList.length = 4 := Vector.length_toList
  match ip.toList, hlen with
  | [a, b, c, d], _ => exact ⟨a, b, c, d, rfl⟩

theorem ofFn_toList (ip : Ip) : Vector.ofFn (fun i : Fin 4 ↦ ip.toList.getD i 0) = ip := by
  refine Vector.ext fun i hi ↦ ?_
  rw [Vector.getElem_ofFn, List.getD_eq_getElem?_getD, Vector.getElem?_toList,
    Vector.getElem?_eq_getElem hi]
  rfl

/-- What `parse` sees of a packet that `build` made: the header has no options and says that the
packet is no fragment, and the length it gives is right unless it wraps. -/
theorem headerOf_build (src dst : Ip) (protocol : IpProtocol) (ttl : UInt8) (id : BitVec 16)
    (payload : List UInt8) :
    (headerOf (build src dst protocol ttl id payload)).headerLen = headerLen ∧
      (headerOf (build src dst protocol ttl id payload)).totalLength
        = (headerLen + payload.length) % 65536 ∧
      (headerOf (build src dst protocol ttl id payload)).flagsFragment = 0x4000 ∧
      (headerOf (build src dst protocol ttl id payload)).protocol = protocol.toByte ∧
      (build src dst protocol ttl id payload).drop headerLen = payload ∧
      (headerOf (build src dst protocol ttl id payload)).identification = id.toNat ∧
      (headerOf (build src dst protocol ttl id payload)).srcAddr = src ∧
      (headerOf (build src dst protocol ttl id payload)).dstAddr = dst := by
  obtain ⟨a, b, c, d, hsrc⟩ := exists_bytes src
  obtain ⟨a', b', c', d', hdst⟩ := exists_bytes dst
  have hsrcAddr := ofFn_toList src
  have hdstAddr := ofFn_toList dst
  have hlength := beNat_beBytes 2 (headerLen + payload.length)
  have hnumber := (beNat_beBytes 2 id.toNat).trans (Nat.mod_eq_of_lt id.isLt)
  obtain ⟨hi, lo, htotal⟩ := List.length_eq_two.mp (length_beBytes 2 (headerLen + payload.length))
  obtain ⟨ih, il, hid⟩ := List.length_eq_two.mp (length_beBytes 2 id.toNat)
  rw [build, hsrc, hdst, htotal, hid]
  rw [htotal] at hlength
  rw [hid] at hnumber
  rw [hsrc] at hsrcAddr
  rw [hdst] at hdstAddr
  generalize internetChecksum _ = cksum
  obtain ⟨ch, cl, hck⟩ := List.length_eq_two.mp (length_beBytes 2 cksum.toNat)
  refine ⟨?_, hlength, by exact rfl, by exact rfl, by exact rfl, hnumber, hsrcAddr, hdstAddr⟩
  show ((0x45 : UInt8) &&& 0x0f).toNat * 4 = 20
  decide

/-- **`parse` of a packet that `build` made**, if it is accepted. -/
theorem parse_build_returns (src dst : Ip) (protocol : IpProtocol) (ttl : UInt8) (id : BitVec 16)
    (h : payload.length ≤ 65515) :
    Returns (parse (build src dst protocol ttl id payload)) fun r ↦
      ∀ hdr p, r = some (hdr, p) →
        p = payload ∧ hdr.protocol = protocol.toByte ∧ hdr.flagsFragment = 0x4000 := by
  obtain ⟨hlen, htotal, hflags, hprotocol, hdrop, -⟩ :=
    headerOf_build src dst protocol ttl id payload
  have hheader : headerLen = 20 := rfl
  rw [Nat.mod_eq_of_lt (by omega)] at htotal
  refine (parse_returns fun _ ↦ (by rw [hlen, htotal]; omega)).mono fun r hr hdr p hsome ↦ ?_
  obtain ⟨-, rfl, hp⟩ := hr hdr p hsome
  refine ⟨?_, hprotocol, hflags⟩
  rw [hp, hlen, htotal, window, hdrop, Nat.add_sub_cancel_left, List.take_length]

end Ipv4

/-! ## ICMP -/

/-- `IcmpHeader`, as far as it is read. -/
structure IcmpHeader where
  type : UInt8
  id : ℕ
  seq : ℕ
  deriving DecidableEq

namespace Icmp

def echoRequest : UInt8 := 8
def echoReply : UInt8 := 0

def parse (data : List UInt8) : Checked (Option (IcmpHeader × List UInt8)) :=
  if data.length < 8 then pure none
  else do
    let cksum ← checksum data
    if cksum ≠ 0 then pure none
    else do
      let type ← readByte data 0
      let id ← readBe data 4 2
      let seq ← readBe data 6 2
      let payload ← slice data 8 data.length
      pure (some (⟨type, id, seq⟩, payload))

theorem parse_returns {data : List UInt8} (h : data.length ≤ 65535) :
    Returns (parse data) fun r ↦ ∀ hdr payload, r = some (hdr, payload) →
      hdr.type = data.getD 0 0 ∧ payload = data.drop 8 ∧ 8 ≤ data.length := by
  refine .reject fun hshort ↦ ?_
  rw [checksum_eq (by omega)]
  refine .reject fun _ ↦ ?_
  have htail : window data 8 (data.length - 8) = data.drop 8 :=
    List.take_of_length_le (by rw [List.length_drop])
  rw [readByte_eq (by omega), readBe_eq (by omega), readBe_eq (by omega),
    slice_eq (by omega) le_rfl, htail]
  refine .pure fun hdr payload hsome ↦ ?_
  cases hsome
  exact ⟨rfl, rfl, by omega⟩

def buildIcmp (type code : UInt8) (id seq : ℕ) (payload : List UInt8) : Checked (List UInt8) := do
  let msg := [type, code] ++ beBytes 2 0 ++ beBytes 2 id ++ beBytes 2 seq ++ payload
  let cksum ← checksum msg
  pure (patch msg 2 (beBytes 2 cksum.toNat))

def buildEchoReply (id seq : ℕ) (payload : List UInt8) : Checked (List UInt8) :=
  buildIcmp echoReply 0 id seq payload

theorem buildEchoReply_returns {id seq : ℕ} (h : payload.length ≤ 65535) :
    Returns (buildEchoReply id seq payload) fun reply ↦
      reply.length = payload.length + 8 ∧ reply.getD 0 0 = echoReply := by
  obtain ⟨ih, il, hid⟩ := List.length_eq_two.mp (length_beBytes 2 id)
  obtain ⟨sh, sl, hseq⟩ := List.length_eq_two.mp (length_beBytes 2 seq)
  rw [buildEchoReply, buildIcmp, hid, hseq, show beBytes 2 0 = [(0 : UInt8), 0] from rfl]
  rw [checksum_eq (by
    simp only [List.length_append, List.length_cons, List.length_nil]
    omega)]
  refine .pure ?_
  generalize internetChecksum _ = cksum
  obtain ⟨ch, cl, hck⟩ := List.length_eq_two.mp (length_beBytes 2 cksum.toNat)
  exact ⟨rfl, rfl⟩

end Icmp

/-! ## UDP -/

structure UdpHeader where
  srcPort : BitVec 16
  dstPort : BitVec 16
  length : ℕ
  checksum : ℕ

/-- The pseudo-header that the transport checksums cover, and the packet behind it. -/
def pseudoPacket (protocol : UInt8) (pkt : List UInt8) (srcIp dstIp : Ip) : List UInt8 :=
  srcIp.toList ++ dstIp.toList ++ [0, protocol] ++ beBytes 2 pkt.length ++ pkt

@[simp] theorem length_pseudoPacket (protocol : UInt8) (pkt : List UInt8) (srcIp dstIp : Ip) :
    (pseudoPacket protocol pkt srcIp dstIp).length = pkt.length + 12 := by
  simp only [pseudoPacket, List.length_append, Vector.length_toList, List.length_cons,
    List.length_nil, length_beBytes]
  omega

namespace Udp

def headerLen : ℕ := 8

/-- `parse`, from the header on. -/
def parseBody (data : List UInt8) (srcIp dstIp : Ip) (hdr : UdpHeader) :
    Checked (Option (UdpHeader × List UInt8)) :=
  if hdr.length < headerLen ∨ data.length < hdr.length then pure none
  else do
    let datagram ← slice data 0 hdr.length
    if hdr.checksum ≠ 0 then
      if (← checksum (pseudoPacket 17 datagram srcIp dstIp)) ≠ 0 then pure none
      else pure (some (hdr, ← slice datagram headerLen datagram.length))
    else pure (some (hdr, ← slice datagram headerLen datagram.length))

def parse (data : List UInt8) (srcIp dstIp : Ip) : Checked (Option (UdpHeader × List UInt8)) :=
  if data.length < headerLen then pure none
  else do
    let srcPort ← readBe data 0 2
    let dstPort ← readBe data 2 2
    let length ← readBe data 4 2
    let cksum ← readBe data 6 2
    parseBody data srcIp dstIp ⟨BitVec.ofNat 16 srcPort, BitVec.ofNat 16 dstPort, length, cksum⟩

theorem parse_returns {data : List UInt8} (srcIp dstIp : Ip) (h : data.length ≤ 65535) :
    Returns (parse data srcIp dstIp) fun _ ↦ True := by
  refine .ite (fun _ ↦ .pure trivial) fun hshort ↦ ?_
  have hlen : 8 ≤ data.length := not_lt.mp hshort
  rw [readBe_eq (by omega), readBe_eq (by omega), readBe_eq (by omega), readBe_eq (by omega)]
  refine .ite (fun _ ↦ .pure trivial) fun hfits ↦ ?_
  rw [not_or, not_lt, not_lt] at hfits
  rw [slice_eq (Nat.zero_le _) hfits.2]
  have hdatagram : headerLen ≤ (window data 0 (beNat (window data 4 2) - 0)).length := by
    rw [length_window (by simpa using hfits.2)]
    simpa using hfits.1
  have hrest := slice_eq hdatagram le_rfl
  refine .ite (fun _ ↦ ?_) fun _ ↦ ?_
  · rw [checksum_eq (by
      rw [length_pseudoPacket, length_window (by simpa using hfits.2)]
      omega)]
    refine .ite (fun _ ↦ .pure trivial) fun _ ↦ ?_
    rw [hrest]
    exact .pure trivial
  · rw [hrest]
    exact .pure trivial

end Udp

/-! ## TCP -/

namespace Tcp

/-- The header that `parse` reads. -/
def readHeader (data : List UInt8) : Checked TcpHeader := do
  let srcPort ← readBe data 0 2
  let dstPort ← readBe data 2 2
  let seqNum ← readBe data 4 4
  let ackNum ← readBe data 8 4
  let dataOffset ← readByte data 12
  let flags ← readByte data 13
  let window ← readBe data 14 2
  pure ⟨BitVec.ofNat 16 srcPort, BitVec.ofNat 16 dstPort, BitVec.ofNat 32 seqNum,
    BitVec.ofNat 32 ackNum, (dataOffset >>> 4).toNat, flags, BitVec.ofNat 16 window⟩

def parse (data : List UInt8) (srcIp dstIp : Ip) : Checked (Option (TcpHeader × List UInt8)) :=
  if data.length < 20 then pure none
  else do
    let cksum ← checksum (pseudoPacket 6 data srcIp dstIp)
    if cksum ≠ 0 then pure none
    else do
      let hdr ← readHeader data
      if hdr.headerLen < 20 ∨ data.length < hdr.headerLen then pure none
      else do
        let payload ← slice data hdr.headerLen data.length
        pure (some (hdr, payload))

theorem parse_returns {data : List UInt8} (srcIp dstIp : Ip) (h : data.length ≤ 65535) :
    Returns (parse data srcIp dstIp) fun r ↦ ∀ hdr payload, r = some (hdr, payload) →
      hdr.flags = data.getD 13 0 ∧ payload = data.drop ((data.getD 12 0 >>> 4).toNat * 4) := by
  refine .reject fun hshort ↦ ?_
  rw [checksum_eq (by rw [length_pseudoPacket]; omega)]
  refine .reject fun _ ↦ ?_
  rw [readHeader, readBe_eq (by omega), readBe_eq (by omega), readBe_eq (by omega),
    readBe_eq (by omega), readByte_eq (by omega), readByte_eq (by omega), readBe_eq (by omega)]
  refine .reject fun hfits ↦ ?_
  rw [not_or, not_lt, not_lt] at hfits
  rw [slice_eq hfits.2 le_rfl]
  refine .pure fun hdr payload hsome ↦ ?_
  cases hsome
  exact ⟨rfl, List.take_of_length_le (by rw [List.length_drop])⟩

/-- The loop of `parse_mss`, from index `i` on. -/
def parseMssLoop (opts : List UInt8) (i : ℕ) : Checked (Option (BitVec 16)) :=
  if opts.length ≤ i then pure none
  else do
    let kind ← readByte opts i
    if kind = 0 then pure none
    else if kind = 1 then parseMssLoop opts (i + 2)
    else if kind = 2 then
      if i + 3 < opts.length then do
        if (← readByte opts (i + 1)) = 4 then
          pure (some (BitVec.ofNat 16 (← readBe opts (i + 2) 2)))
        else pure none
      else pure none
    else if opts.length ≤ i + 1 then pure none
    else do
      let len ← readByte opts (i + 1)
      if len.toNat < 2 then pure none else parseMssLoop opts (i + len.toNat)
termination_by opts.length - i

/-- `parse_mss`, with its indices checked. -/
def parseMss (data : List UInt8) (dataOffset : ℕ) : Checked (Option (BitVec 16)) :=
  if dataOffset * 4 ≤ 20 ∨ data.length < dataOffset * 4 then pure none
  else do parseMssLoop (← slice data 20 (dataOffset * 4)) 0

variable {b : UInt8}

theorem readByte_of_drop {data rest : List UInt8}
    (h : data.drop i = b :: rest) : readByte data i = .ok b := by
  have hget : data[i]? = some b := by
    rw [← add_zero i, ← List.getElem?_drop, h]
    rfl
  rw [readByte, hget]
  rfl

theorem drop_succ_of_drop {data rest : List UInt8}
    (h : data.drop i = b :: rest) : data.drop (i + 1) = rest := by
  rw [← List.drop_drop, h]
  rfl

/-- No index of the loop is out of range: it reads what `parseMssOptions` takes from the options
that are left. -/
theorem parseMssLoop_eq (opts : List UInt8) (i : ℕ) :
    parseMssLoop opts i = .ok (parseMssOptions (opts.drop i)) := by
  fun_induction parseMssLoop opts i with
  | case1 i hdone =>
    rw [List.drop_eq_nil_of_le hdone, parseMssOptions]
    rfl
  | case2 i hmore ih₁ ih₂ =>
    cases hrest : opts.drop i with
    | nil => exact absurd (List.drop_eq_nil_iff.mp hrest) hmore
    | cons kind rest =>
      have hnext := drop_succ_of_drop hrest
      have hlen : opts.length = i + 1 + rest.length := by
        have := congrArg List.length hrest
        rw [List.length_drop, List.length_cons] at this
        omega
      rw [readByte_of_drop hrest, parseMssOptions.eq_def]
      show (if kind = 0 then _ else _) = Except.ok (if kind = 0 then _ else _)
      by_cases h0 : kind = 0
      · rw [if_pos h0, if_pos h0]
        rfl
      rw [if_neg h0, if_neg h0]
      by_cases h1 : kind = 1
      · rw [if_pos h1, if_pos h1, ih₁, ← hnext, List.drop_drop]
      rw [if_neg h1, if_neg h1]
      by_cases h2 : kind = 2
      · rw [if_pos h2, if_pos h2]
        rcases rest with _ | ⟨len, _ | ⟨hi, _ | ⟨lo, tail⟩⟩⟩
        case cons.cons.cons =>
          have hval := drop_succ_of_drop hnext
          rw [if_pos (by rw [hlen]; simp only [List.length_cons]; omega), readByte_of_drop hnext,
            readBe_eq (by rw [hlen]; simp only [List.length_cons]; omega), window, hval]
          show (if len = 4 then _ else _) = Except.ok (if len = 4 then _ else _)
          split_ifs <;> rfl
        all_goals
          rw [if_neg (by rw [hlen]; simp only [List.length_cons, List.length_nil]; omega)]
          rfl
      · rw [if_neg h2, if_neg h2]
        cases rest with
        | nil =>
          rw [if_pos (show opts.length ≤ i + 1 from hlen.le)]
          rfl
        | cons len tail =>
          have hbound : ¬opts.length ≤ i + 1 := by
            rw [hlen, List.length_cons]
            omega
          rw [if_neg hbound, readByte_of_drop hnext]
          show (if len.toNat < 2 then _ else _) = Except.ok (if len.toNat < 2 then _ else _)
          by_cases hshort : len.toNat < 2
          · rw [if_pos hshort, if_pos hshort]
            rfl
          · rw [if_neg hshort, if_neg hshort, ih₂ hbound len hshort, ← hnext, List.drop_drop,
              show i + 1 + (len.toNat - 1) = i + len.toNat by omega]

theorem parseMss_eq (data : List UInt8) (dataOffset : ℕ) :
    parseMss data dataOffset = .ok (Net.parseMss data dataOffset) := by
  rw [parseMss, Net.parseMss]
  split_ifs with hnone
  · rfl
  · rw [not_or, not_le, not_lt] at hnone
    rw [slice_eq hnone.1.le hnone.2]
    exact parseMssLoop_eq _ 0

/-- A header with its checksum filled in, and no data behind it. -/
theorem patch_header {hdr : List UInt8} (ck : List UInt8) {offset flags : UInt8}
    (hlong : 18 ≤ hdr.length) (h12 : hdr[12]? = some offset) (h13 : hdr[13]? = some flags)
    (hoffset : (offset >>> 4).toNat * 4 = hdr.length) (hck : ck.length = 2) :
    (patch hdr 16 ck).length = hdr.length ∧ (patch hdr 16 ck).getD 13 0 = flags ∧
      (patch hdr 16 ck).drop (((patch hdr 16 ck).getD 12 0 >>> 4).toNat * 4) = [] := by
  have hlen : (patch hdr 16 ck).length = hdr.length := length_patch (by omega)
  have hbyte : ∀ i < 16, (patch hdr 16 ck).getD i 0 = hdr[i]?.getD 0 := by
    intro i hi
    rw [List.getD_eq_getElem?_getD, getElem?_patch _ (by omega), if_pos hi]
  refine ⟨hlen, ?_, ?_⟩
  · rw [hbyte 13 (by decide), h13]
    rfl
  · rw [hbyte 12 (by decide), h12]
    exact List.drop_eq_nil_of_le (by rw [hlen]; exact hoffset.ge)

/-- What `parse` sees of a segment without data that `build` made, with or without the MSS
option. -/
theorem build_empty (srcPort dstPort : BitVec 16) (seq ack : Seq) (flags : UInt8) (wnd : BitVec 16)
    (srcIp dstIp : Ip) {options : List UInt8} (hoptions : options.length = 0 ∨ options.length = 4) :
    let seg := build srcPort dstPort seq ack flags wnd srcIp dstIp options []
    seg.length ≤ 24 ∧ seg.getD 13 0 = flags ∧ seg.drop ((seg.getD 12 0 >>> 4).toNat * 4) = [] := by
  intro seg
  let offset := UInt8.ofNat ((20 + options.length + 3) / 4)
  let hdr := beBytes 2 srcPort.toNat ++ beBytes 2 dstPort.toNat ++ beBytes 4 seq.toNat ++
    beBytes 4 ack.toNat ++ [offset <<< 4, flags] ++ beBytes 2 wnd.toNat ++ beBytes 2 0 ++
    beBytes 2 0 ++ options
  have hlen : hdr.length = 20 + options.length := by
    simp [hdr]
    omega
  have hoffset : offset.toNat * 4 = hdr.length ∧ (offset <<< 4 >>> 4).toNat * 4 = hdr.length := by
    rw [hlen]
    rcases hoptions with h | h <;> simp only [offset, h] <;> decide
  have hseg : seg = patch hdr 16 (beBytes 2 (tcpChecksum hdr srcIp dstIp).toNat) := by
    show patch (hdr ++ List.replicate (offset.toNat * 4 - hdr.length) 0 ++ []) 16
      (beBytes 2 (tcpChecksum (hdr ++ List.replicate (offset.toNat * 4 - hdr.length) 0 ++ [])
        srcIp dstIp).toNat) = _
    rw [hoffset.1, Nat.sub_self, List.replicate_zero, List.append_nil, List.append_nil]
  obtain ⟨hlength, hflags, hdrop⟩ := patch_header
    (beBytes 2 (tcpChecksum hdr srcIp dstIp).toNat) (show 18 ≤ hdr.length by omega)
    (show hdr[12]? = some (offset <<< 4) by simp [hdr, List.getElem?_append])
    (show hdr[13]? = some flags by simp [hdr, List.getElem?_append]) hoffset.2
    (length_beBytes _ _)
  rw [hseg]
  exact ⟨by omega, hflags, hdrop⟩

end Tcp

end Edos.Net
