import Edos.Net.Packet

/-!
# Reassembly of fragments

A datagram that arrives in fragments is put together in a buffer, beside the list of the byte ranges
that have arrived. It is complete when that list is the one range from zero to the end of the last
fragment.

The transport layer gets whole datagrams, and how long they can be matters to what is sent back:
the reply to an echo request is as long as the request and has a header of its own, so a datagram
of more than 65515 bytes has an answer that is too long for IPv4. `TableOk` keeps track of it.
-/

namespace Edos.Net

open List

def maxEntries : ℕ := 32
def maxDatagram : ℕ := 65535

structure FragKey where
  src : Ip
  dst : Ip
  protocol : UInt8
  identification : ℕ
  deriving DecidableEq

structure ReassemblyEntry where
  buffer : List UInt8
  ranges : List (ℕ × ℕ)
  totalLen : Option ℕ
  header : Ipv4Header
  created : ℕ

/-- `buf[start..stop].copy_from_slice(src)`. -/
def copyFromSlice (buf : List UInt8) (start stop : ℕ) (src : List UInt8) : Checked (List UInt8) :=
  if start ≤ stop ∧ stop ≤ buf.length ∧ src.length = stop - start then pure (patch buf start src)
  else throw .panic

namespace ReassemblyEntry

def new (now : ℕ) (header : Ipv4Header) : ReassemblyEntry := ⟨[], [], none, header, now⟩

/-- The pass of `add_range` over the ranges: those that touch the new range are absorbed into it,
which may make it touch later ones. -/
def absorb (ranges : List (ℕ × ℕ)) (start stop : ℕ) : List (ℕ × ℕ) × ℕ × ℕ :=
  ranges.foldl (fun acc r ↦
    if r.1 ≤ acc.2.2 ∧ acc.2.1 ≤ r.2 then (acc.1, min acc.2.1 r.1, max acc.2.2 r.2)
    else (acc.1 ++ [r], acc.2)) ([], start, stop)

/-- `add_range`. -/
def addRange (e : ReassemblyEntry) (start stop : ℕ) : ReassemblyEntry :=
  let merged := absorb e.ranges start stop
  let pos := (merged.1.takeWhile fun r ↦ r.1 < merged.2.1).length
  { e with ranges := merged.1.take pos ++ [merged.2] ++ merged.1.drop pos }

/-- The test at the end of `insert`. -/
def complete (e : ReassemblyEntry) : Bool :=
  match e.totalLen with
  | some total => e.ranges = [(0, total)]
  | none => false

/-- `insert`. -/
def insert (e : ReassemblyEntry) (offset : ℕ) (mf : Bool) (data : List UInt8) :
    Checked (Bool × ReassemblyEntry) :=
  let stop := offset + data.length
  if maxDatagram < stop then pure (false, e)
  else do
    let grown := e.buffer ++ replicate (stop - e.buffer.length) 0
    let buffer ← copyFromSlice grown offset stop data
    let totalLen := if mf then e.totalLen else some stop
    let e := { e with buffer := buffer, totalLen := totalLen }.addRange offset stop
    pure (e.complete, e)

/-- `is_expired`. -/
def isExpired (e : ReassemblyEntry) (now : ℕ) : Bool := 30 ≤ (now - e.created) / 1000000000

/-- **`insert` returns**; the buffer grows to the end of the fragment, and a complete datagram has
a known length. -/
theorem insert_returns (e : ReassemblyEntry) (offset : ℕ) (mf : Bool) (data : List UInt8) :
    Returns (e.insert offset mf data) fun r ↦ r.2.header = e.header ∧
      (r.2.buffer.length = e.buffer.length ∨
        offset + data.length ≤ maxDatagram ∧
          r.2.buffer.length = max e.buffer.length (offset + data.length)) ∧
      (r.1 = true → r.2.totalLen ≠ none) := by
  refine .ite (fun _ ↦ .pure ⟨rfl, .inl rfl, fun hcontra ↦ (by cases hcontra)⟩) fun hfits ↦ ?_
  have hgrown : (e.buffer ++ replicate (offset + data.length - e.buffer.length) 0).length
      = max e.buffer.length (offset + data.length) := by
    rw [length_append, length_replicate]
    omega
  rw [copyFromSlice, if_pos ⟨Nat.le_add_right _ _, by omega, by omega⟩]
  refine .pure ⟨rfl, .inr ⟨not_lt.mp hfits, ?_⟩, fun hcomplete hnone ↦ ?_⟩
  · rw [← hgrown]
    exact length_patch (by omega)
  · rw [complete, hnone] at hcomplete
    cases hcomplete

end ReassemblyEntry

/-- `ReassemblyTable`: the datagrams that are being put together. -/
abbrev ReassemblyTable := List (FragKey × ReassemblyEntry)

/-- The offset of a fragment, in bytes. -/
def Ipv4Header.fragOffset (hdr : Ipv4Header) : ℕ := hdr.flagsFragment % 2 ^ 13 * 8

/-- Whether more fragments follow. -/
def Ipv4Header.moreFragments (hdr : Ipv4Header) : Bool := hdr.flagsFragment / 2 ^ 13 % 2 = 1

/-- The key of a fragment. -/
def Ipv4Header.fragKey (hdr : Ipv4Header) : FragKey :=
  ⟨hdr.srcAddr, hdr.dstAddr, hdr.protocol, hdr.identification⟩

namespace ReassemblyTable

def unwrap : Option ℕ → Checked ℕ
  | some n => pure n
  | none => throw .panic

/-- A fragment that has its entry, in the table without it: the datagram, if it is complete, and
the table. -/
def store (rest : ReassemblyTable) (entry : ReassemblyEntry) (hdr : Ipv4Header)
    (payload : List UInt8) : Checked (Option (Ipv4Header × List UInt8) × ReassemblyTable) := do
  let r ← entry.insert hdr.fragOffset hdr.moreFragments payload
  if r.1 then
    let total ← unwrap r.2.totalLen
    pure (some (r.2.header, r.2.buffer.take total), rest)
  else pure (none, rest ++ [(hdr.fragKey, r.2)])

/-- `process`. -/
def process (table : ReassemblyTable) (now : ℕ) (hdr : Ipv4Header) (payload : List UInt8) :
    Checked (Option (Ipv4Header × List UInt8) × ReassemblyTable) :=
  if hdr.fragOffset = 0 ∧ hdr.moreFragments = false then pure (some (hdr, payload), table)
  else
    let live := table.filter fun e ↦ !e.2.isExpired now
    match live.lookup hdr.fragKey with
    | some entry => store (live.filter fun e ↦ e.1 ≠ hdr.fragKey) entry hdr payload
    | none =>
      if maxEntries ≤ live.length then pure (none, live)
      else store live (.new now hdr) hdr payload

/-- Every buffer is within a datagram, and within what can be answered if it is for ICMP. -/
def TableOk (table : ReassemblyTable) : Prop :=
  ∀ e ∈ table, e.2.header.protocol = e.1.protocol ∧ e.2.buffer.length ≤ maxDatagram ∧
    (e.1.protocol = IpProtocol.icmp.toByte → e.2.buffer.length ≤ 65515)

variable {table : ReassemblyTable}

theorem TableOk.filter (h : TableOk table)
    (p : FragKey × ReassemblyEntry → Bool) : TableOk (table.filter p) :=
  fun e he ↦ h e (mem_of_mem_filter he)

/-- What `process` hands on: a datagram, within what can be answered if it is an echo request. -/
def Handed (r : Option (Ipv4Header × List UInt8) × ReassemblyTable) : Prop :=
  TableOk r.2 ∧ ∀ hdr payload, r.1 = some (hdr, payload) → payload.length ≤ maxDatagram ∧
    (hdr.protocol = IpProtocol.icmp.toByte → payload.getD 0 0 = Icmp.echoRequest →
      payload.length ≤ 65515)

variable {hdr : Ipv4Header} {payload : List UInt8}

theorem store_returns {rest : ReassemblyTable} {entry : ReassemblyEntry} (hrest : TableOk rest)
    (hprotocol : entry.header.protocol = hdr.protocol) (hbuffer : entry.buffer.length ≤ maxDatagram)
    (hentry : hdr.protocol = IpProtocol.icmp.toByte → entry.buffer.length ≤ 65515)
    (hpayload : hdr.protocol = IpProtocol.icmp.toByte → hdr.fragOffset + payload.length ≤ 65515) :
    Returns (store rest entry hdr payload) Handed := by
  refine (entry.insert_returns hdr.fragOffset hdr.moreFragments payload).bind ?_
  rintro ⟨done, entry'⟩ ⟨hheader, hlen, hdone⟩
  have hmax : entry'.buffer.length ≤ maxDatagram := by
    rcases hlen with hlen | ⟨hfits, hlen⟩ <;> rw [hlen]
    · exact hbuffer
    · exact max_le hbuffer hfits
  have hicmp : hdr.protocol = IpProtocol.icmp.toByte → entry'.buffer.length ≤ 65515 := by
    intro hp
    rcases hlen with hlen | ⟨-, hlen⟩ <;> rw [hlen]
    · exact hentry hp
    · exact max_le (hentry hp) (hpayload hp)
  have hsame : entry'.header.protocol = hdr.protocol := (congrArg _ hheader).trans hprotocol
  refine .ite (fun hcomplete ↦ ?_) fun _ ↦ ?_
  · cases htotal : entry'.totalLen with
    | none => exact absurd htotal (hdone hcomplete)
    | some total =>
      refine .pure ⟨hrest, ?_⟩
      rintro hdr' payload' hsome
      cases hsome
      have htake : (entry'.buffer.take total).length ≤ entry'.buffer.length :=
        length_take_le' _ _
      exact ⟨htake.trans hmax, fun hp _ ↦ htake.trans (hicmp (hsame.symm.trans hp))⟩
  · refine .pure ⟨?_, fun _ _ hnone ↦ (by cases hnone)⟩
    rw [TableOk, forall_mem_append, forall_mem_singleton]
    exact ⟨hrest, hsame, hmax, hicmp⟩

/-- **`process` returns.** -/
theorem process_returns (h : TableOk table) (now : ℕ) (hdr : Ipv4Header)
    (hlen : payload.length ≤ maxDatagram)
    (hpayload : hdr.protocol = IpProtocol.icmp.toByte →
      (hdr.fragOffset = 0 ∧ hdr.moreFragments = false → payload.getD 0 0 = Icmp.echoRequest) →
      hdr.fragOffset + payload.length ≤ 65515) :
    Returns (process table now hdr payload) Handed := by
  refine .ite (fun hwhole ↦ .pure ⟨h, ?_⟩) fun hpart ↦ ?_
  · rintro hdr' payload' hsome
    cases hsome
    refine ⟨hlen, fun hp hecho ↦ ?_⟩
    have := hpayload hp fun _ ↦ hecho
    omega
  · have hfragment (hp : hdr.protocol = IpProtocol.icmp.toByte) :
        hdr.fragOffset + payload.length ≤ 65515 := hpayload hp fun hwhole ↦ absurd hwhole hpart
    have hlive : TableOk (table.filter fun e ↦ !e.2.isExpired now) := h.filter _
    dsimp only
    cases hlookup : (table.filter fun e ↦ !e.2.isExpired now).lookup hdr.fragKey with
    | some entry =>
      obtain ⟨l₁, l₂, hl, -⟩ := List.lookup_eq_some_iff.mp hlookup
      have hmem : (hdr.fragKey, entry) ∈ table.filter fun e ↦ !e.2.isExpired now := by
        rw [hl]
        simp
      obtain ⟨hprotocol, hbuffer, hicmp⟩ := hlive _ hmem
      exact store_returns (hlive.filter _) hprotocol hbuffer hicmp hfragment
    | none =>
      refine .ite (fun _ ↦ .pure ⟨hlive, fun _ _ hnone ↦ (by cases hnone)⟩) fun _ ↦ ?_
      exact store_returns hlive rfl (Nat.zero_le _) (fun _ ↦ Nat.zero_le _) hfragment

theorem process_whole (table : ReassemblyTable) (now : ℕ) (h : hdr.flagsFragment = 0x4000)
    (payload : List UInt8) : process table now hdr payload = .ok (some (hdr, payload), table) := by
  refine if_pos ⟨?_, ?_⟩
  · rw [Ipv4Header.fragOffset, h]
    decide
  · rw [Ipv4Header.moreFragments, h]
    rfl

end ReassemblyTable

end Edos.Net
