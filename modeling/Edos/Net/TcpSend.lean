import Edos.Net.TcpReceive

/-!
# The send side of a connection

The retransmit queue holds what has been sent and not been acknowledged: consecutive ranges of the
sequence space that end at `snd_nxt`, of which only the first may be acknowledged in part. All
positions are measured from the start of the first range. The space in the queue stays below 2³¹,
so serial comparison of positions is comparison of distances.

What is in flight is bounded by 65535 while data may be sent, since the peer's window is a 16-bit
number, and by one more once the `FIN` has been sent.
-/

namespace Edos.Net

open List Option

/-- The ranges of a queue follow each other from `start` to `stop`. -/
def Consecutive : Seq → List RetransmitSegment → Seq → Prop
  | start, [], stop => start = stop
  | start, seg :: rest, stop => seg.seq = start ∧ Consecutive (start + seg.payloadLen) rest stop

/-- The sequence space of a queue. -/
def span (queue : List RetransmitSegment) : ℕ := (queue.map fun seg ↦ seg.payloadLen.toNat).sum

@[simp] theorem span_nil : span [] = 0 := rfl

@[simp] theorem span_cons (seg : RetransmitSegment) (rest : List RetransmitSegment) :
    span (seg :: rest) = seg.payloadLen.toNat + span rest := rfl

theorem span_append (queue queue' : List RetransmitSegment) :
    span (queue ++ queue') = span queue + span queue' := by
  rw [span, map_append, sum_append]
  rfl

theorem add_payloadLen (base : Seq) (o : ℕ) (seg : RetransmitSegment) :
    base + BitVec.ofNat 32 o + seg.payloadLen
      = base + BitVec.ofNat 32 (o + seg.payloadLen.toNat) := by
  rw [BitVec.ofNat_add, BitVec.ofNat_toNat, BitVec.setWidth_eq, ← add_assoc]

variable {base stop : Seq} {queue : List RetransmitSegment} {p : ℕ}

theorem Consecutive.stop_eq :
    ∀ {o : ℕ}, Consecutive (base + BitVec.ofNat 32 o) queue stop →
      stop = base + BitVec.ofNat 32 (o + span queue) := by
  induction queue with
  | nil =>
    intro o h
    exact h.symm
  | cons seg rest ih =>
    intro o h
    have hrest := h.2
    rw [add_payloadLen] at hrest
    rw [ih hrest, span_cons, add_assoc]

theorem Consecutive.append {start : Seq} {seg : RetransmitSegment}
    (h : Consecutive start queue stop) (hseq : seg.seq = stop) :
    Consecutive start (queue ++ [seg]) (stop + seg.payloadLen) := by
  induction queue generalizing start with
  | nil =>
    have hstart : start = stop := h
    exact ⟨hseq.trans hstart.symm, by rw [hstart]; rfl⟩
  | cons first rest ih => exact ⟨h.1, ih h.2⟩

theorem Consecutive.exists_segment (hp : p < 2 ^ 32) :
    ∀ {queue : List RetransmitSegment} {o : ℕ}, Consecutive (base + BitVec.ofNat 32 o) queue stop →
      o ≤ p → p < o + span queue →
      ∃ seg ∈ queue, serialDist (base + BitVec.ofNat 32 p) seg.seq < seg.payloadLen.toNat := by
  intro queue
  induction queue with
  | nil =>
    intro o _ hle hlt
    rw [span_nil] at hlt
    omega
  | cons seg rest ih =>
    intro o h hle hlt
    have hrest := h.2
    rw [add_payloadLen] at hrest
    rw [span_cons] at hlt
    by_cases hhere : p < o + seg.payloadLen.toNat
    · refine ⟨seg, mem_cons_self, ?_⟩
      have hsplit : base + BitVec.ofNat 32 p = seg.seq + BitVec.ofNat 32 (p - o) := by
        rw [h.1, add_assoc, ← BitVec.ofNat_add, Nat.add_sub_cancel' hle]
      rw [hsplit, serialDist_add _ (by omega)]
      omega
    · obtain ⟨seg', hmem, hin⟩ := ih hrest (by omega) (by omega)
      exact ⟨seg', mem_cons_of_mem _ hmem, hin⟩

theorem filter_of_lt :
    ∀ {queue : List RetransmitSegment} {o : ℕ}, Consecutive (base + BitVec.ofNat 32 o) queue stop →
      p ≤ o → (∀ seg ∈ queue, 0 < seg.payloadLen.toNat) → o + span queue < 2 ^ 31 →
      queue.filter (fun seg ↦ serialGt (seg.seq + seg.payloadLen) (base + BitVec.ofNat 32 p))
        = queue := by
  intro queue
  induction queue with
  | nil => exact fun _ _ _ _ ↦ rfl
  | cons seg rest ih =>
    intro o h hp hpos hfits
    have hrest := h.2
    rw [add_payloadLen] at hrest
    rw [span_cons] at hfits
    have hlen := hpos seg mem_cons_self
    have hkeep : serialGt (seg.seq + seg.payloadLen) (base + BitVec.ofNat 32 p) = true := by
      rw [h.1, add_payloadLen, serialGt_add_add base (by omega) (by omega), decide_eq_true_iff]
      omega
    rw [filter_cons, if_pos hkeep,
      ih hrest (by omega) (fun s hs ↦ hpos s (mem_cons_of_mem _ hs)) (by omega)]

/-- What is left of a queue when everything up to position `p` has been acknowledged. -/
theorem exists_filter :
    ∀ {queue : List RetransmitSegment} {o : ℕ}, Consecutive (base + BitVec.ofNat 32 o) queue stop →
      o ≤ p → p ≤ o + span queue → (∀ seg ∈ queue, 0 < seg.payloadLen.toNat) →
      o + span queue < 2 ^ 31 →
      ∃ queue' o', queue.filter (fun seg ↦
          serialGt (seg.seq + seg.payloadLen) (base + BitVec.ofNat 32 p)) = queue' ∧
        Consecutive (base + BitVec.ofNat 32 o') queue' stop ∧ o' ≤ p ∧
        o' + span queue' = o + span queue ∧ (queue' = [] → p = o') ∧
        ∀ seg rest, queue' = seg :: rest → p < o' + seg.payloadLen.toNat := by
  intro queue
  induction queue with
  | nil =>
    intro o h hle hp _ _
    rw [span_nil] at hp
    exact ⟨[], o, rfl, h, hle, rfl, fun _ ↦ by omega, fun _ _ hcontra ↦ (by cases hcontra)⟩
  | cons seg rest ih =>
    intro o h hle hp hpos hfits
    have hrest := h.2
    rw [add_payloadLen] at hrest
    rw [span_cons] at hfits hp
    have hposRest : ∀ s ∈ rest, 0 < s.payloadLen.toNat :=
      fun s hs ↦ hpos s (mem_cons_of_mem _ hs)
    have htest : serialGt (seg.seq + seg.payloadLen) (base + BitVec.ofNat 32 p)
        = decide (p < o + seg.payloadLen.toNat) := by
      rw [h.1, add_payloadLen, serialGt_add_add base (by omega) (by omega)]
    by_cases hcovered : o + seg.payloadLen.toNat ≤ p
    · obtain ⟨queue', o', hfilter, hcons, hle', hspan, hnil, hhead⟩ :=
        ih hrest hcovered (by omega) hposRest (by omega)
      refine ⟨queue', o', ?_, hcons, hle', by rw [hspan, span_cons]; omega, hnil, hhead⟩
      rw [filter_cons, if_neg (by rw [htest]; simpa using hcovered), hfilter]
    · refine ⟨seg :: rest, o, ?_, h, hle, rfl, fun hcontra ↦ (by cases hcontra), ?_⟩
      · rw [filter_cons, if_pos (by rw [htest]; simpa using hcovered),
          filter_of_lt hrest (by omega) hposRest (by omega)]
      · rintro seg' rest' heq
        cases heq
        omega

/-- The part of the sequence space a segment takes. -/
def RetransmitSegment.range (seg : RetransmitSegment) : Seq × Seq := (seg.seq, seg.payloadLen)

theorem Consecutive.of_ranges :
    ∀ {start : Seq} {queue' : List RetransmitSegment}, Consecutive start queue stop →
      queue'.map RetransmitSegment.range = queue.map RetransmitSegment.range →
      Consecutive start queue' stop := by
  induction queue with
  | nil =>
    intro start queue' h hranges
    rw [map_eq_nil_iff.mp hranges]
    exact h
  | cons seg rest ih =>
    intro start queue' h hranges
    obtain ⟨seg', rest', rfl, hseg, hrest⟩ := map_eq_cons_iff.mp hranges
    obtain ⟨hseq, hlen⟩ := Prod.mk.inj hseg
    refine ⟨hseq.trans h.1, ih ?_ hrest⟩
    rw [hlen]
    exact h.2

theorem span_of_ranges {queue' : List RetransmitSegment}
    (h : queue'.map RetransmitSegment.range = queue.map RetransmitSegment.range) :
    span queue' = span queue := by
  have hlens := congrArg (List.map fun range : Seq × Seq ↦ range.2.toNat) h
  rw [List.map_map, List.map_map] at hlens
  exact congrArg sum hlens

/-- How much may be in flight: a window of data, and a `FIN` once no data may follow. -/
def TcpState.maxInFlight : TcpState → ℕ
  | .established | .closeWait => 65535
  | _ => 65536

/-- **The send side**: the queue has the ranges from `start` to `snd_nxt`, of which `off` have been
acknowledged, all of them in the first range. -/
structure Sending (c : TcpConnection) (start : Seq) (off : ℕ) : Prop where
  consecutive : Consecutive start c.retransmitQueue c.sndNxt
  sndUna : c.sndUna = start + BitVec.ofNat 32 off
  nil : c.retransmitQueue = [] → off = 0
  head : ∀ seg rest, c.retransmitQueue = seg :: rest → off < seg.payloadLen.toNat
  lens : ∀ seg ∈ c.retransmitQueue, 0 < seg.payloadLen.toNat ∧ seg.payloadLen.toNat ≤ 65535
  inFlight : span c.retransmitQueue ≤ off + c.state.maxInFlight

variable {data : List UInt8}

namespace Sending

variable {c : TcpConnection} {start : Seq} {off : ℕ}

section

variable (h : Sending c start off)

include h

theorem off_le : off ≤ span c.retransmitQueue ∧ off ≤ 65535 := by
  cases hq : c.retransmitQueue with
  | nil =>
    rw [h.nil hq]
    exact ⟨Nat.zero_le _, Nat.zero_le _⟩
  | cons seg rest =>
    have hoff := h.head seg rest hq
    have hlen := (h.lens seg (by rw [hq]; exact mem_cons_self)).2
    rw [span_cons]
    omega

theorem span_lt : span c.retransmitQueue < 2 ^ 31 := by
  have hin := h.inFlight
  have hoff := h.off_le.2
  have hmax : c.state.maxInFlight ≤ 65536 := by cases c.state <;> decide
  omega

theorem sndNxt_eq : c.sndNxt = start + BitVec.ofNat 32 (span c.retransmitQueue) := by
  have hcons := h.consecutive
  rw [← add_zero start, show (0 : Seq) = BitVec.ofNat 32 0 from rfl] at hcons
  rw [hcons.stop_eq, zero_add]

/-- What is in flight, as `build_data_segments` computes it. -/
theorem sndNxt_eq_una : c.sndNxt = c.sndUna + BitVec.ofNat 32 (span c.retransmitQueue - off) := by
  rw [h.sndNxt_eq, h.sndUna, add_assoc, ← BitVec.ofNat_add, Nat.add_sub_cancel' h.off_le.1]

theorem serialDist_eq : serialDist c.sndNxt c.sndUna = span c.retransmitQueue - off := by
  have hlt := h.span_lt
  rw [h.sndNxt_eq_una]
  exact serialDist_add _ (by omega)

theorem una_le_nxt : serialLe c.sndUna c.sndNxt = true := by
  have hlt := h.span_lt
  have hoff := h.off_le.1
  rw [serialLe, h.sndUna, h.sndNxt_eq, serialGt_add_add start (by omega) (by omega)]
  simpa using hoff

theorem start_le_una : serialLe start c.sndUna = true := by
  have hoff := h.off_le.2
  have hgt := serialGt_add_add start (a := 0) (b := off) (by decide) (by omega)
  rw [show start + BitVec.ofNat 32 0 = start from add_zero start] at hgt
  rw [serialLe, h.sndUna, hgt]
  simp

end

theorem of_nil (hq : c.retransmitQueue = []) (huna : c.sndUna = c.sndNxt) :
    Sending c c.sndNxt 0 := by
  refine ⟨?_, ?_, fun _ ↦ rfl, ?_, ?_, ?_⟩
  · rw [hq]
    rfl
  · rw [huna]
    exact (add_zero _).symm
  · intro seg rest hcontra
    rw [hq] at hcontra
    cases hcontra
  · intro seg hseg
    rw [hq] at hseg
    cases hseg
  · rw [hq]
    exact Nat.zero_le _

theorem congr (h : Sending c start off) {c' : TcpConnection}
    (hq : c'.retransmitQueue = c.retransmitQueue) (hnxt : c'.sndNxt = c.sndNxt)
    (huna : c'.sndUna = c.sndUna) (hmax : c.state.maxInFlight ≤ c'.state.maxInFlight) :
    Sending c' start off := by
  have hin := h.inFlight
  refine ⟨hq ▸ hnxt ▸ h.consecutive, huna.trans h.sndUna, hq ▸ h.nil, hq ▸ h.head, hq ▸ h.lens, ?_⟩
  rw [hq]
  omega

theorem of_ranges (h : Sending c start off) {queue : List RetransmitSegment}
    (hranges : queue.map RetransmitSegment.range = c.retransmitQueue.map RetransmitSegment.range) :
    Sending { c with retransmitQueue := queue } start off := by
  refine ⟨h.consecutive.of_ranges hranges, h.sndUna, fun hnil ↦ h.nil ?_, ?_, ?_, ?_⟩
  · have hempty : queue = [] := hnil
    rw [hempty] at hranges
    exact map_eq_nil_iff.mp hranges.symm
  · rintro seg rest rfl
    obtain ⟨seg', rest', hq, hseg, -⟩ := map_eq_cons_iff.mp hranges.symm
    rw [← (Prod.mk.inj hseg).2]
    exact h.head seg' rest' hq
  · intro seg hseg
    have hmem : seg.range ∈ c.retransmitQueue.map RetransmitSegment.range :=
      hranges ▸ List.mem_map_of_mem hseg
    obtain ⟨seg', hseg', heq⟩ := List.mem_map.mp hmem
    rw [← (Prod.mk.inj heq).2]
    exact h.lens seg' hseg'
  · exact (span_of_ranges hranges).trans_le h.inFlight

/-- An acknowledgment of something new removes the ranges it covers. -/
theorem ack (h : Sending c start off) {ack : Seq} (hnew : serialGt ack c.sndUna = true)
    (hold : serialLe ack c.sndNxt = true) {c' : TcpConnection}
    (hq : c'.retransmitQueue = c.retransmitQueue.filter fun seg ↦
      serialGt (seg.seq + seg.payloadLen) ack)
    (hnxt : c'.sndNxt = c.sndNxt) (huna : c'.sndUna = ack) (hstate : c'.state = c.state) :
    ∃ start' off', Sending c' start' off' := by
  have hlt := h.span_lt
  have hin := h.inFlight
  -- the acknowledgment is `x` beyond `snd_una`, and not beyond `snd_nxt`
  obtain ⟨hpos, hhalf⟩ := serialGt_iff.mp hnew
  have hack : ack = c.sndUna + BitVec.ofNat 32 (serialDist ack c.sndUna) := eq_add_serialDist _ _
  generalize hx : serialDist ack c.sndUna = x at hpos hhalf hack
  have hxle : x ≤ span c.retransmitQueue - off := by
    rw [serialLe, hack, h.sndNxt_eq_una, serialGt_add_add c.sndUna hhalf (by omega)] at hold
    simpa using hold
  have hackStart : ack = start + BitVec.ofNat 32 (off + x) := by
    rw [hack, h.sndUna, add_assoc, ← BitVec.ofNat_add]
  have hcons : Consecutive (start + BitVec.ofNat 32 0) c.retransmitQueue c.sndNxt := by
    rw [show start + BitVec.ofNat 32 0 = start from add_zero start]
    exact h.consecutive
  obtain ⟨queue', o', hfilter, hcons', hle, hspan, hnil, hhead⟩ :=
    exists_filter (p := off + x) hcons (Nat.zero_le _) (by omega) (fun seg hs ↦ (h.lens seg hs).1)
      (by omega)
  rw [hackStart, hfilter] at hq
  refine ⟨start + BitVec.ofNat 32 o', off + x - o', ?_, ?_, fun hempty ↦ ?_, ?_, ?_, ?_⟩
  · rw [hq, hnxt]
    exact hcons'
  · rw [huna, hackStart, add_assoc, ← BitVec.ofNat_add, Nat.add_sub_cancel' hle]
  · rw [hnil (hq.symm.trans hempty), Nat.sub_self]
  · intro seg rest hsplit
    have := hhead seg rest (hq.symm.trans hsplit)
    omega
  · rw [hq, ← hfilter]
    exact fun seg hs ↦ h.lens seg (mem_of_mem_filter hs)
  · rw [hq, hstate]
    omega

theorem enqueue (h : Sending c start off) {now len : ℕ} (hpos : 0 < len) (hlen : len ≤ 65535)
    (st : TcpState) (hin : span c.retransmitQueue - off + len ≤ st.maxInFlight) {c' : TcpConnection}
    (hc : c'.retransmitQueue = c.retransmitQueue ∧ c'.sndUna = c.sndUna ∧ c'.state = st) :
    Sending (c'.enqueue now c.sndNxt len data) start off := by
  obtain ⟨hq, huna, hstate⟩ := hc
  have hnat : (BitVec.ofNat 32 len).toNat = len := by
    rw [BitVec.toNat_ofNat, Nat.mod_eq_of_lt (by omega)]
  have hqueue : (c'.enqueue now c.sndNxt len data).retransmitQueue
      = c.retransmitQueue ++ [⟨c.sndNxt, BitVec.ofNat 32 len, data, now, 0⟩] := by
    rw [TcpConnection.enqueue, hq]
  refine ⟨?_, huna.trans h.sndUna, fun hempty ↦ ?_, fun seg rest hsplit ↦ ?_, fun seg hs ↦ ?_, ?_⟩
  · rw [hqueue]
    exact h.consecutive.append rfl
  · exact absurd hempty (append_ne_nil_of_right_ne_nil _ (cons_ne_nil _ _))
  · rw [hqueue] at hsplit
    cases hcq : c.retransmitQueue with
    | nil =>
      rw [hcq] at hsplit
      cases hsplit
      rw [h.nil hcq, hnat]
      exact hpos
    | cons first others =>
      rw [hcq] at hsplit
      cases hsplit
      exact h.head _ _ hcq
  · rw [hqueue] at hs
    rcases mem_append.mp hs with hold | hnew
    · exact h.lens seg hold
    · rw [mem_singleton.mp hnew, hnat]
      exact ⟨hpos, hlen⟩
  · rw [hqueue, span_append, span_cons, span_nil, hnat,
      show (c'.enqueue now c.sndNxt len data).state = st from hstate]
    omega

end Sending

namespace TcpConnection

theorem processAck_cases (c : TcpConnection) (now : ℕ) (ack : Seq) (window : BitVec 16) :
    c.processAck now ack window = c ∨
      serialGt ack c.sndUna = true ∧ serialLe ack c.sndNxt = true ∧
        (c.processAck now ack window).retransmitQueue
          = c.retransmitQueue.filter (fun seg ↦ serialGt (seg.seq + seg.payloadLen) ack) ∧
        (c.processAck now ack window).sndNxt = c.sndNxt ∧
        (c.processAck now ack window).sndUna = ack ∧
        (c.processAck now ack window).state = c.state := by
  rw [processAck]
  split_ifs with hguard
  · rw [Bool.and_eq_true] at hguard
    refine .inr ⟨hguard.1, hguard.2, ?_⟩
    dsimp only
    cases (samples _ now ack).max? <;> exact ⟨rfl, rfl, rfl, rfl⟩
  · exact .inl rfl

/-- The send side of a connection is in order. -/
def SendOk (c : TcpConnection) : Prop := ∃ start off, Sending c start off

variable {c c' : TcpConnection}

theorem SendOk.processAck (h : c.SendOk) (now : ℕ) (ack : Seq)
    (window : BitVec 16) : (c.processAck now ack window).SendOk := by
  obtain ⟨start, off, hs⟩ := h
  rcases c.processAck_cases now ack window with hsame | ⟨hnew, hold, hq, hnxt, huna, hstate⟩
  · rw [hsame]
    exact ⟨start, off, hs⟩
  · exact hs.ack hnew hold hq hnxt huna hstate

/-- The send side is unchanged, and no less may be in flight. -/
structure SameSend (c c' : TcpConnection) : Prop where
  queue : c'.retransmitQueue = c.retransmitQueue
  sndNxt : c'.sndNxt = c.sndNxt
  sndUna : c'.sndUna = c.sndUna
  inFlight : c.state.maxInFlight ≤ c'.state.maxInFlight

theorem SendOk.same (h : c.SendOk) (hsame : c.SameSend c') : c'.SendOk := by
  obtain ⟨start, off, hs⟩ := h
  exact ⟨start, off, hs.congr hsame.queue hsame.sndNxt hsame.sndUna hsame.inFlight⟩

theorem acceptData_same (c : TcpConnection) (hdr : TcpHeader) (payload : List UInt8) :
    c.SameSend (c.acceptData hdr payload).2.2 := by
  rw [acceptData]
  split_ifs <;> exact ⟨rfl, rfl, rfl, le_rfl⟩

theorem acceptFin_same (c : TcpConnection) (now : ℕ) (hdr : TcpHeader) :
    c.SameSend (c.acceptFin now hdr).2 := by
  rw [acceptFin]
  cases hstate : c.state with
  | finWait1 =>
    split_ifs <;> exact ⟨rfl, rfl, rfl, (congrArg TcpState.maxInFlight hstate).le⟩
  | _ => exact ⟨rfl, rfl, rfl, (congrArg TcpState.maxInFlight hstate).le⟩

theorem finWait2OnAck_same (c : TcpConnection) (hdr : TcpHeader) :
    c.SameSend (c.finWait2OnAck hdr) := by
  rw [finWait2OnAck]
  split_ifs with h
  · rw [Bool.and_eq_true, Bool.and_eq_true, decide_eq_true_iff] at h
    exact ⟨rfl, rfl, rfl, (congrArg TcpState.maxInFlight h.1.1).le⟩
  · exact ⟨rfl, rfl, rfl, le_rfl⟩

theorem SendOk.acked (h : c.SendOk) (now : ℕ) (hdr : TcpHeader) : (c.acked now hdr).SendOk := by
  rw [TcpConnection.acked]
  split_ifs
  · exact h.processAck now _ _
  · exact h

theorem SendOk.receive (h : c.SendOk) (now : ℕ) (hdr : TcpHeader)
    (payload : List UInt8) : (c.receive now hdr payload).2.SendOk := by
  have hdata := (h.acked now hdr).same (acceptData_same _ hdr payload)
  rw [receive_eq]
  refine SendOk.same ?_ (finWait2OnAck_same _ hdr)
  rw [afterFin]
  split_ifs
  · exact hdata.same (acceptFin_same _ now hdr)
  · exact hdata

/-- A segment, on a connection that is not closed by it. -/
theorem SendOk.handleSegment (h : c.SendOk) (now : ℕ) (hdr : TcpHeader) (payload raw : List UInt8)
    (hopen : (c.handleSegment now hdr payload raw).2.state ≠ .closed) :
    (c.handleSegment now hdr payload raw).2.SendOk := by
  rw [TcpConnection.handleSegment] at hopen ⊢
  cases hstate : c.state with
  | synReceived =>
    simp only [hstate] at hopen ⊢
    split_ifs at hopen ⊢ with hrst hack
    · exact absurd rfl hopen
    · rw [Bool.and_eq_true, decide_eq_true_iff] at hack
      exact ⟨_, 0, Sending.of_nil rfl hack.2⟩
    · exact h
  | synSent =>
    simp only [hstate] at hopen ⊢
    split_ifs at hopen ⊢ with hrst
    · exact absurd rfl hopen
    · rw [connect]
      split_ifs with hack
      · rw [Bool.and_eq_true, decide_eq_true_iff] at hack
        exact ⟨_, 0, Sending.of_nil rfl hack.2⟩
      · exact h
  | established | finWait1 | finWait2 =>
    simp only [hstate] at hopen ⊢
    split_ifs at hopen ⊢ with hrst
    · exact absurd rfl hopen
    · exact h.receive now hdr payload
  | closeWait => exact h.acked now hdr
  | closing =>
    dsimp only
    split_ifs
    · exact h.same ⟨rfl, rfl, rfl, (congrArg TcpState.maxInFlight hstate).le⟩
    · exact h
  | lastAck =>
    simp only [hstate] at hopen ⊢
    split_ifs at hopen ⊢
    · exact absurd rfl hopen
    · exact h
  | closed | listen | timeWait => exact h

theorem checkQueue_ranges (now baseRto : ℕ) (queue : List RetransmitSegment) :
    (checkQueue now baseRto queue).1.map RetransmitSegment.range
      = queue.map RetransmitSegment.range := by
  induction queue with
  | nil => rfl
  | cons seg rest ih =>
    rw [checkQueue]
    split_ifs
    · rfl
    · exact congrArg (seg.range :: ·) ih
    · exact congrArg (seg.range :: ·) ih

theorem SendOk.checkRetransmit (h : c.SendOk) (now : ℕ)
    (hopen : (c.checkRetransmit now).2.state ≠ .closed) : (c.checkRetransmit now).2.SendOk := by
  rw [TcpConnection.checkRetransmit] at hopen ⊢
  split_ifs at hopen ⊢
  · exact absurd rfl hopen
  · obtain ⟨start, off, hs⟩ := h
    exact ⟨start, off, hs.of_ranges (checkQueue_ranges now c.rto c.retransmitQueue)⟩

/-- A `FIN` after at most a window of data. -/
theorem SendOk.sendFin (h : c.SendOk)
    (hc : c'.retransmitQueue = c.retransmitQueue ∧ c'.sndNxt = c.sndNxt ∧ c'.sndUna = c.sndUna)
    (hbefore : c.state.maxInFlight = 65535) (hafter : c'.state.maxInFlight = 65536) (now : ℕ) :
    (c'.sendFin now).2.SendOk := by
  obtain ⟨start, off, hs⟩ := h
  have hin := hs.inFlight
  refine ⟨start, off, ?_⟩
  rw [TcpConnection.sendFin, hc.2.1]
  refine hs.enqueue Nat.one_pos (by decide) c'.state ?_ ⟨hc.1, hc.2.2, rfl⟩
  omega

theorem SendOk.buildFin (h : c.SendOk) (now : ℕ) : (c.buildFin now).2.SendOk := by
  rw [TcpConnection.buildFin]
  cases hstate : c.state with
  | established | closeWait =>
    exact h.sendFin (by exact ⟨rfl, rfl, rfl⟩) (by rw [hstate]; rfl) (by exact rfl) now
  | _ => exact h

/-! ## Data segments -/

/-- The payload of a segment on the wire, behind the header its data offset gives. -/
def payloadOf (seg : List UInt8) : List UInt8 := seg.drop ((seg.getD 12 0 >>> 4).toNat * 4)

theorem payloadOf_patch {hdr payload ck : List UInt8} (hlen : hdr.length = 20)
    (hoffset : hdr[12]? = some 0x50) (hck : ck.length = 2) :
    payloadOf (patch (hdr ++ payload) 16 ck) = payload := by
  have hword : (patch (hdr ++ payload) 16 ck).getD 12 0 = 0x50 := by
    rw [getD_eq_getElem?_getD, getElem?_patch _ (by rw [length_append]; omega),
      if_pos (by decide), getElem?_append_left (by omega), hoffset]
    rfl
  have htake : ((hdr ++ payload).take 16 ++ ck).length = 18 := by
    rw [length_append, length_take, length_append]
    omega
  rw [payloadOf, hword, patch, show ((0x50 : UInt8) >>> 4).toNat * 4 = 18 + 2 from rfl,
    ← drop_drop, ← htake, drop_left, drop_drop, hck]
  rw [show 16 + 2 + 2 = hdr.length from hlen.symm, drop_left]

theorem payloadOf_build (srcPort dstPort : BitVec 16) (seq ack : Seq) (flags : UInt8)
    (window : BitVec 16) (srcIp dstIp : Ip) (payload : List UInt8) :
    payloadOf (build srcPort dstPort seq ack flags window srcIp dstIp [] payload) = payload := by
  have hlen : (beBytes 2 srcPort.toNat ++ beBytes 2 dstPort.toNat ++ beBytes 4 seq.toNat ++
      beBytes 4 ack.toNat ++ [UInt8.ofNat ((20 + ([] : List UInt8).length + 3) / 4) <<< 4, flags] ++
      beBytes 2 window.toNat ++ beBytes 2 0 ++ beBytes 2 0 ++ []).length = 20 := by
    simp
  exact payloadOf_patch hlen (by simp; decide) (length_beBytes _ _)

theorem chunkSize_spec (h : c.chunkSize data ≠ 0) :
    c.chunkSize data ≤ c.mss.toNat ∧
      serialDist c.sndNxt c.sndUna + c.chunkSize data ≤ c.sndWnd.toNat := by
  unfold chunkSize at h ⊢
  dsimp only at h ⊢
  split_ifs at h ⊢
  · exact absurd rfl h
  · omega

/-- One data segment: a window of data stays in flight. -/
theorem SendOk.sendChunk (h : c.SendOk) (hmax : c.state.maxInFlight = 65535) (now : ℕ)
    {chunk : List UInt8} (hpos : 0 < chunk.length)
    (hroom : serialDist c.sndNxt c.sndUna + chunk.length ≤ c.sndWnd.toNat) :
    (c.sendChunk now chunk).2.SendOk ∧
      serialDist (c.sendChunk now chunk).2.sndNxt (c.sendChunk now chunk).2.sndUna
        = serialDist c.sndNxt c.sndUna + chunk.length := by
  obtain ⟨start, off, hs⟩ := h
  rw [hs.serialDist_eq] at hroom ⊢
  have hsent : Sending (c.sendChunk now chunk).2 start off :=
    hs.enqueue hpos (by omega) c.state (by rw [hmax]; omega) ⟨rfl, rfl, rfl⟩
  refine ⟨⟨start, off, hsent⟩, ?_⟩
  have hoff := hs.off_le.1
  rw [hsent.serialDist_eq]
  show span (c.retransmitQueue ++ [_]) - off = _
  rw [span_append, span_cons, span_nil, BitVec.toNat_ofNat, Nat.mod_eq_of_lt (by omega)]
  omega

/-- What `build_data_segments` makes of some data: the segments, how many bytes they took, and the
connection afterwards. -/
structure DataSent (c : TcpConnection) (data : List UInt8)
    (r : List (List UInt8) × ℕ × TcpConnection) : Prop where
  sendOk : r.2.2.SendOk
  sndWnd : r.2.2.sndWnd = c.sndWnd
  state : r.2.2.state = c.state
  consumed_le : r.2.1 ≤ data.length
  flatten : (r.1.map payloadOf).flatten = data.take r.2.1
  payload : ∀ seg ∈ r.1, 1 ≤ (payloadOf seg).length ∧ (payloadOf seg).length ≤ c.mss.toNat
  inFlight : serialDist c.sndNxt c.sndUna ≤ c.sndWnd.toNat ∨ r.1 ≠ [] →
    serialDist r.2.2.sndNxt r.2.2.sndUna ≤ c.sndWnd.toNat

/-- **`build_data_segments`**, on a connection that may send data: its send side stays in order,
the payloads of the segments make up the prefix of the data that was consumed, none is empty or
longer than the MSS, and no more than the window is in flight if anything was sent. -/
theorem dataSent_buildDataSegments (c : TcpConnection) (now : ℕ) (data : List UInt8) (h : c.SendOk)
    (hmax : c.state.maxInFlight = 65535) : DataSent c data (c.buildDataSegments now data) := by
  fun_induction buildDataSegments c now data with
  | case1 c data n hnone =>
    exact ⟨h, rfl, rfl, Nat.zero_le _, rfl, fun seg hseg ↦ absurd hseg not_mem_nil,
      fun hfit ↦ hfit.resolve_right fun hne ↦ hne rfl⟩
  | case2 c data n hsome first rest ih =>
    have hle := c.chunkSize_le data
    obtain ⟨hmss, hroom⟩ := chunkSize_spec hsome
    have hlen : (data.take n).length = n := length_take_of_le hle
    obtain ⟨hsent, hdist⟩ := h.sendChunk hmax now (show 0 < (data.take n).length by omega)
      (by rw [hlen]; exact hroom)
    have hrest : DataSent first.2 (data.drop n) rest := ih hsent hmax
    have hfirst : payloadOf first.1 = data.take n := payloadOf_build ..
    have hcount := hrest.consumed_le
    rw [length_drop] at hcount
    refine ⟨hrest.sendOk, hrest.sndWnd, hrest.state, by show n + rest.2.1 ≤ _; omega, ?_, ?_, ?_⟩
    · show payloadOf first.1 ++ (rest.1.map payloadOf).flatten = data.take (n + rest.2.1)
      rw [hfirst, hrest.flatten, take_add]
    · rw [forall_mem_cons, hfirst, hlen]
      exact ⟨⟨Nat.one_le_iff_ne_zero.mpr hsome, hmss⟩, hrest.payload⟩
    · intro _
      refine hrest.inFlight (Or.inl ?_)
      rw [hdist, hlen]
      exact hroom

/-! ## Whole runs -/

/-- A call on the connection. -/
inductive SenderStep
  | segment (now : ℕ) (hdr : TcpHeader) (payload raw : List UInt8)
  | sendData (now : ℕ) (data : List UInt8)
  | sendFin (now : ℕ)
  | retransmit (now : ℕ)

/-- One call; data is sent in `Established` and `CloseWait` only. -/
def senderStep (c : TcpConnection) : SenderStep → Option TcpConnection
  | .segment now hdr payload raw => some (c.handleSegment now hdr payload raw).2
  | .sendData now data =>
    if c.state = .established ∨ c.state = .closeWait then some (c.buildDataSegments now data).2.2
    else none
  | .sendFin now => some (c.buildFin now).2
  | .retransmit now => some (c.checkRetransmit now).2

/-- A connection that has just sent its first segment: the `SYN` of `connect`, or the `SYN-ACK`
that answers the `SYN` of a peer. -/
inductive Opened : TcpConnection → Prop
  | active (iss : Seq) (localIp : Ip) (localPort : BitVec 16) (remoteIp : Ip)
      (remotePort : BitVec 16) (now : ℕ) :
      Opened ((new iss localIp localPort remoteIp remotePort).buildSyn now).2
  | passive (iss : Seq) (localIp : Ip) (localPort : BitVec 16) (remoteIp : Ip)
      (remotePort : BitVec 16) (irs : Seq) (mss sndWnd : BitVec 16) (now : ℕ) :
      Opened ({ new iss localIp localPort remoteIp remotePort with
        irs := irs
        rcvNxt := irs + 1
        mss := mss
        sndWnd := sndWnd }.buildSynAck now).2

theorem Opened.sendOk (h : Opened c) : c.SendOk := by
  have hroom : 0 - 0 + 1 ≤ 65536 := by decide
  cases h with
  | active iss localIp localPort remoteIp remotePort now =>
    have hnew := Sending.of_nil (c := new iss localIp localPort remoteIp remotePort) rfl rfl
    exact ⟨iss, 0, hnew.enqueue Nat.one_pos (by decide) .synSent hroom ⟨rfl, rfl, rfl⟩⟩
  | passive iss localIp localPort remoteIp remotePort irs mss sndWnd now =>
    have hnew := Sending.of_nil (c := new iss localIp localPort remoteIp remotePort) rfl rfl
    exact ⟨iss, 0, hnew.enqueue Nat.one_pos (by decide) .synReceived hroom ⟨rfl, rfl, rfl⟩⟩

theorem maxInFlight_of_sends
    (h : c.state = .established ∨ c.state = .closeWait) : c.state.maxInFlight = 65535 := by
  rcases h with h | h <;> rw [h] <;> rfl

theorem SendOk.step {a : SenderStep} (h : c.state ≠ .closed → c.SendOk)
    (hstep : c.senderStep a = some c') (hopen : c'.state ≠ .closed) : c'.SendOk := by
  by_cases hclosed : c.state = .closed
  · -- A closed connection stays closed.
    refine absurd ?_ hopen
    cases a with
    | segment now hdr payload raw =>
      obtain rfl := some.inj hstep
      rw [TcpConnection.handleSegment]
      simp only [hclosed]
    | sendData now data =>
      rw [senderStep, if_neg (by rw [hclosed]; decide)] at hstep
      cases hstep
    | sendFin now =>
      obtain rfl := some.inj hstep
      rw [TcpConnection.buildFin]
      simp only [hclosed]
    | retransmit now =>
      obtain rfl := some.inj hstep
      rw [TcpConnection.checkRetransmit]
      split_ifs
      · rfl
      · exact hclosed
  · have hok := h hclosed
    cases a with
    | segment now hdr payload raw =>
      obtain rfl := some.inj hstep
      exact hok.handleSegment now hdr payload raw hopen
    | sendData now data =>
      rw [senderStep] at hstep
      split_ifs at hstep with hsends
      obtain rfl := some.inj hstep
      exact (dataSent_buildDataSegments c now data hok (maxInFlight_of_sends hsends)).sendOk
    | sendFin now =>
      obtain rfl := some.inj hstep
      exact hok.buildFin now
    | retransmit now =>
      obtain rfl := some.inj hstep
      exact hok.checkRetransmit now hopen

/-- The retransmit queue is empty and everything has been acknowledged, or it is a list of
consecutive ranges up to `snd_nxt` the first of which starts at `snd_una` or before. -/
def QueueInOrder (c : TcpConnection) : Prop :=
  c.retransmitQueue = [] ∧ c.sndUna = c.sndNxt ∨
    ∃ seg rest, c.retransmitQueue = seg :: rest ∧
      Consecutive seg.seq c.retransmitQueue c.sndNxt ∧ serialLe seg.seq c.sndUna = true

theorem SendOk.queueInOrder (h : c.SendOk) : c.QueueInOrder := by
  obtain ⟨start, off, hs⟩ := h
  cases hq : c.retransmitQueue with
  | nil =>
    have hnxt := hs.sndNxt_eq_una
    rw [hq, span_nil, Nat.zero_sub] at hnxt
    exact .inl ⟨hq, (hnxt.trans (add_zero _)).symm⟩
  | cons seg rest =>
    have hcons := hs.consecutive
    have hseq : seg.seq = start := by
      rw [hq] at hcons
      exact hcons.1
    refine .inr ⟨seg, rest, hq, ?_, ?_⟩
    · rw [hseq]
      exact hcons
    · rw [hseq]
      exact hs.start_le_una

/-- Every position of the sequence space that is not acknowledged is in a range of the queue. -/
theorem SendOk.exists_segment (h : c.SendOk) {k : ℕ} (hk : k < serialDist c.sndNxt c.sndUna) :
    ∃ seg ∈ c.retransmitQueue,
      serialDist (c.sndUna + BitVec.ofNat 32 k) seg.seq < seg.payloadLen.toNat := by
  obtain ⟨start, off, hs⟩ := h
  have hlt := hs.span_lt
  have hcons := hs.consecutive
  rw [← add_zero start, show (0 : Seq) = BitVec.ofNat 32 0 from rfl] at hcons
  rw [hs.serialDist_eq] at hk
  rw [hs.sndUna, add_assoc, ← BitVec.ofNat_add]
  exact hcons.exists_segment (by omega) (Nat.zero_le _) (by omega)

/-- **The send side of a connection**: in every state that an opened connection reaches and that is
not `Closed`, the retransmit queue holds exactly what is in flight, and data that is sent goes out
whole, in segments of at most the MSS and within the window. -/
theorem send_side_in_order {c₀ c : TcpConnection} (hopened : Opened c₀)
    (h : Reaches senderStep (fun _ _ ↦ True) c₀ c) (hopen : c.state ≠ .closed) :
    c.QueueInOrder ∧
      (∀ k < serialDist c.sndNxt c.sndUna, ∃ seg ∈ c.retransmitQueue,
        serialDist (c.sndUna + BitVec.ofNat 32 k) seg.seq < seg.payloadLen.toNat) ∧
      serialLe c.sndUna c.sndNxt = true ∧
      (c.state = .established ∨ c.state = .closeWait → ∀ now data,
        let r := c.buildDataSegments now data
        r.2.1 ≤ data.length ∧ (r.1.map payloadOf).flatten = data.take r.2.1 ∧
          (∀ seg ∈ r.1, 1 ≤ (payloadOf seg).length ∧ (payloadOf seg).length ≤ c.mss.toNat) ∧
          (r.1 ≠ [] → serialDist r.2.2.sndNxt r.2.2.sndUna ≤ r.2.2.sndWnd.toNat)) := by
  have hok : c.state ≠ .closed → c.SendOk :=
    h.invariant (I := fun c ↦ c.state ≠ .closed → c.SendOk) (fun _ ↦ hopened.sendOk)
      fun _ _ _ hinv _ hstep ↦ SendOk.step hinv hstep
  have hsend := hok hopen
  obtain ⟨start, off, hs⟩ := id hsend
  refine ⟨hsend.queueInOrder, fun k hk ↦ hsend.exists_segment hk, hs.una_le_nxt, ?_⟩
  intro hsends now data
  have hsent := dataSent_buildDataSegments c now data hsend (maxInFlight_of_sends hsends)
  refine ⟨hsent.consumed_le, hsent.flatten, hsent.payload, fun hne ↦ ?_⟩
  rw [hsent.sndWnd]
  exact hsent.inFlight (.inr hne)

/-- A connection that has answered a `SYN` and got the acknowledgment. -/
def accepted : TcpConnection :=
  (({ new 0 hostIp 80 peerIp 4000 with
    irs := 700
    rcvNxt := 700 + 1
    mss := 2
    sndWnd := 100 }.buildSynAck 0).2.handleSegment 1 ⟨4000, 80, 701, 1, 5, ACK, 100⟩ [] []).2

theorem send_side_in_order_accepted :
    accepted.state = .established ∧
      ((accepted.buildDataSegments 5 [1, 2, 3]).1.map payloadOf).flatten
        = [1, 2, 3].take (accepted.buildDataSegments 5 [1, 2, 3]).2.1 := by
  have hreach : Reaches senderStep (fun _ _ ↦ True) _ accepted :=
    Reaches.refl.tail (a := SenderStep.segment 1 ⟨4000, 80, 701, 1, 5, ACK, 100⟩ [] []) trivial rfl
  exact ⟨rfl, ((send_side_in_order
    (.passive 0 hostIp 80 peerIp 4000 700 2 100 0) hreach (by
      rw [show accepted.state = .established from rfl]; decide)).2.2.2 (.inl rfl) 5
    [1, 2, 3]).2.1⟩

end TcpConnection

end Edos.Net
