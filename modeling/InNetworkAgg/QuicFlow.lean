import InNetworkAgg.Lib.PartialRun
import InNetworkAgg.QuicTag
import InNetworkAgg.ServerTrace

/-!
# Clients and servers of QUIC (ns3-quic-client-app.cc, ns3-quic-server-app.cc)

A `QuicClientApp` numbers its packets and puts the number and the time in a tag;
a `QuicServerApp` takes the tag off and hands number, delay and length to the
trace of the address pair.  In between packets are lost and overtake each other.

No tag fails to decode, and what a server reads of a client has the numbers and
times that were sent, each at most once (`Inv.step`).
-/

namespace InNetworkAgg

open Ns3QuicAddressPair Overtaking PartialRun TraceState

/-- `Shutdown`: the map is emptied, and every trace in it deleted. -/
def Ns3QuicServerTraceDispatcher.shutdown (d : Ns3QuicServerTraceDispatcher) :
    Ns3QuicServerTraceDispatcher :=
  { d with traceDb := .leaf }

namespace LossReport

/-! ## Steps -/

/-- A packet of a client on its way, with the bytes of its tag. -/
structure Packet where
  source : InetSocketAddress
  dest : InetSocketAddress
  tag : List UInt8
  size : Nat
deriving DecidableEq, Repr

structure Net where
  now : Nat
  /-- `m_seq` of the client at an address -/
  seq : InetSocketAddress → UInt64
  /-- when each client has sent its packets -/
  sentAt : InetSocketAddress → List Nat
  inFlight : List Packet
  dropped : List Packet
  /-- what is in the sockets of the servers -/
  arrived : List Packet
  /-- `m_running` of the server at an address -/
  running : InetSocketAddress → Bool
  /-- `StopApplication` was called: `m_trace` is null -/
  stopped : InetSocketAddress → Bool
  dispatcher : Ns3QuicServerTraceDispatcher
  /-- the traces whose destructor has run -/
  deleted : List Nat
  /-- the calls of the dispatcher's `OnOwd` -/
  reads : List (Ns3QuicAddressPair × Receipt)

inductive Event where
  | passes (ns : Nat)
  /-- `QuicServerApp::StartApplication` -/
  | starts (s : InetSocketAddress)
  /-- `QuicServerApp::StopApplication` -/
  | stops (s : InetSocketAddress)
  /-- `QuicClientApp::SendToNetwork` -/
  | sends (c : InetSocketAddress) (size : Nat)
  /-- packet number `i` of those in flight is lost -/
  | drops (i : Nat)
  /-- packet number `i` of those in flight gets to its socket -/
  | arrives (i : Nat)
deriving DecidableEq, Repr

def init (start : Nat) (d : Ns3QuicServerTraceDispatcher) : Net :=
  { now := start, seq := fun _ => 1, sentAt := fun _ => [], inFlight := [], dropped := []
    arrived := [], running := fun _ => false, stopped := fun _ => false, dispatcher := d
    deleted := [], reads := [] }

/-- The conversion to `int`. -/
def toInt32 (x : Int) : Int := x.bmod (2 ^ 32)

/-- `SendToNetwork`; a tag that is longer than announced does not fit. -/
def sendToNetwork (peer : InetSocketAddress → InetSocketAddress) (s : Net) (c : InetSocketAddress)
    (size : Nat) : Option Net :=
  let tag : Ns3QuicTag := { seq := s.seq c, time := UInt64.ofNat (milliseconds s.now) }
  if tag.serialize.length = tag.getSerializedSize then
    some { s with
      seq := Function.update s.seq c (s.seq c + 1)
      sentAt := Function.update s.sentAt c (s.sentAt c ++ [s.now])
      inFlight := s.inFlight ++
        [{ source := c, dest := peer c, tag := tag.serialize, size := size }] }
  else none

/-- The arguments of `OnOwd` for a packet with this tag. -/
def receiptOf (now : Nat) (tag : Ns3QuicTag) (length : Nat) : Receipt :=
  let nowMs : Int := milliseconds now
  let sentTime := asInt64 tag.time
  { now := now
    seq := toInt32 tag.seq.toNat
    owd := if nowMs ≥ sentTime then toInt32 (nowMs - sentTime) else 0
    len := length }

/-- What `RecvPacket` of a server does with a packet it has read from the socket. -/
def onPacket (s : Net) (server : InetSocketAddress) (p : Packet) : Option Net :=
  if 2000 < p.size then none
  else do
    let (tag, _) ← Ns3QuicTag.deserialize p.tag
    let r := receiptOf s.now tag p.size
    some { s with
      dispatcher := s.dispatcher.onOwd r.now p.source server r.seq r.owd r.len
      reads := s.reads ++ [(ofAddresses p.source server, r)] }

/-- `RecvPacket` takes one packet from the socket, the one that came first. -/
def recvPacket (s : Net) (server : InetSocketAddress) : Option Net :=
  if s.running server then
    match s.arrived.find? fun p => p.dest = server with
    | some p => onPacket { s with arrived := s.arrived.erase p } server p
    | none => some s
  else some s

/-- `StopApplication` shuts down the dispatcher that all servers share. -/
def Net.stopApplication (s : Net) (server : InetSocketAddress) : Net :=
  if s.stopped server then s
  else
    { s with
      running := Function.update s.running server false
      stopped := Function.update s.stopped server true
      dispatcher := s.dispatcher.shutdown
      deleted := s.deleted ++ s.dispatcher.traceDb.toList.map Prod.snd }

/-- What cannot happen changes nothing; a server is not started again. -/
def step (peer : InetSocketAddress → InetSocketAddress) (s : Net) : Event → Option Net
  | .passes ns => some { s with now := s.now + ns }
  | .starts server =>
    some (if s.stopped server then s
      else { s with running := Function.update s.running server true })
  | .stops server => some (s.stopApplication server)
  | .sends c size => sendToNetwork peer s c size
  | .drops i =>
    match s.inFlight[i]? with
    | some p => some { s with inFlight := s.inFlight.eraseIdx i, dropped := s.dropped ++ [p] }
    | none => some s
  | .arrives i =>
    match s.inFlight[i]? with
    | some p =>
      recvPacket
        { s with inFlight := s.inFlight.eraseIdx i, arrived := s.arrived ++ [p] } p.dest
    | none => some s

/-- What a step needs: less than 2 ^ 31 packets of a client, and 2 ^ 31 milliseconds. -/
def Limits (s : Net) : Event → Prop
  | .passes ns => milliseconds (s.now + ns) < 2 ^ 31
  | .sends c size => (s.seq c).toNat < 2 ^ 31 ∧ size ≤ 2000
  | _ => True

def Event.ns : Event → Nat
  | .passes ns => ns
  | _ => 0

def Event.size : Event → Nat
  | .sends _ size => size
  | _ => 0

def Event.isStop : Event → Bool
  | .stops _ => true
  | _ => false

def Event.isSend (c : InetSocketAddress) : Event → Bool
  | .sends c' _ => c' = c
  | _ => false

/-- A run of less than 2 ^ 31 packets of each client and 2 ^ 31 milliseconds. -/
structure Within (start : Nat) (events : List Event) : Prop where
  clock : milliseconds (start + (events.map Event.ns).sum) < 2 ^ 31
  sizes : ∀ e ∈ events, e.size ≤ 2000
  count : ∀ c, events.countP (Event.isSend c) < 2 ^ 31

/-! ## What a client has sent and the server read -/

variable (peer : InetSocketAddress → InetSocketAddress)

/-- The pair of a client and its server. -/
def pairOf (c : InetSocketAddress) : Ns3QuicAddressPair := ofAddresses c (peer c)

/-- The packets of a client that no server has read. -/
def Net.unread (s : Net) (c : InetSocketAddress) : List Packet :=
  (s.inFlight ++ s.arrived ++ s.dropped).filter fun p => p.source = c

/-- What the server of a client has read, in this order. -/
def Net.receipts (s : Net) (p : Ns3QuicAddressPair) : List Receipt :=
  (s.reads.filter fun r => r.1 = p).map Prod.snd

/-- The number in the tag. -/
def Packet.number (p : Packet) : Int :=
  match Ns3QuicTag.deserialize p.tag with
  | some (tag, _) => toInt32 tag.seq.toNat
  | none => 0

/-- The numbers of the first `k` packets. -/
def numbersTo (k : Nat) : List Int := (List.range k).map fun n : Nat => (n : Int) + 1

theorem numbersTo_succ (k : Nat) : numbersTo (k + 1) = numbersTo k ++ [(k : Int) + 1] := by
  rw [numbersTo, List.range_succ, List.map_append]
  rfl

/-- The tag of packet number `n` of a client, sent at `t`; `m_seq` starts at 1. -/
def tagOf (n t : Nat) : Ns3QuicTag :=
  { seq := UInt64.ofNat (n + 1), time := UInt64.ofNat (milliseconds t) }

/-- A packet as it was sent: its number and time are in the tag. -/
structure Tagged (s : Net) (p : Packet) (n t : Nat) : Prop where
  sent : (s.sentAt p.source)[n]? = some t
  tag : p.tag = (tagOf n t).serialize
  dest : p.dest = peer p.source
  size : p.size ≤ 2000

/-- What holds in every run within the limits. -/
structure Inv (s : Net) : Prop where
  started : 0 < milliseconds s.now
  clock : milliseconds s.now < 2 ^ 31
  seq : ∀ c, (s.seq c).toNat = (s.sentAt c).length + 1
  count : ∀ c, (s.sentAt c).length < 2 ^ 31
  times : ∀ c, ∀ t ∈ s.sentAt c, 0 < milliseconds t ∧ t ≤ s.now
  packets : ∀ p ∈ s.inFlight ++ s.arrived ++ s.dropped, ∃ n t, Tagged peer s p n t
  /-- every packet is at one place -/
  numbers : ∀ c, ((s.receipts (pairOf peer c)).map Receipt.seq ++ (s.unread c).map Packet.number).Perm
    (numbersTo (s.sentAt c).length)
  delays : ∀ c, ∀ r ∈ s.receipts (pairOf peer c), ∃ n t : Nat, (s.sentAt c)[n]? = some t ∧
    r.seq = n + 1 ∧ t ≤ r.now ∧ r.owd = milliseconds r.now - milliseconds t

/-! ## The tags -/

section
variable {n t : Nat} (hn : n + 1 < 2 ^ 31) (ht : 0 < milliseconds t) (ht' : milliseconds t < 2 ^ 31)

theorem toNat_ofNat {k : Nat} (hk : k < 2 ^ 31) : (UInt64.ofNat k).toNat = k := by
  rw [UInt64.toNat_ofNat']
  exact Nat.mod_eq_of_lt (by omega)

theorem toInt32_of_lt {k : Nat} (hk : k < 2 ^ 31) : toInt32 k = k := by
  unfold toInt32
  rw [Int.bmod_eq_of_le] <;> omega

include hn ht ht'

theorem tagOf_roundTrips : (tagOf n t).RoundTrips := by
  rw [Ns3QuicTag.roundTrips_iff]
  unfold tagOf
  dsimp only
  rw [toNat_ofNat hn, toNat_ofNat ht']
  omega

theorem number_tagOf {p : Packet} (hp : p.tag = (tagOf n t).serialize) : p.number = n + 1 := by
  unfold Packet.number
  rw [hp, (tagOf_roundTrips hn ht ht').restored]
  dsimp only [tagOf]
  rw [toNat_ofNat hn, toInt32_of_lt hn]
  rfl

end

/-! ## A step keeps the invariant -/

theorem perm_eraseIdx {l : List Packet} {i : Nat} {p : Packet} (h : l[i]? = some p) :
    l.Perm (l.eraseIdx i ++ [p]) := by
  obtain ⟨hlt, rfl⟩ := List.getElem?_eq_some_iff.1 h
  exact (List.getElem_cons_eraseIdx_perm hlt).symm.trans (List.perm_append_singleton _ _).symm

theorem perm_last (l l' : List Packet) (p : Packet) : (l ++ [p] ++ l').Perm (l ++ l' ++ [p]) := by
  rw [List.append_assoc, List.append_assoc]
  exact List.perm_append_comm.append_left l

/-- A packet that is taken out of flight and put behind the others. -/
theorem perm_taken {l l' : List Packet} {i : Nat} {p : Packet} (h : l[i]? = some p) :
    (l.eraseIdx i ++ l' ++ [p]).Perm (l ++ l') :=
  (perm_last _ _ p).symm.trans ((perm_eraseIdx h).symm.append_right l')

/-- One packet more or less is one number more or less of its client. -/
theorem perm_numbers {l l' : List Packet} {q : Packet} (h : l'.Perm (l ++ [q]))
    (c : InetSocketAddress) :
    ((l'.filter fun p => decide (p.source = c)).map Packet.number).Perm
      ((l.filter fun p => decide (p.source = c)).map Packet.number ++
        if q.source = c then [q.number] else []) := by
  have hmap := (h.filter fun p => decide (p.source = c)).map Packet.number
  rw [List.filter_append l, List.map_append] at hmap
  by_cases hc : q.source = c
  · rw [if_pos hc]
    simpa [hc] using hmap
  · rw [if_neg hc]
    simpa [hc] using hmap

theorem ofAddresses_client {c c' s s' : InetSocketAddress}
    (h : ofAddresses c s = ofAddresses c' s') : c = c' := by
  obtain ⟨hip, -, hport, -⟩ := Ns3QuicAddressPair.mk.inj h
  cases c
  cases c'
  rw [InetSocketAddress.mk.injEq]
  exact ⟨hip, hport⟩

theorem receipts_concat (s : Net) (d : Ns3QuicServerTraceDispatcher) (q p : Ns3QuicAddressPair)
    (r : Receipt) : { s with dispatcher := d, reads := s.reads ++ [(q, r)] }.receipts p =
      s.receipts p ++ if q = p then [r] else [] := by
  unfold Net.receipts
  rw [List.filter_append, List.map_append]
  by_cases hq : q = p <;> simp [hq]

/-- The number and the delay of a packet that was tagged in time. -/
theorem onPacket_of_tag {s : Net} {server : InetSocketAddress} {p : Packet} {n t : Nat}
    (hsize : p.size ≤ 2000) (hn : n + 1 < 2 ^ 31) (hpos : 0 < milliseconds t)
    (hms31 : milliseconds t < 2 ^ 31) (hms : milliseconds t ≤ milliseconds s.now)
    (hclock : milliseconds s.now < 2 ^ 31) (htag : p.tag = (tagOf n t).serialize) :
    onPacket s server p =
      let r : Receipt := {
        now := s.now
        seq := n + 1
        owd := milliseconds s.now - milliseconds t
        len := p.size }
      some { s with
        dispatcher := s.dispatcher.onOwd r.now p.source server r.seq r.owd r.len
        reads := s.reads ++ [(ofAddresses p.source server, r)] } := by
  have hreceipt : receiptOf s.now (tagOf n t) p.size = {
      now := s.now
      seq := n + 1
      owd := milliseconds s.now - milliseconds t
      len := p.size } := by
    have htime : asInt64 (tagOf n t).time = milliseconds t := by
      unfold asInt64 tagOf
      dsimp only
      rw [toNat_ofNat hms31, if_pos (by omega)]
    have howd : toInt32 ((milliseconds s.now : Int) - milliseconds t) =
        (milliseconds s.now : Int) - milliseconds t := by
      rw [← Int.ofNat_sub hms]
      exact toInt32_of_lt (by omega)
    unfold receiptOf
    dsimp only
    rw [htime, if_pos (by omega), howd, tagOf, toNat_ofNat hn, toInt32_of_lt hn]
    rfl
  unfold onPacket
  rw [if_neg (by omega), htag, (tagOf_roundTrips hn hpos hms31).restored]
  simp only [Option.bind_eq_bind, Option.bind_some, hreceipt]

section
variable {peer} {s : Net} (h : Inv peer s)

include h

theorem Inv.tagged {p : Packet} (hp : p ∈ s.inFlight ++ s.arrived ++ s.dropped) :
    ∃ n t, Tagged peer s p n t ∧ n + 1 < 2 ^ 31 ∧ 0 < milliseconds t ∧
      milliseconds t ≤ milliseconds s.now ∧ t ≤ s.now := by
  obtain ⟨n, t, htagged⟩ := h.packets p hp
  obtain ⟨hlt, -⟩ := List.getElem?_eq_some_iff.1 htagged.sent
  obtain ⟨hpos, hle⟩ := h.times p.source t (List.mem_of_getElem? htagged.sent)
  have hcount := h.count p.source
  exact ⟨n, t, htagged, by omega, hpos, Nat.div_le_div_right hle, hle⟩

/-- Nothing else matters than the clock, the clients, the packets and what was read. -/
theorem Inv.frame {t : Net} (hnow : t.now = s.now) (hseq : t.seq = s.seq)
    (hsent : t.sentAt = s.sentAt) (hflight : t.inFlight = s.inFlight)
    (harrived : t.arrived = s.arrived) (hdropped : t.dropped = s.dropped)
    (hreads : t.reads = s.reads) : Inv peer t := by
  cases t
  subst hnow hseq hsent hflight harrived hdropped hreads
  refine ⟨h.started, h.clock, h.seq, h.count, h.times, fun p hp => ?_, h.numbers, h.delays⟩
  obtain ⟨n, t, htagged⟩ := h.packets p hp
  exact ⟨n, t, htagged.sent, htagged.tag, htagged.dest, htagged.size⟩

/-- Packets move, and none is made or read. -/
theorem Inv.move {inFlight arrived dropped : List Packet}
    (hperm : (inFlight ++ arrived ++ dropped).Perm (s.inFlight ++ s.arrived ++ s.dropped)) :
    Inv peer { s with inFlight := inFlight, arrived := arrived, dropped := dropped } where
  started := h.started
  clock := h.clock
  seq := h.seq
  count := h.count
  times := h.times
  packets p hp := by
    obtain ⟨n, t, htagged⟩ := h.packets p (hperm.mem_iff.1 hp)
    exact ⟨n, t, htagged.sent, htagged.tag, htagged.dest, htagged.size⟩
  numbers c := by
    refine List.Perm.trans (List.Perm.append_left _ ?_) (h.numbers c)
    exact (hperm.filter _).map _
  delays := h.delays

/-- A client sends its next packet. -/
theorem Inv.send {c : InetSocketAddress} {size : Nat} (hseq : (s.seq c).toNat < 2 ^ 31)
    (hsize : size ≤ 2000) :
    ∃ t, sendToNetwork peer s c size = some t ∧ Inv peer t := by
  have hlen := h.seq c
  have hseqEq : s.seq c = UInt64.ofNat ((s.sentAt c).length + 1) := by
    rw [← hlen, UInt64.ofNat_toNat]
  have htag : { seq := s.seq c, time := UInt64.ofNat (milliseconds s.now) : Ns3QuicTag } =
      tagOf (s.sentAt c).length s.now := by
    rw [hseqEq]
    rfl
  have hsmall : (s.sentAt c).length + 1 < 2 ^ 31 := by omega
  have htrips := tagOf_roundTrips hsmall h.started h.clock
  unfold sendToNetwork
  dsimp only
  rw [htag, if_pos htrips.size]
  refine ⟨_, rfl, ?_⟩
  -- what was sent before stays
  have hold : ∀ (c' : InetSocketAddress) (n t : Nat), (s.sentAt c')[n]? = some t →
      (Function.update s.sentAt c (s.sentAt c ++ [s.now]) c')[n]? = some t := by
    intro c' n t hsent
    by_cases hc : c' = c
    · subst hc
      obtain ⟨hlt, -⟩ := List.getElem?_eq_some_iff.1 hsent
      rw [Function.update_self, List.getElem?_append_left hlt, hsent]
    · rw [Function.update_of_ne hc, hsent]
  let q : Packet :=
    { source := c, dest := peer c, tag := (tagOf (s.sentAt c).length s.now).serialize, size := size }
  have hperm : (s.inFlight ++ [q] ++ s.arrived ++ s.dropped).Perm
      (s.inFlight ++ s.arrived ++ s.dropped ++ [q]) :=
    ((perm_last _ _ q).append_right _).trans (perm_last _ _ q)
  refine ⟨h.started, h.clock, fun c' => ?_, fun c' => ?_, fun c' t ht => ?_, fun p hp => ?_, fun c' => ?_,
    fun c' r hr => ?_⟩
  · by_cases hc : c' = c
    · subst hc
      simp only [Function.update_self, List.length_append, List.length_singleton]
      rw [UInt64.toNat_add, hlen, show (1 : UInt64).toNat = 1 from rfl]
      exact Nat.mod_eq_of_lt (by omega)
    · simp only [Function.update_of_ne hc]
      exact h.seq c'
  · by_cases hc : c' = c
    · subst hc
      simp only [Function.update_self, List.length_append, List.length_singleton]
      exact hsmall
    · simp only [Function.update_of_ne hc]
      exact h.count c'
  · by_cases hc : c' = c
    · subst hc
      simp only [Function.update_self] at ht
      rcases List.mem_append.1 ht with ht | ht
      · exact h.times c' t ht
      · rw [List.mem_singleton.1 ht]
        exact ⟨h.started, le_rfl⟩
    · simp only [Function.update_of_ne hc] at ht
      exact h.times c' t ht
  · rcases List.mem_append.1 (hperm.mem_iff.1 hp) with hp | hp
    · obtain ⟨n, t, htagged⟩ := h.packets p hp
      exact ⟨n, t, hold _ _ _ htagged.sent, htagged.tag, htagged.dest, htagged.size⟩
    · rw [List.mem_singleton.1 hp]
      refine ⟨(s.sentAt c).length, s.now, ?_, rfl, rfl, hsize⟩
      simp [q]
  · refine ((perm_numbers hperm c').append_left _).trans ?_
    rw [← List.append_assoc]
    by_cases hc : c' = c
    · subst hc
      simp only [Function.update_self, List.length_append, List.length_singleton]
      rw [if_pos rfl, number_tagOf hsmall h.started h.clock rfl, numbersTo_succ]
      exact (h.numbers c').append_right _
    · simp only [Function.update_of_ne hc]
      rw [if_neg (Ne.symm hc), List.append_nil]
      exact h.numbers c'
  · obtain ⟨n, t, hsent, hr⟩ := h.delays c' r hr
    exact ⟨n, t, hold _ _ _ hsent, hr⟩

/-- A server reads a packet. -/
theorem Inv.read {p : Packet} (hp : p ∈ s.arrived) :
    ∃ t, onPacket { s with arrived := s.arrived.erase p } p.dest p = some t ∧ Inv peer t := by
  obtain ⟨n, t, htagged, hn, hpos, hms, hle⟩ :=
    h.tagged (List.mem_append_left _ (List.mem_append_right _ hp))
  have hms31 := Nat.lt_of_le_of_lt hms h.clock
  rw [onPacket_of_tag (s := { s with arrived := s.arrived.erase p }) htagged.size hn hpos hms31 hms
    h.clock htagged.tag]
  refine ⟨_, rfl, ?_⟩
  have hperm : (s.inFlight ++ s.arrived ++ s.dropped).Perm
      (s.inFlight ++ s.arrived.erase p ++ s.dropped ++ [p]) := by
    refine List.Perm.trans (List.Perm.append_right _ ?_) (perm_last _ _ p)
    rw [List.append_assoc]
    exact ((List.perm_cons_erase hp).trans (List.perm_append_singleton p _).symm).append_left _
  have hpair : ∀ c, ofAddresses p.source p.dest = pairOf peer c ↔ p.source = c := by
    intro c
    constructor
    · exact fun heq => ofAddresses_client heq
    · rintro rfl
      rw [htagged.dest]
      rfl
  refine ⟨h.started, h.clock, h.seq, h.count, h.times, fun q hq => ?_, fun c => ?_, fun c r hr => ?_⟩
  · obtain ⟨n, t, hq⟩ := h.packets q (hperm.mem_iff.2 (List.mem_append_left _ hq))
    exact ⟨n, t, hq.sent, hq.tag, hq.dest, hq.size⟩
  · refine List.Perm.trans ?_ (((perm_numbers hperm c).symm.append_left _).trans (h.numbers c))
    rw [receipts_concat]
    simp only [hpair]
    by_cases hc : p.source = c
    · rw [if_pos hc, if_pos hc, number_tagOf hn hpos hms31 htagged.tag, List.map_append,
        List.append_assoc]
      exact List.perm_append_comm.append_left _
    · rw [if_neg hc, if_neg hc, List.append_nil, List.append_nil]
      exact List.Perm.refl _
  · rw [receipts_concat] at hr
    simp only [hpair] at hr
    rcases List.mem_append.1 hr with hr | hr
    · exact h.delays c r hr
    · by_cases hc : p.source = c
      · rw [if_pos hc] at hr
        rw [List.mem_singleton.1 hr, ← hc]
        exact ⟨n, t, htagged.sent, rfl, hle, rfl⟩
      · rw [if_neg hc] at hr
        cases hr

/-- `RecvPacket`, with or without a packet for the server. -/
theorem Inv.recvPacket (server : InetSocketAddress) :
    ∃ t, recvPacket s server = some t ∧ Inv peer t := by
  unfold LossReport.recvPacket
  split
  · split
    · rename_i p hfind
      obtain rfl : p.dest = server := by simpa using List.find?_some hfind
      exact h.read (List.mem_of_find?_eq_some hfind)
    · exact ⟨s, rfl, h⟩
  · exact ⟨s, rfl, h⟩

theorem Inv.step {e : Event} (he : Limits s e) : ∃ t, step peer s e = some t ∧ Inv peer t := by
  cases e with
  | passes ns =>
    have hlater : s.now ≤ s.now + ns := Nat.le_add_right s.now ns
    refine ⟨_, rfl, Nat.lt_of_lt_of_le h.started (Nat.div_le_div_right hlater), he, h.seq, h.count,
      fun c t ht => ?_, fun p hp => ?_, h.numbers, h.delays⟩
    · obtain ⟨hpos, hle⟩ := h.times c t ht
      exact ⟨hpos, hle.trans hlater⟩
    · obtain ⟨n, t, htagged⟩ := h.packets p hp
      exact ⟨n, t, htagged.sent, htagged.tag, htagged.dest, htagged.size⟩
  | starts server =>
    refine ⟨_, rfl, ?_⟩
    split
    · exact h
    · exact h.frame rfl rfl rfl rfl rfl rfl rfl
  | stops server =>
    refine ⟨_, rfl, ?_⟩
    unfold Net.stopApplication
    split
    · exact h
    · exact h.frame rfl rfl rfl rfl rfl rfl rfl
  | sends c size => exact h.send he.1 he.2
  | drops i =>
    unfold LossReport.step
    dsimp only
    split
    · rename_i p hget
      refine ⟨_, rfl, h.move ?_⟩
      rw [← List.append_assoc, List.append_assoc _ s.arrived, List.append_assoc s.inFlight]
      exact perm_taken hget
    · exact ⟨s, rfl, h⟩
  | arrives i =>
    unfold LossReport.step
    dsimp only
    split
    · rename_i p hget
      have hperm : (s.inFlight.eraseIdx i ++ (s.arrived ++ [p]) ++ s.dropped).Perm
          (s.inFlight ++ s.arrived ++ s.dropped) := by
        rw [← List.append_assoc]
        exact (perm_taken hget).append_right _
      exact (h.move hperm).recvPacket p.dest
    · exact ⟨s, rfl, h⟩

end

/-- A packet of `c` is handed to the dispatcher, or none; no trace is deleted. -/
structure Reading (s t : Net) : Prop where
  stopped : t.stopped = s.stopped
  deleted : t.deleted = s.deleted
  handed : (t.dispatcher = s.dispatcher ∧ t.reads = s.reads) ∨
    ∃ c server r, t.dispatcher = s.dispatcher.onOwd r.now c server r.seq r.owd r.len ∧
      t.reads = s.reads ++ [(ofAddresses c server, r)]

theorem recvPacket_cases {s t : Net} {server : InetSocketAddress}
    (h : recvPacket s server = some t) : t.now = s.now ∧ t.sentAt = s.sentAt ∧ Reading s t := by
  unfold recvPacket at h
  split at h
  · split at h
    · rename_i p hfind
      unfold onPacket at h
      split at h
      · cases h
      · rw [Option.bind_eq_bind, Option.bind_eq_some_iff] at h
        obtain ⟨⟨tag, rest⟩, -, h⟩ := h
        rw [Option.some.injEq] at h
        subst h
        exact ⟨rfl, rfl, ⟨rfl, rfl, .inr ⟨p.source, server, receiptOf s.now tag p.size, rfl, rfl⟩⟩⟩
    · cases h
      exact ⟨rfl, rfl, ⟨rfl, rfl, .inl ⟨rfl, rfl⟩⟩⟩
  · cases h
    exact ⟨rfl, rfl, ⟨rfl, rfl, .inl ⟨rfl, rfl⟩⟩⟩

/-- All a step does to the clock, the packets sent and the traces. -/
theorem step_cases {s t : Net} {e : Event} (h : step peer s e = some t) :
    t.now = s.now + e.ns ∧
      (∀ c, (t.sentAt c).length = (s.sentAt c).length + [e].countP (Event.isSend c)) ∧
      (Reading s t ∨ ∃ server, e = .stops server ∧ t = s.stopApplication server) := by
  cases e with
  | passes ns =>
    cases h
    exact ⟨rfl, fun _ => rfl, .inl ⟨rfl, rfl, .inl ⟨rfl, rfl⟩⟩⟩
  | starts server =>
    cases h
    split
    · exact ⟨rfl, fun _ => rfl, .inl ⟨rfl, rfl, .inl ⟨rfl, rfl⟩⟩⟩
    · exact ⟨rfl, fun _ => rfl, .inl ⟨rfl, rfl, .inl ⟨rfl, rfl⟩⟩⟩
  | stops server =>
    cases h
    refine ⟨?_, fun c => ?_, .inr ⟨server, rfl, rfl⟩⟩
    · unfold Net.stopApplication
      split <;> rfl
    · unfold Net.stopApplication
      split <;> rfl
  | sends c size =>
    unfold step sendToNetwork at h
    dsimp only at h
    split at h
    · cases h
      refine ⟨rfl, fun c' => ?_, .inl ⟨rfl, rfl, .inl ⟨rfl, rfl⟩⟩⟩
      by_cases hc : c = c'
      · subst hc
        simp [Event.isSend]
      · simp [Event.isSend, hc, Function.update_of_ne (Ne.symm hc)]
    · cases h
  | drops i =>
    unfold step at h
    dsimp only at h
    split at h
    · cases h
      exact ⟨rfl, fun _ => rfl, .inl ⟨rfl, rfl, .inl ⟨rfl, rfl⟩⟩⟩
    · cases h
      exact ⟨rfl, fun _ => rfl, .inl ⟨rfl, rfl, .inl ⟨rfl, rfl⟩⟩⟩
  | arrives i =>
    unfold step at h
    dsimp only at h
    split at h
    · obtain ⟨hnow, hsent, hread⟩ := recvPacket_cases h
      exact ⟨hnow, fun c => by rw [hsent]; rfl, .inl ⟨hread.stopped, hread.deleted, hread.handed⟩⟩
    · cases h
      exact ⟨rfl, fun _ => rfl, .inl ⟨rfl, rfl, .inl ⟨rfl, rfl⟩⟩⟩

/-- A run within its bounds meets the limits of each step. -/
theorem guarded_of_within {events : List Event} : ∀ {s : Net}, Inv peer s →
    milliseconds (s.now + (events.map Event.ns).sum) < 2 ^ 31 → (∀ e ∈ events, e.size ≤ 2000) →
    (∀ c, (s.sentAt c).length + events.countP (Event.isSend c) < 2 ^ 31) →
    Guarded (step peer) Limits s events := by
  induction events with
  | nil => exact fun _ _ _ _ => trivial
  | cons e events ih =>
    intro s h hclock hsizes hcount
    have hlimit : Limits s e := by
      cases e with
      | passes ns =>
        refine Nat.lt_of_le_of_lt (Nat.div_le_div_right ?_) hclock
        rw [List.map_cons, List.sum_cons]
        show s.now + ns ≤ s.now + (ns + _)
        omega
      | sends c size =>
        have hc := hcount c
        rw [List.countP_cons_of_pos (by simp [Event.isSend])] at hc
        have hseq := h.seq c
        exact ⟨by omega, hsizes _ List.mem_cons_self⟩
      | _ => trivial
    refine ⟨hlimit, fun t ht => ?_⟩
    obtain ⟨t', ht', hinv⟩ := h.step hlimit
    obtain rfl : t' = t := Option.some.inj (ht'.symm.trans ht)
    obtain ⟨hnow, hsent, -⟩ := step_cases peer ht
    refine ih hinv ?_ (fun e' he' => hsizes e' (List.mem_cons_of_mem _ he')) fun c => ?_
    · rw [List.map_cons, List.sum_cons] at hclock
      rw [hnow, Nat.add_assoc]
      exact hclock
    · have hc := hcount c
      rw [← List.singleton_append, List.countP_append] at hc
      rw [hsent]
      omega

end LossReport

end InNetworkAgg
