import InNetworkAgg.Lib.Overtaking
import InNetworkAgg.TraceRegistry

/-!
# What a server trace writes (quic/model/ns3-quic-trace.cc)

`Ns3QuicServerTrace` is handed each packet of its address pair and writes up to
three files: the packets, the goodput and, when it is deleted, what was lost.

The lost packets are the numbers that were skipped (`lostPackets_run`).  The
lines of the goodput file take turns in time, and each has the bytes of the
packets since the line before.  But the time of the last packet is only kept
where the packets are written as well:

    goodput alone: no line, whatever comes
    goodput and packets: all bytes, up to those of the instant of the last line

                                                          (goodput_file)
-/

namespace InNetworkAgg

open Overtaking

def eQsOwd : UInt8 := 0x01
def eQsGoodput : UInt8 := 0x02
def eQsLost : UInt8 := 0x04

/-- A call of `OnOwd`, and the time of the simulator in nanoseconds. -/
structure Receipt where
  now : Nat
  seq : Int
  owd : Int
  len : Int
deriving DecidableEq, Repr

/-- What `OnOwd` is handed. -/
def Receipt.handed (r : Receipt) : Int × Int × Int := (r.seq, r.owd, r.len)

/-- A line of the goodput file: its time, and the two numbers whose quotient it shows. -/
structure GoodputLine where
  time : Nat
  bits : Int
  ms : Nat
deriving DecidableEq, Repr

/-! ## The members -/

/-- What the file of the lost packets is made from. -/
structure LostCounter where
  lastSeq : Int
  largestSeq : Int
  lostPackets : Int
deriving DecidableEq, Repr

/-- What the goodput file is made from, and its lines. -/
structure GoodputMeter where
  lastRateBytes : Int
  lastRateTime : Nat
  readBytes : Int
  firstPacketTime : Nat
  receiptTime : Nat
  lines : List GoodputLine
deriving DecidableEq, Repr

/-- The members of `Ns3QuicServerTrace`: which files are open, what is kept for them and
what was written. -/
structure TraceState where
  owdOpen : Bool
  lostOpen : Bool
  goodputOpen : Bool
  counter : LostCounter
  meter : GoodputMeter
  owd : List Receipt
  /-- the lost packets and the largest number, their ratio follows -/
  lost : List (Int × Int)
deriving DecidableEq, Repr

def LostCounter.new : LostCounter := { lastSeq := 0, largestSeq := 0, lostPackets := 0 }

def GoodputMeter.new : GoodputMeter :=
  { lastRateBytes := 0, lastRateTime := 0, readBytes := 0, firstPacketTime := 0, receiptTime := 0
    lines := [] }

/-- The constructor. -/
def TraceState.new (e : UInt8) : TraceState :=
  { owdOpen := e &&& eQsOwd ≠ 0, lostOpen := e &&& eQsLost ≠ 0
    goodputOpen := e &&& eQsGoodput ≠ 0
    counter := .new, meter := .new, owd := [], lost := [] }

/-! ## `OnOwd` and the destructor -/

/-- The part of `OnOwd` about the lost packets. -/
def LostCounter.onSeq (n : LostCounter) (seq : Int) : LostCounter :=
  let n :=
    if seq > n.lastSeq - 1 then { n with lostPackets := n.lostPackets + (seq - n.lastSeq - 1) }
    else n
  let n := if seq > n.lastSeq then { n with lastSeq := seq } else n
  if seq > n.largestSeq then { n with largestSeq := seq } else n

/-- `GetMilliSeconds` of a time. -/
def milliseconds (ns : Nat) : Nat := ns / 1000000

namespace GoodputMeter

def line (g : GoodputMeter) : GoodputLine :=
  { time := g.receiptTime
    bits := (g.readBytes - g.lastRateBytes) * 8
    ms := milliseconds (g.receiptTime - g.lastRateTime) }

/-- `LogGoodput`, for an open file. -/
def logGoodput (interval : Nat) (dtor : Bool) (g : GoodputMeter) : GoodputMeter :=
  if dtor then
    if g.receiptTime > g.lastRateTime then { g with lines := g.lines ++ [g.line] } else g
  else
    if g.receiptTime ≥ g.lastRateTime + interval then
      { g with
        lines := g.lines ++ [g.line]
        lastRateBytes := g.readBytes
        lastRateTime := g.receiptTime }
    else g

/-- The time of the first packet and the bytes. -/
def onPacket (g : GoodputMeter) (r : Receipt) : GoodputMeter :=
  let g :=
    if g.firstPacketTime = 0 then { g with firstPacketTime := r.now, lastRateTime := r.now } else g
  { g with readBytes := g.readBytes + r.len }

end GoodputMeter

namespace TraceState

def logGoodput (interval : Nat) (dtor : Bool) (m : TraceState) : TraceState :=
  if m.goodputOpen then { m with meter := m.meter.logGoodput interval dtor } else m

def logLostPackets (m : TraceState) : TraceState :=
  if m.lostOpen then
    { m with lost := m.lost ++ [(m.counter.lostPackets, m.counter.largestSeq)] }
  else m

def onOwd (interval : Nat) (m : TraceState) (r : Receipt) : TraceState :=
  let m :=
    if m.owdOpen || m.goodputOpen then
      let m := { m with meter := m.meter.onPacket r }
      let m :=
        if m.owdOpen then
          { m with owd := m.owd ++ [r], meter := { m.meter with receiptTime := r.now } }
        else m
      m.logGoodput interval false
    else m
  if m.lostOpen then { m with counter := m.counter.onSeq r.seq } else m

/-- A new trace after some packets. -/
def run (e : UInt8) (interval : Nat) (rs : List Receipt) : TraceState :=
  rs.foldl (onOwd interval) (new e)

/-- The destructor. -/
def destroy (interval : Nat) (m : TraceState) : TraceState :=
  (m.logGoodput interval true).logLostPackets

theorem run_concat (e : UInt8) (interval : Nat) (rs : List Receipt) (r : Receipt) :
    run e interval (rs ++ [r]) = (run e interval rs).onOwd interval r := by
  rw [run, List.foldl_append]
  rfl

/-! ## What a call changes -/

/-- The meter behind `onPacket` and the line of the packet. -/
def received (m : TraceState) (r : Receipt) : GoodputMeter :=
  if m.owdOpen then { m.meter.onPacket r with receiptTime := r.now } else m.meter.onPacket r

/-- Each file is kept on its own, but for the time of the last packet. -/
theorem onOwd_eq (interval : Nat) (m : TraceState) (r : Receipt) : m.onOwd interval r =
    { m with
      owd := if m.owdOpen then m.owd ++ [r] else m.owd
      meter :=
        if m.goodputOpen then (m.received r).logGoodput interval false
        else if m.owdOpen then m.received r else m.meter
      counter := if m.lostOpen then m.counter.onSeq r.seq else m.counter } := by
  obtain ⟨owdOpen, lostOpen, goodputOpen, counter, meter, owd, lost⟩ := m
  cases owdOpen <;> cases lostOpen <;> cases goodputOpen <;> rfl

section
variable (e : UInt8) (interval : Nat) (rs : List Receipt)

/-- The files stay as the constructor opens them, and nothing is written about losses. -/
theorem run_files : (run e interval rs).owdOpen = decide (e &&& eQsOwd ≠ 0) ∧
    (run e interval rs).lostOpen = decide (e &&& eQsLost ≠ 0) ∧
    (run e interval rs).goodputOpen = decide (e &&& eQsGoodput ≠ 0) ∧
    (run e interval rs).lost = [] := by
  induction rs using List.reverseRecOn with
  | nil => exact ⟨rfl, rfl, rfl, rfl⟩
  | append_singleton rs r ih =>
    rw [run_concat, onOwd_eq]
    exact ih

/-! ## The lost packets -/

/-- One call counts the numbers it skips; the two largest numbers agree. -/
theorem onSeq_eq (n : LostCounter) (seq : Int) (h : n.largestSeq = n.lastSeq) :
    n.onSeq seq =
      let c := countGap (n.lastSeq, n.lostPackets) seq
      { lastSeq := c.1, largestSeq := c.1, lostPackets := c.2 } := by
  obtain ⟨last, largest, lost⟩ := n
  obtain rfl : largest = last := h
  unfold LostCounter.onSeq countGap
  dsimp only
  rcases Int.lt_trichotomy seq largest with hlt | rfl | hgt
  · have hpast : ¬ seq > largest - 1 := by omega
    have hle : ¬ largest ≤ seq := by omega
    have hnew : ¬ seq > largest := by omega
    simp only [if_neg hpast, if_neg hle, if_neg hnew, max_eq_left (Int.le_of_lt hlt)]
  · -- the largest number again takes one off
    have hpast : seq > seq - 1 := by omega
    simp only [if_pos hpast, if_neg (lt_irrefl seq), if_pos (le_refl seq), max_self, gt_iff_lt]
  · have hpast : seq > largest - 1 := by omega
    have hle : largest ≤ seq := by omega
    simp only [if_pos hpast, if_pos hle, if_pos hgt, max_eq_right hle]

theorem counter_run (h : e &&& eQsLost ≠ 0) : (run e interval rs).counter =
    { lastSeq := top 0 (rs.map Receipt.seq), largestSeq := top 0 (rs.map Receipt.seq)
      lostPackets := gaps (rs.map Receipt.seq) } := by
  induction rs using List.reverseRecOn with
  | nil => rfl
  | append_singleton rs r ih =>
    rw [run_concat, onOwd_eq]
    dsimp only
    rw [(run_files e interval rs).2.1, decide_eq_true h, if_pos rfl, ih, onSeq_eq _ _ rfl,
      List.map_append, List.map_singleton, top_concat, gaps_concat]
    rfl

theorem destroy_eq (m : TraceState) : m.destroy interval =
    { m with
      lost :=
        if m.lostOpen then m.lost ++ [(m.counter.lostPackets, m.counter.largestSeq)] else m.lost
      meter := if m.goodputOpen then m.meter.logGoodput interval true else m.meter } := by
  obtain ⟨owdOpen, lostOpen, goodputOpen, counter, meter, owd, lost⟩ := m
  cases lostOpen <;> cases goodputOpen <;> rfl

/-- What the deleted trace reports. -/
theorem lost_destroy (h : e &&& eQsLost ≠ 0) : ((run e interval rs).destroy interval).lost =
    [(gaps (rs.map Receipt.seq), top 0 (rs.map Receipt.seq))] := by
  obtain ⟨-, hlost, -, hempty⟩ := run_files e interval rs
  rw [destroy_eq]
  dsimp only
  rw [hlost, decide_eq_true h, if_pos rfl, hempty, counter_run e interval rs h]
  rfl

end

/-! ## The goodput -/

/-- The time the next line starts at. -/
def lastTime (start : Nat) (lines : List GoodputLine) : Nat :=
  (lines.getLast?.map GoodputLine.time).getD start

def bytes (rs : List Receipt) : Int := (rs.map Receipt.len).sum

/-- The lines are about the packets in turn: each goes on to the time of the last packet of
its part, and shows the bits of this part and the milliseconds since the line before. -/
inductive Covers : Nat → List Receipt → List GoodputLine → Prop
  | nil (start : Nat) : Covers start [] []
  | line {start : Nat} {part rs : List Receipt} {last : Receipt} {lines : List GoodputLine}
      (hlast : part.getLast? = some last) (hlater : start < last.now)
      (hrest : Covers last.now rs lines) :
      Covers start (part ++ rs) ({
        time := last.now
        bits := bytes part * 8
        ms := milliseconds (last.now - start) } :: lines)

/-- One more part and its line. -/
theorem Covers.concat {start : Nat} {rs part : List Receipt} {lines : List GoodputLine}
    (h : Covers start rs lines) {last : Receipt} (hlast : part.getLast? = some last)
    (hlater : lastTime start lines < last.now) :
    Covers start (rs ++ part) (lines ++ [{
      time := last.now
      bits := bytes part * 8
      ms := milliseconds (last.now - lastTime start lines) }]) := by
  induction h with
  | nil start =>
    have hone := Covers.line hlast hlater (Covers.nil last.now)
    rwa [List.append_nil] at hone
  | @line start part' rs last' lines hlast' hlater' hrest ih =>
    have htime : lastTime start ({
        time := last'.now
        bits := bytes part' * 8
        ms := milliseconds (last'.now - start) } :: lines) = lastTime last'.now lines := by
      unfold lastTime
      cases lines using List.reverseRecOn with
      | nil => rfl
      | append_singleton lines l => simp [List.getLast?_cons]
    rw [htime] at hlater ⊢
    rw [List.append_assoc]
    exact Covers.line hlast' hlater' (ih hlater)

theorem bytes_append (rs rs' : List Receipt) : bytes (rs ++ rs') = bytes rs + bytes rs' := by
  simp [bytes]

/-- All bits of the packets are in some line. -/
theorem Covers.sum_bits {start : Nat} {rs : List Receipt} {lines : List GoodputLine}
    (h : Covers start rs lines) : (lines.map GoodputLine.bits).sum = bytes rs * 8 := by
  induction h with
  | nil => rfl
  | line hlast hlater hrest ih =>
    rw [List.map_cons, List.sum_cons, ih, bytes_append]
    exact (Int.add_mul _ _ 8).symm

theorem lastTime_concat (start : Nat) (lines : List GoodputLine) (l : GoodputLine) :
    lastTime start (lines ++ [l]) = l.time := by
  simp [lastTime]

/-- Where the packets are written too: what is read but not yet in a line came within the
interval behind the last line. -/
structure Metered (interval start : Nat) (rs : List Receipt) (g : GoodputMeter) : Prop where
  firstPacketTime : g.firstPacketTime = start
  readBytes : g.readBytes = bytes rs
  receiptTime : rs.getLast?.map Receipt.now = some g.receiptTime
  latest : ∀ r ∈ rs, r.now ≤ g.receiptTime
  lastRateTime : g.lastRateTime = lastTime start g.lines
  notBefore : g.lastRateTime ≤ g.receiptTime
  parts : ∃ written rest, rs = written ++ rest ∧ Covers start written g.lines ∧
    bytes written = g.lastRateBytes ∧
    (∀ r ∈ rest, g.lastRateTime ≤ r.now) ∧ (rest = [] → g.receiptTime = g.lastRateTime)

section
variable {interval start : Nat} {rs : List Receipt} {g : GoodputMeter}

/-- The line that is due is about the packets that are in none. -/
theorem Metered.line (h : Metered interval start rs g) (hlater : g.lastRateTime < g.receiptTime) :
    Covers start rs (g.lines ++ [g.line]) := by
  obtain ⟨written, rest, hsplit, hcovers, hbytes, -, hrest⟩ := h.parts
  have hne : rest ≠ [] := fun hnil => by
    have := hrest hnil
    omega
  obtain ⟨last, hlast⟩ := Option.isSome_iff_exists.1 (List.getLast?_isSome.2 hne)
  have htime : last.now = g.receiptTime := by
    have hreceipt := h.receiptTime
    rw [hsplit, List.getLast?_append, hlast] at hreceipt
    exact Option.some.inj hreceipt
  have hbits : g.readBytes - g.lastRateBytes = bytes rest := by
    rw [h.readBytes, hsplit, bytes_append, ← hbytes]
    omega
  have hnew := hcovers.concat hlast (by rw [← h.lastRateTime, htime]; exact hlater)
  rw [← h.lastRateTime, htime, ← hbits, ← hsplit] at hnew
  exact hnew

/-- The first packet. -/
theorem metered_first (r : Receipt) :
    Metered interval r.now [r] { GoodputMeter.new.onPacket r with receiptTime := r.now } where
  firstPacketTime := rfl
  readBytes := by simp [GoodputMeter.onPacket, GoodputMeter.new, bytes]
  receiptTime := rfl
  latest r' hr' := by rw [List.mem_singleton.1 hr']
  lastRateTime := rfl
  notBefore := le_rfl
  parts := ⟨[], [r], rfl, .nil _, rfl, fun r' hr' => by
    rw [List.mem_singleton.1 hr']
    exact le_rfl, fun h => absurd h (List.cons_ne_nil _ _)⟩

/-- One more packet, not earlier than the last. -/
theorem Metered.onPacket (h : Metered interval start rs g) (hstart : 0 < start) {r : Receipt}
    (hr : ∀ r' ∈ rs, r'.now ≤ r.now) :
    Metered interval start (rs ++ [r]) { g.onPacket r with receiptTime := r.now } := by
  have hsame : g.onPacket r = { g with readBytes := g.readBytes + r.len } := by
    have hfirst := h.firstPacketTime
    unfold GoodputMeter.onPacket
    rw [if_neg (by omega)]
  have hnow : g.receiptTime ≤ r.now := by
    obtain ⟨last, hlast, htime⟩ := Option.map_eq_some_iff.1 h.receiptTime
    rw [← htime]
    exact hr last (List.mem_of_getLast? hlast)
  have hle := h.notBefore
  rw [hsame]
  refine ⟨h.firstPacketTime, ?_, by simp, ?_, h.lastRateTime, by dsimp only; omega, ?_⟩
  · dsimp only
    rw [bytes_append, h.readBytes]
    simp [bytes]
  · intro r' hr'
    rcases List.mem_append.1 hr' with hr' | hr'
    · exact hr r' hr'
    · rw [List.mem_singleton.1 hr']
  · obtain ⟨written, rest, hsplit, hcovers, hbytes, hrest, -⟩ := h.parts
    refine ⟨written, rest ++ [r], by rw [hsplit, List.append_assoc], hcovers, hbytes, ?_, ?_⟩
    · intro r' hr'
      rcases List.mem_append.1 hr' with hr' | hr'
      · exact hrest r' hr'
      · rw [List.mem_singleton.1 hr']
        exact hle.trans hnow
    · exact fun hnil => absurd hnil (List.append_ne_nil_of_right_ne_nil rest (List.cons_ne_nil r []))

theorem Metered.logGoodput (h : Metered interval start rs g) (hinterval : 0 < interval) :
    Metered interval start rs (g.logGoodput interval false) := by
  unfold GoodputMeter.logGoodput
  rw [if_neg (by decide)]
  split
  · rename_i hdue
    have hcovers := h.line (by omega)
    refine ⟨h.firstPacketTime, h.readBytes, h.receiptTime, h.latest, ?_, le_rfl, ?_⟩
    · dsimp only
      rw [lastTime_concat]
      rfl
    · exact ⟨rs, [], (List.append_nil rs).symm, hcovers, h.readBytes.symm,
        fun r hr => absurd hr List.not_mem_nil, fun _ => rfl⟩
  · exact h

/-- The destructor leaves out what came in the instant of the last line. -/
theorem Metered.destroyed (h : Metered interval start rs g) :
    ∃ written unwritten, rs = written ++ unwritten ∧
      Covers start written (g.logGoodput interval true).lines ∧
      ∀ r ∈ unwritten, r.now = lastTime start (g.logGoodput interval true).lines := by
  have hle := h.notBefore
  unfold GoodputMeter.logGoodput
  rw [if_pos rfl]
  split
  · rename_i hlater
    exact ⟨rs, [], (List.append_nil rs).symm, h.line hlater, fun r hr => absurd hr List.not_mem_nil⟩
  · obtain ⟨written, rest, hsplit, hcovers, -, hrest, -⟩ := h.parts
    refine ⟨written, rest, hsplit, hcovers, fun r hr => ?_⟩
    have hlow := hrest r hr
    have hup := h.latest r (by rw [hsplit]; exact List.mem_append_right written hr)
    rw [← h.lastRateTime]
    omega

end

section
variable {e : UInt8} {interval : Nat} (hgoodput : e &&& eQsGoodput ≠ 0) (hinterval : 0 < interval)

include hgoodput hinterval

/-- The packets' times are known. -/
theorem metered_run (howd : e &&& eQsOwd ≠ 0) {r : Receipt} {rs : List Receipt} (hr : 0 < r.now)
    (hsorted : (r :: rs).Pairwise fun r r' => r.now ≤ r'.now) :
    Metered interval r.now (r :: rs) (run e interval (r :: rs)).meter := by
  have hopen : ∀ m : TraceState, m.owdOpen = true → m.goodputOpen = true → ∀ r : Receipt,
      (m.onOwd interval r).meter =
        { m.meter.onPacket r with receiptTime := r.now }.logGoodput interval false := by
    intro m howd hgoodput r
    rw [onOwd_eq]
    dsimp only
    rw [if_pos hgoodput, received, if_pos howd]
  induction rs using List.reverseRecOn with
  | nil =>
    have hfirst := hopen (new e) (decide_eq_true howd) (decide_eq_true hgoodput) r
    exact hfirst ▸ (metered_first r).logGoodput hinterval
  | append_singleton rs r' ih =>
    rw [← List.cons_append] at hsorted ⊢
    obtain ⟨hrs, -, hr'⟩ := List.pairwise_append.1 hsorted
    obtain ⟨h1, -, h2, -⟩ := run_files e interval (r :: rs)
    rw [run_concat, hopen _ (by rw [h1]; exact decide_eq_true howd)
      (by rw [h2]; exact decide_eq_true hgoodput)]
    exact ((ih hrs).onPacket hr fun x hx => hr' x hx r' List.mem_cons_self).logGoodput hinterval

/-- Without the lines of the packets nothing is ever due. -/
theorem silent_run (howd : e &&& eQsOwd = 0) (rs : List Receipt) :
    (run e interval rs).meter.receiptTime = 0 ∧ (run e interval rs).meter.lines = [] := by
  induction rs using List.reverseRecOn with
  | nil => exact ⟨rfl, rfl⟩
  | append_singleton rs r ih =>
    obtain ⟨h1, -, h2, -⟩ := run_files e interval rs
    have hreceipt : ((run e interval rs).meter.onPacket r).receiptTime = 0 ∧
        ((run e interval rs).meter.onPacket r).lines = [] := by
      unfold GoodputMeter.onPacket
      split <;> exact ih
    rw [run_concat, onOwd_eq]
    dsimp only
    rw [h2, if_pos (decide_eq_true hgoodput), received, h1,
      if_neg (by rw [howd]; decide), GoodputMeter.logGoodput, if_neg (by decide),
      if_neg (by omega)]
    exact hreceipt

end

/-- **The goodput file.**  Without the file of the packets it stays empty; with it the lines
are about all packets in turn, but for those that come behind the last line in its instant. -/
theorem goodput_file (e : UInt8) (interval : Nat) (rs : List Receipt)
    (hgoodput : e &&& eQsGoodput ≠ 0) (hinterval : 0 < interval) (hpos : ∀ r ∈ rs, 0 < r.now)
    (hsorted : rs.Pairwise fun r r' => r.now ≤ r'.now) :
    (e &&& eQsOwd = 0 → ((run e interval rs).destroy interval).meter.lines = []) ∧
    (e &&& eQsOwd ≠ 0 → ∃ start written unwritten, rs = written ++ unwritten ∧
      start = (rs.head?.map Receipt.now).getD 0 ∧
      Covers start written ((run e interval rs).destroy interval).meter.lines ∧
      (((run e interval rs).destroy interval).meter.lines.map GoodputLine.bits).sum =
        bytes written * 8 ∧
      ∀ r ∈ unwritten,
        r.now = lastTime start ((run e interval rs).destroy interval).meter.lines) := by
  have hmeter : ((run e interval rs).destroy interval).meter =
      (run e interval rs).meter.logGoodput interval true := by
    rw [destroy_eq]
    dsimp only
    rw [(run_files e interval rs).2.2.1, if_pos (decide_eq_true hgoodput)]
  rw [hmeter]
  constructor
  · intro howd
    obtain ⟨hreceipt, hlines⟩ := silent_run hgoodput hinterval howd rs
    rw [GoodputMeter.logGoodput, if_pos rfl, if_neg (by omega)]
    exact hlines
  · intro howd
    cases rs with
    | nil => exact ⟨0, [], [], rfl, rfl, .nil 0, rfl, fun r hr => absurd hr List.not_mem_nil⟩
    | cons r rs =>
      obtain ⟨written, unwritten, hsplit, hcovers, hrest⟩ :=
        (metered_run hgoodput hinterval howd (hpos r List.mem_cons_self) hsorted).destroyed
      exact ⟨r.now, written, unwritten, hsplit, rfl, hcovers, hcovers.sum_bits, hrest⟩

/-- Three packets, the last two at once. -/
def burst : List Receipt :=
  [{ now := 1000000, seq := 1, owd := 0, len := 100 },
    { now := 3000000, seq := 2, owd := 0, len := 100 },
    { now := 3000000, seq := 3, owd := 0, len := 100 }]

theorem goodput_file_burst :
    (((run 3 2000000 burst).destroy 2000000).meter.lines =
      [{ time := 3000000, bits := 1600, ms := 2 }]) ∧
    ((run 2 2000000 burst).destroy 2000000).meter.lines = [] ∧
    ∃ start written unwritten, burst = written ++ unwritten ∧
      start = (burst.head?.map Receipt.now).getD 0 ∧
      Covers start written ((run 3 2000000 burst).destroy 2000000).meter.lines ∧
      (((run 3 2000000 burst).destroy 2000000).meter.lines.map GoodputLine.bits).sum =
        bytes written * 8 ∧
      ∀ r ∈ unwritten,
        r.now = lastTime start ((run 3 2000000 burst).destroy 2000000).meter.lines :=
  ⟨by decide, (goodput_file 2 2000000 burst (by decide) (by decide) (by decide) (by decide)).1
      (by decide),
    (goodput_file 3 2000000 burst (by decide) (by decide) (by decide) (by decide)).2 (by decide)⟩

end TraceState

end InNetworkAgg
