import InNetworkAgg.Lib.SearchTree

/-!
# The server traces (quic/model/ns3-quic-addr-pair.h, ns3-quic-trace.cc)

`Ns3QuicServerTraceDispatcher` keeps one trace for each address pair that is
monitored, in a `std::map` ordered by `Ns3QuicAddressPair::operator<`.  The
operator is true when any component is smaller: it is the negation of "no
component is smaller the other way round", the componentwise order.

    operator< is a strict weak ordering on S  ↔  S is a chain       (lt_strictWeakOrderOn_iff)
    every search tree registers the calls  ↔  their pairs are a chain          (registers_iff)

`Registers` is what the registry is for: a call returns true for a new pair
only, and `OnOwd` reaches the trace made for its pair and no other.
-/

namespace InNetworkAgg

open SearchTree

/-- What is asked of an address: `GetIpv4().Get()` and `GetPort()`. -/
structure InetSocketAddress where
  ipv4 : UInt32
  port : UInt16
deriving DecidableEq, Repr

structure Ns3QuicAddressPair where
  clientIp : UInt32
  serverIp : UInt32
  clientPort : UInt16
  serverPort : UInt16
deriving DecidableEq, Repr

/-! ## The order of the pairs -/

namespace Ns3QuicAddressPair

/-- The constructor. -/
def ofAddresses (c s : InetSocketAddress) : Ns3QuicAddressPair :=
  { clientIp := c.ipv4, serverIp := s.ipv4, clientPort := c.port, serverPort := s.port }

theorem exists_ofAddresses (p : Ns3QuicAddressPair) : ∃ c s, ofAddresses c s = p :=
  ⟨⟨p.clientIp, p.clientPort⟩, ⟨p.serverIp, p.serverPort⟩, rfl⟩

/-- `operator<` -/
def Lt (a o : Ns3QuicAddressPair) : Prop :=
  a.clientIp < o.clientIp ∨ a.serverIp < o.serverIp ∨
    a.clientPort < o.clientPort ∨ a.serverPort < o.serverPort

instance : DecidableRel Lt := fun a o => by
  unfold Lt
  infer_instance

/-- Componentwise: no component of `a` is above that of `b`. -/
instance : LE Ns3QuicAddressPair where
  le a b := a.clientIp ≤ b.clientIp ∧ a.serverIp ≤ b.serverIp ∧
    a.clientPort ≤ b.clientPort ∧ a.serverPort ≤ b.serverPort

theorem le_def (a b : Ns3QuicAddressPair) : a ≤ b ↔ a.clientIp ≤ b.clientIp ∧
    a.serverIp ≤ b.serverIp ∧ a.clientPort ≤ b.clientPort ∧ a.serverPort ≤ b.serverPort := Iff.rfl

instance : DecidableLE Ns3QuicAddressPair := fun a b => decidable_of_iff _ (le_def a b).symm

instance : PartialOrder Ns3QuicAddressPair where
  le_refl a := ⟨UInt32.le_refl _, UInt32.le_refl _, UInt16.le_refl _, UInt16.le_refl _⟩
  le_trans a b c := by
    rintro ⟨h1, h2, h3, h4⟩ ⟨h5, h6, h7, h8⟩
    exact ⟨UInt32.le_trans h1 h5, UInt32.le_trans h2 h6, UInt16.le_trans h3 h7,
      UInt16.le_trans h4 h8⟩
  le_antisymm a b := by
    rintro ⟨h1, h2, h3, h4⟩ ⟨h5, h6, h7, h8⟩
    cases a
    cases b
    rw [mk.injEq]
    exact ⟨UInt32.le_antisymm h1 h5, UInt32.le_antisymm h2 h6, UInt16.le_antisymm h3 h7,
      UInt16.le_antisymm h4 h8⟩

theorem lt_iff_not_le (a o : Ns3QuicAddressPair) : Lt a o ↔ ¬ o ≤ a := by
  unfold Lt
  rw [le_def]
  simp only [not_and_or, UInt32.not_le, UInt16.not_le]

/-- The operator is a strict weak ordering on the chains of the componentwise order only;
which pairs are equivalent is never the problem. -/
theorem lt_strictWeakOrderOn_iff (S : Set Ns3QuicAddressPair) :
    StrictWeakOrderOn S Lt ↔ IsChain (· ≤ ·) S :=
  strictWeakOrderOn_iff_isChain lt_iff_not_le S

theorem incomparable_iff_eq (a b : Ns3QuicAddressPair) : ¬ Lt a b ∧ ¬ Lt b a ↔ a = b := by
  constructor
  · rintro ⟨hab, hba⟩
    exact eq_of_not_lt lt_iff_not_le hab hba
  · rintro rfl
    rw [lt_iff_not_le, not_not]
    exact ⟨le_rfl, le_rfl⟩

/-! ## The name of a trace -/

def getIp2String (ip : UInt32) : String :=
  toString ((ip >>> 24) &&& 0xff) ++ "." ++ toString ((ip >>> 16) &&& 0xff) ++ "." ++
    toString ((ip >>> 8) &&& 0xff) ++ "." ++ toString (ip &&& 0xff)

/-- `Ns3QuicAddressPair2String` -/
def toName (p : Ns3QuicAddressPair) : String :=
  getIp2String p.clientIp ++ ":" ++ toString p.clientPort ++ "_" ++
    getIp2String p.serverIp ++ ":" ++ toString p.serverPort

end Ns3QuicAddressPair

open Ns3QuicAddressPair

/-! ## The dispatcher -/

/-- A trace: the name of its files, which of them are open, and the packets it was handed. -/
structure Ns3QuicServerTrace where
  tracePrefix : String
  e : UInt8
  owds : List (Int × Int × Int)
deriving DecidableEq, Repr

def Ns3QuicServerTrace.new (tracePrefix : String) (e : UInt8) : Ns3QuicServerTrace :=
  { tracePrefix := tracePrefix, e := e, owds := [] }

def Ns3QuicServerTrace.onOwd (t : Ns3QuicServerTrace) (seq owd len : Int) : Ns3QuicServerTrace :=
  { t with owds := t.owds ++ [(seq, owd, len)] }

theorem Ns3QuicServerTrace.onOwd_ne (t : Ns3QuicServerTrace) (seq owd len : Int) :
    t.onOwd seq owd len ≠ t := by
  intro h
  have := congrArg (fun t => t.owds.length) h
  simp [Ns3QuicServerTrace.onOwd] at this

structure Ns3QuicServerTraceDispatcher where
  topoId : String
  e : UInt8
  readBytes : Int
  firstPacketTime : Nat
  receiptTime : Nat
  /-- The values are pointers: positions in `traces`. -/
  traceDb : OrdTree Ns3QuicAddressPair Nat
  /-- The traces in the order of `new`. -/
  traces : List Ns3QuicServerTrace

namespace Ns3QuicServerTraceDispatcher

/-- A new dispatcher after `LogEnable`. -/
def logEnabled (topoId : String) (e : UInt8) : Ns3QuicServerTraceDispatcher :=
  { topoId := topoId, e := e, readBytes := 0, firstPacketTime := 0, receiptTime := 0
    traceDb := .leaf, traces := [] }

def addMonitorAddressPair (balance : Rebalance Ns3QuicAddressPair Nat)
    (d : Ns3QuicServerTraceDispatcher) (addrPair : Ns3QuicAddressPair) :
    Ns3QuicServerTraceDispatcher × Bool :=
  match d.traceDb.find Lt addrPair with
  | none =>
    let trace := Ns3QuicServerTrace.new (d.topoId ++ "_" ++ addrPair.toName) d.e
    ({ d with
      traceDb := insertUnique Lt balance addrPair d.traces.length d.traceDb
      traces := d.traces ++ [trace] }, true)
  | some _ => (d, false)

def onOwd (d : Ns3QuicServerTraceDispatcher) (now : Nat) (c s : InetSocketAddress)
    (seq owd len : Int) : Ns3QuicServerTraceDispatcher :=
  let d := { d with
    readBytes := d.readBytes + len
    firstPacketTime := if d.firstPacketTime = 0 then now else d.firstPacketTime
    receiptTime := now }
  match d.traceDb.find Lt (ofAddresses c s) with
  | some (_, i) => { d with traces := d.traces.modify i fun t => t.onOwd seq owd len }
  | none => d

/-- The dispatcher after some calls. -/
def addAll (balance : Rebalance Ns3QuicAddressPair Nat) (d : Ns3QuicServerTraceDispatcher)
    (calls : List Ns3QuicAddressPair) : Ns3QuicServerTraceDispatcher :=
  calls.foldl (fun d p => (d.addMonitorAddressPair balance p).1) d

theorem addAll_concat (balance : Rebalance Ns3QuicAddressPair Nat)
    (d : Ns3QuicServerTraceDispatcher) (calls : List Ns3QuicAddressPair) (p : Ns3QuicAddressPair) :
    d.addAll balance (calls ++ [p]) =
      ((d.addAll balance calls).addMonitorAddressPair balance p).1 := by
  simp [addAll]

/-- One of the calls was for `q`, returned true and made trace `i`. -/
def CreatedFor (balance : Rebalance Ns3QuicAddressPair Nat) (d : Ns3QuicServerTraceDispatcher)
    (calls : List Ns3QuicAddressPair) (q : Ns3QuicAddressPair) (i : Nat) : Prop :=
  ∃ before behind, calls = before ++ q :: behind ∧
    ((d.addAll balance before).addMonitorAddressPair balance q).2 = true ∧
    (d.addAll balance before).traces.length = i

/-- Each call returns true exactly for a pair that is new, and behind each call `OnOwd`
reaches the trace made for its pair and no other. -/
structure Registers (balance : Rebalance Ns3QuicAddressPair Nat) (d : Ns3QuicServerTraceDispatcher)
    (calls : List Ns3QuicAddressPair) : Prop where
  success : ∀ before p behind, calls = before ++ p :: behind →
    (((d.addAll balance before).addMonitorAddressPair balance p).2 = true ↔ p ∉ before)
  own : ∀ before behind, calls = before ++ behind → ∀ now c s seq owd len i,
    CreatedFor balance d before (ofAddresses c s) i →
      ∃ t, (d.addAll balance before).traces[i]? = some t ∧
        ((d.addAll balance before).onOwd now c s seq owd len).traces[i]? =
          some (t.onOwd seq owd len)
  others : ∀ before behind, calls = before ++ behind → ∀ now c s seq owd len i,
    ¬ CreatedFor balance d before (ofAddresses c s) i →
      ((d.addAll balance before).onOwd now c s seq owd len).traces[i]? =
        (d.addAll balance before).traces[i]?

/-! ## The registry as a list of pairs

`calls.eraseDups` is what the registry stands for: the pairs in the order of their
first calls; the number of a trace is the position of its pair. -/

theorem eraseDups_concat {α : Type*} [DecidableEq α] (l : List α) (a : α) :
    (l ++ [a]).eraseDups = if a ∈ l then l.eraseDups else l.eraseDups ++ [a] := by
  rw [List.eraseDups_append]
  by_cases h : a ∈ l <;> simp [List.removeAll, List.eraseDups_cons, h]

theorem nodup_eraseDups {α : Type*} [DecidableEq α] (l : List α) : l.eraseDups.Nodup := by
  induction l using List.reverseRecOn with
  | nil => exact List.nodup_nil
  | append_singleton l a ih =>
    rw [eraseDups_concat]
    split
    · exact ih
    · rename_i h
      rw [List.nodup_append]
      refine ⟨ih, List.nodup_singleton a, fun b hb c hc => ?_⟩
      rw [List.mem_singleton.1 hc]
      rintro rfl
      exact h (List.mem_eraseDups.1 hb)

/-- The dispatcher after the calls, where the registry has worked so far. -/
structure Holds (topoId : String) (e : UInt8) (calls : List Ns3QuicAddressPair)
    (d : Ns3QuicServerTraceDispatcher) : Prop where
  topoId_eq : d.topoId = topoId
  e_eq : d.e = e
  sorted : d.traceDb.Sorted Lt
  entries : ∀ p i, (p, i) ∈ d.traceDb.toList ↔ calls.eraseDups[i]? = some p
  traces : d.traces = calls.eraseDups.map fun p =>
    Ns3QuicServerTrace.new (topoId ++ "_" ++ p.toName) e

variable {topoId : String} {e : UInt8} {calls : List Ns3QuicAddressPair}
  {d : Ns3QuicServerTraceDispatcher}

theorem holds_logEnabled : Holds topoId e [] (logEnabled topoId e) where
  topoId_eq := rfl
  e_eq := rfl
  sorted := OrdTree.sorted_leaf Lt
  entries p i := by simp [logEnabled]
  traces := rfl

theorem Holds.length_traces (h : Holds topoId e calls d) :
    d.traces.length = calls.eraseDups.length := by
  rw [h.traces, List.length_map]

theorem Holds.key_mem (h : Holds topoId e calls d) {p : Ns3QuicAddressPair × Nat}
    (hp : p ∈ d.traceDb.toList) : p.1 ∈ calls :=
  List.mem_eraseDups.1 (List.mem_of_getElem? ((h.entries p.1 p.2).1 hp))

/-- A pair that is found was added, whatever the order is. -/
theorem Holds.of_find (h : Holds topoId e calls d) {q p : Ns3QuicAddressPair} {i : Nat}
    (hfind : d.traceDb.find Lt q = some (p, i)) : p = q ∧ calls.eraseDups[i]? = some q := by
  obtain ⟨hmem, hlow, hup⟩ := mem_of_find hfind
  obtain rfl : p = q := (incomparable_iff_eq p q).1 ⟨hlow, hup⟩
  exact ⟨rfl, (h.entries p i).1 hmem⟩

/-- On a chain the pairs that were added are found. -/
theorem Holds.find_eq (h : Holds topoId e calls d) {q : Ns3QuicAddressPair}
    (hchain : IsChain (· ≤ ·) {p | p ∈ q :: calls}) (i : Nat) :
    d.traceDb.find Lt q = some (q, i) ↔ calls.eraseDups[i]? = some q := by
  rw [find_eq_some_iff ((lt_strictWeakOrderOn_iff _).2 hchain) h.sorted
    (fun p hp => List.mem_cons_of_mem _ (h.key_mem hp)) List.mem_cons_self, h.entries]
  exact and_iff_left ((incomparable_iff_eq q q).2 rfl)

/-- The pair of trace `i` is found. -/
theorem Holds.find_of_getElem? (h : Holds topoId e calls d) {q : Ns3QuicAddressPair}
    (hchain : IsChain (· ≤ ·) {p | p ∈ calls}) {i : Nat} (hi : calls.eraseDups[i]? = some q) :
    d.traceDb.find Lt q = some (q, i) := by
  refine (h.find_eq (hchain.mono fun p hp => ?_) i).2 hi
  rcases List.mem_cons.1 hp with rfl | hp
  · exact List.mem_eraseDups.1 (List.mem_of_getElem? hi)
  · exact hp

theorem Holds.find_eq_none (h : Holds topoId e calls d) {q : Ns3QuicAddressPair}
    (hq : q ∉ calls) : d.traceDb.find Lt q = none := by
  by_contra hfound
  obtain ⟨⟨p, i⟩, hp⟩ := Option.ne_none_iff_exists'.1 hfound
  obtain ⟨rfl, hi⟩ := h.of_find hp
  exact hq (List.mem_eraseDups.1 (List.mem_of_getElem? hi))

theorem addMonitorAddressPair_of_none (balance : Rebalance Ns3QuicAddressPair Nat)
    {q : Ns3QuicAddressPair} (h : d.traceDb.find Lt q = none) :
    d.addMonitorAddressPair balance q =
      ({ d with
        traceDb := insertUnique Lt balance q d.traces.length d.traceDb
        traces := d.traces ++
          [Ns3QuicServerTrace.new (d.topoId ++ "_" ++ q.toName) d.e] }, true) := by
  simp only [addMonitorAddressPair, h]

theorem addMonitorAddressPair_of_some (balance : Rebalance Ns3QuicAddressPair Nat)
    {q : Ns3QuicAddressPair} {p : Ns3QuicAddressPair × Nat} (h : d.traceDb.find Lt q = some p) :
    d.addMonitorAddressPair balance q = (d, false) := by
  simp only [addMonitorAddressPair, h]

/-- A call returns true exactly for a pair that is new; where the pairs are a chain
the registry goes on working. -/
theorem Holds.add (h : Holds topoId e calls d) (balance : Rebalance Ns3QuicAddressPair Nat)
    {q : Ns3QuicAddressPair} (hchain : IsChain (· ≤ ·) {p | p ∈ q :: calls}) :
    ((d.addMonitorAddressPair balance q).2 = true ↔ q ∉ calls) ∧
      Holds topoId e (calls ++ [q]) (d.addMonitorAddressPair balance q).1 := by
  by_cases hq : q ∈ calls
  · obtain ⟨i, hi⟩ := List.mem_iff_getElem?.1 (List.mem_eraseDups.2 hq)
    rw [addMonitorAddressPair_of_some balance ((h.find_eq hchain i).2 hi)]
    refine ⟨by simp [hq], h.topoId_eq, h.e_eq, h.sorted, ?_, ?_⟩
    · rw [eraseDups_concat, if_pos hq]
      exact h.entries
    · rw [eraseDups_concat, if_pos hq]
      exact h.traces
  · have ho := (lt_strictWeakOrderOn_iff _).2 hchain
    have hkeys : ∀ p ∈ d.traceDb.toList, p.1 ∈ {p | p ∈ q :: calls} :=
      fun p hp => List.mem_cons_of_mem _ (h.key_mem hp)
    have hnew : ∀ p ∈ d.traceDb.toList, Lt p.1 q ∨ Lt q p.1 := by
      intro p hp
      by_contra hnot
      rw [not_or] at hnot
      exact hq ((incomparable_iff_eq p.1 q).1 hnot ▸ h.key_mem hp)
    rw [addMonitorAddressPair_of_none balance (h.find_eq_none hq)]
    refine ⟨by simp [hq], h.topoId_eq, h.e_eq, ?_, fun p i => ?_, ?_⟩
    · exact sorted_insertUnique ho balance h.sorted hkeys List.mem_cons_self
    · rw [mem_insertUnique balance hnew, h.entries, h.length_traces, Prod.mk.injEq,
        eraseDups_concat, if_neg hq]
      rcases Nat.lt_trichotomy i calls.eraseDups.length with hi | hi | hi
      · rw [List.getElem?_append_left hi]
        simp [Nat.ne_of_lt hi]
      · simp [hi, eq_comm]
      · have hi' : ¬ i = calls.eraseDups.length := by omega
        rw [List.getElem?_append_right (by omega), List.getElem?_eq_none (by omega),
          List.getElem?_eq_none (by simp; omega)]
        simp [hi']
    · rw [h.topoId_eq, h.e_eq, h.traces, eraseDups_concat, if_neg hq, List.map_append]
      rfl

theorem isChain_before {calls before behind : List Ns3QuicAddressPair}
    (hchain : IsChain (· ≤ ·) {p | p ∈ calls}) (hsplit : calls = before ++ behind) :
    IsChain (· ≤ ·) {p | p ∈ before} := by
  refine hchain.mono fun p hp => ?_
  rw [hsplit]
  exact List.mem_append_left _ hp

theorem isChain_upTo {calls before behind : List Ns3QuicAddressPair} {q : Ns3QuicAddressPair}
    (hchain : IsChain (· ≤ ·) {p | p ∈ calls}) (hsplit : calls = before ++ q :: behind) :
    IsChain (· ≤ ·) {p | p ∈ q :: before} := by
  refine hchain.mono fun p hp => ?_
  rw [hsplit]
  rcases List.mem_cons.1 hp with rfl | hp
  · exact List.mem_append_right _ List.mem_cons_self
  · exact List.mem_append_left _ hp

variable (topoId e) (balance : Rebalance Ns3QuicAddressPair Nat)

/-- Along any calls for a chain of pairs. -/
theorem holds_addAll (calls : List Ns3QuicAddressPair) (hchain : IsChain (· ≤ ·) {p | p ∈ calls}) :
    Holds topoId e calls ((logEnabled topoId e).addAll balance calls) := by
  induction calls using List.reverseRecOn with
  | nil => exact holds_logEnabled
  | append_singleton calls p ih =>
    rw [addAll_concat]
    exact ((ih (isChain_before hchain rfl)).add balance (hchain.mono fun q hq => by simpa [or_comm] using hq)).2

/-- What a call behind some others returns. -/
theorem add_success_iff {calls : List Ns3QuicAddressPair} {p : Ns3QuicAddressPair}
    (hchain : IsChain (· ≤ ·) {q | q ∈ p :: calls}) :
    (((logEnabled topoId e).addAll balance calls).addMonitorAddressPair balance p).2 = true ↔
      p ∉ calls :=
  ((holds_addAll topoId e balance calls
    (hchain.mono fun _ hq => List.mem_cons_of_mem _ hq)).add balance hchain).1

/-- Trace `i` is made for the pair at position `i`. -/
theorem createdFor_iff {calls : List Ns3QuicAddressPair}
    (hchain : IsChain (· ≤ ·) {p | p ∈ calls}) (q : Ns3QuicAddressPair) (i : Nat) :
    CreatedFor balance (logEnabled topoId e) calls q i ↔ calls.eraseDups[i]? = some q := by
  -- the position of the pair of a first call
  have hfirst : ∀ before behind, calls = before ++ q :: behind → q ∉ before →
      calls.eraseDups[((logEnabled topoId e).addAll balance before).traces.length]? = some q := by
    intro before behind hsplit hq
    have hbefore := isChain_before hchain hsplit
    rw [(holds_addAll topoId e balance before hbefore).length_traces, hsplit,
      List.append_cons, List.eraseDups_append, eraseDups_concat, if_neg hq]
    simp
  constructor
  · rintro ⟨before, behind, hsplit, hsuccess, rfl⟩
    have hcons := isChain_upTo hchain hsplit
    exact hfirst before behind hsplit ((add_success_iff topoId e balance hcons).1 hsuccess)
  · intro hi
    obtain ⟨before, behind, hsplit, hq⟩ :=
      List.eq_append_cons_of_mem (List.mem_eraseDups.1 (List.mem_of_getElem? hi))
    have hcons := isChain_upTo hchain hsplit
    refine ⟨before, behind, hsplit, (add_success_iff topoId e balance hcons).2 hq, ?_⟩
    -- a pair has one position only
    have hpos := hfirst before behind hsplit hq
    obtain ⟨hlt, -⟩ := List.getElem?_eq_some_iff.1 hi
    exact ((List.getElem?_inj hlt (nodup_eraseDups calls)).1 (hi.trans hpos.symm)).symm

theorem onOwd_of_find {now : Nat} {c s : InetSocketAddress} {seq owd len : Int}
    {p : Ns3QuicAddressPair} {i : Nat} (h : d.traceDb.find Lt (ofAddresses c s) = some (p, i)) :
    (d.onOwd now c s seq owd len).traces = d.traces.modify i fun t => t.onOwd seq owd len := by
  simp only [onOwd, h]

theorem onOwd_of_find_none {now : Nat} {c s : InetSocketAddress} {seq owd len : Int}
    (h : d.traceDb.find Lt (ofAddresses c s) = none) :
    (d.onOwd now c s seq owd len).traces = d.traces := by
  simp only [onOwd, h]

@[simp] theorem traceDb_onOwd (now : Nat) (c s : InetSocketAddress) (seq owd len : Int) :
    (d.onOwd now c s seq owd len).traceDb = d.traceDb := by
  cases hfind : d.traceDb.find Lt (ofAddresses c s) with
  | none => simp only [onOwd, hfind]
  | some entry => simp only [onOwd, hfind]

/-- Any search tree will do for pairs that are a chain. -/
theorem registers_of_isChain (calls : List Ns3QuicAddressPair)
    (hchain : IsChain (· ≤ ·) {p | p ∈ calls}) :
    Registers balance (logEnabled topoId e) calls where
  success before p behind hsplit :=
    add_success_iff topoId e balance (isChain_upTo hchain hsplit)
  own before behind hsplit now c s seq owd len i hcreated := by
    have hbefore := isChain_before hchain hsplit
    have hholds := holds_addAll topoId e balance before hbefore
    rw [createdFor_iff topoId e balance hbefore] at hcreated
    have hfind := hholds.find_of_getElem? hbefore hcreated
    refine ⟨_, by rw [hholds.traces, List.getElem?_map, hcreated]; rfl, ?_⟩
    rw [onOwd_of_find hfind, List.getElem?_modify_eq, hholds.traces, List.getElem?_map, hcreated]
    rfl
  others before behind hsplit now c s seq owd len i hcreated := by
    have hbefore := isChain_before hchain hsplit
    have hholds := holds_addAll topoId e balance before hbefore
    rw [createdFor_iff topoId e balance hbefore] at hcreated
    cases hfind : (((logEnabled topoId e).addAll balance before).traceDb.find Lt
        (ofAddresses c s)) with
    | none => rw [onOwd_of_find_none hfind]
    | some p =>
      rw [onOwd_of_find hfind, List.getElem?_modify_ne]
      intro hi
      exact hcreated (hi ▸ (hholds.of_find hfind).2)

theorem length_traceDb_le (calls : List Ns3QuicAddressPair) :
    ((logEnabled topoId e).addAll balance calls).traceDb.toList.length ≤ calls.length := by
  induction calls using List.reverseRecOn with
  | nil => exact Nat.le_refl _
  | append_singleton calls p ih =>
    rw [addAll_concat, List.length_append, List.length_singleton, addMonitorAddressPair]
    split
    · have := length_insertLeaf_le Lt p
        ((logEnabled topoId e).addAll balance calls).traces.length
        ((logEnabled topoId e).addAll balance calls).traceDb .none
      simp only [insertUnique, balance.toList_run]
      omega
    · simp only
      omega

/-- A pair that is not comparable to one of the pairs before is registered and not
found: `OnOwd` does not reach its trace. -/
theorem not_registers_of_crossing {calls : List Ns3QuicAddressPair} {p q : Ns3QuicAddressPair}
    (hchain : IsChain (· ≤ ·) {r | r ∈ calls}) (hq : q ∈ calls) (hqp : ¬ q ≤ p) (hpq : ¬ p ≤ q)
    (hkeep : ∀ t : OrdTree Ns3QuicAddressPair Nat,
      t.toList.length ≤ calls.length + 1 → balance.run t = t) :
    ¬ Registers balance (logEnabled topoId e) (calls ++ [p]) := by
  intro hreg
  have hholds := holds_addAll topoId e balance calls hchain
  have hp : p ∉ calls := fun hp => (hchain.total hp hq).elim hpq hqp
  have hadd := addMonitorAddressPair_of_none balance (hholds.find_eq_none hp)
  -- the new entry is not rotated, and the search for it goes the other way at `q`
  have hlost : (insertUnique Lt balance p ((logEnabled topoId e).addAll balance calls).traces.length
      ((logEnabled topoId e).addAll balance calls).traceDb).find Lt p = none := by
    have hlen := length_insertLeaf_le Lt p
      ((logEnabled topoId e).addAll balance calls).traces.length
      ((logEnabled topoId e).addAll balance calls).traceDb .none
    have hle := length_traceDb_le topoId e balance calls
    obtain ⟨i, hi⟩ := List.mem_iff_getElem?.1 (List.mem_eraseDups.2 hq)
    rw [insertUnique, hkeep _ (by omega)]
    refine find_insertLeaf_crossing lt_iff_not_le
      (hholds.sorted.le_of_isChain lt_iff_not_le hchain fun r hr => hholds.key_mem hr) ?_
      ⟨(q, i), (hholds.entries q i).2 hi, rfl⟩ hqp hpq
    rintro r hr rfl
    exact hp (hholds.key_mem hr)
  obtain ⟨c, s, rfl⟩ := exists_ofAddresses p
  have hcreated : CreatedFor balance (logEnabled topoId e) (calls ++ [ofAddresses c s])
      (ofAddresses c s) ((logEnabled topoId e).addAll balance calls).traces.length :=
    ⟨calls, [], rfl, by rw [hadd], rfl⟩
  obtain ⟨t, ht, ht'⟩ := hreg.own _ [] (List.append_nil _).symm 0 c s 0 0 0 _ hcreated
  rw [addAll_concat, hadd] at ht ht'
  rw [onOwd_of_find_none hlost, ht] at ht'
  exact t.onOwd_ne 0 0 0 (Option.some.inj ht').symm

theorem Registers.of_append {calls calls' : List Ns3QuicAddressPair}
    (h : Registers balance d (calls ++ calls')) : Registers balance d calls where
  success before p behind hsplit :=
    h.success before p (behind ++ calls') (by rw [hsplit, List.append_assoc]; rfl)
  own before behind hsplit :=
    h.own before (behind ++ calls') (by rw [hsplit, List.append_assoc])
  others before behind hsplit :=
    h.others before (behind ++ calls') (by rw [hsplit, List.append_assoc])

theorem isChain_of_registers (calls : List Ns3QuicAddressPair)
    (h : Registers .none (logEnabled topoId e) calls) : IsChain (· ≤ ·) {p | p ∈ calls} := by
  induction calls using List.reverseRecOn with
  | nil => exact fun p hp => by cases hp
  | append_singleton calls p ih =>
    have hchain := ih h.of_append
    have hp : ∀ q ∈ calls, p ≤ q ∨ q ≤ p := by
      intro q hq
      by_contra hcross
      rw [not_or] at hcross
      exact not_registers_of_crossing topoId e .none hchain hq hcross.2 hcross.1 (fun _ _ => rfl) h
    have hset : {q | q ∈ calls ++ [p]} = Insert.insert p {q | q ∈ calls} := by
      ext q
      simp [or_comm]
    rw [hset]
    exact hchain.insert fun q hq _ => hp q hq

/-- The registry works, whatever the search tree, for the calls whose pairs are a chain
of the componentwise order: this is where `operator<` is a strict weak ordering (equal
pairs being the equivalent ones).  Two pairs in a row that are not comparable are enough
to break it in every tree that leaves two entries as they are. -/
theorem registers_iff (calls : List Ns3QuicAddressPair) :
    ((∀ balance, Registers balance (logEnabled topoId e) calls) ↔
      IsChain (· ≤ ·) {p | p ∈ calls}) ∧
    (StrictWeakOrderOn {p | p ∈ calls} Lt ∧
        (∀ a ∈ calls, ∀ b ∈ calls, ¬ Lt a b ∧ ¬ Lt b a ↔ a = b) ↔
      IsChain (· ≤ ·) {p | p ∈ calls}) ∧
    ∀ balance : Rebalance Ns3QuicAddressPair Nat, balance.KeepsSmall →
      ∀ p q : Ns3QuicAddressPair, ¬ p ≤ q → ¬ q ≤ p →
        ¬ Registers balance (logEnabled topoId e) [p, q] := by
  refine ⟨⟨fun h => isChain_of_registers topoId e calls (h .none),
    fun h balance => registers_of_isChain topoId e balance calls h⟩, ⟨fun h => ?_, fun h => ?_⟩, ?_⟩
  · exact (lt_strictWeakOrderOn_iff _).1 h.1
  · exact ⟨(lt_strictWeakOrderOn_iff _).2 h, fun a _ b _ => incomparable_iff_eq a b⟩
  · intro balance hkeep p q hpq hqp
    have hchain : IsChain (· ≤ ·) {r | r ∈ [p]} := by
      simp
    exact not_registers_of_crossing topoId e balance hchain List.mem_cons_self hpq hqp hkeep

/-- Two flows, the second from a higher client address to a lower server address. -/
theorem registers_two_flows :
    Lt ⟨1, 4, 5000, 443⟩ ⟨2, 3, 5000, 443⟩ ∧ Lt ⟨2, 3, 5000, 443⟩ ⟨1, 4, 5000, 443⟩ ∧
      ¬ Registers .none (logEnabled "topo" 15) [⟨1, 4, 5000, 443⟩, ⟨2, 3, 5000, 443⟩] := by
  refine ⟨by decide, by decide, ?_⟩
  have hchain : IsChain (· ≤ ·) {r | r ∈ [(⟨1, 4, 5000, 443⟩ : Ns3QuicAddressPair)]} := by
    simp
  exact not_registers_of_crossing "topo" 15 .none hchain List.mem_cons_self (by decide) (by decide)
    fun _ _ => rfl

-- the second flow is not found: it is registered once more
example :
    ((addAll .none (logEnabled "topo" 15)
      [⟨1, 4, 5000, 443⟩, ⟨2, 3, 5000, 443⟩]).addMonitorAddressPair
        .none ⟨2, 3, 5000, 443⟩).2 = true := by decide

end Ns3QuicServerTraceDispatcher

end InNetworkAgg
