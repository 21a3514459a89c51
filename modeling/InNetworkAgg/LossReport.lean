import InNetworkAgg.QuicFlow

/-!
# What the traces report of a run (ns3-quic-trace.cc)

    reported + (sent behind the largest number) = not read + overtaken      (loss_report)

A packet that comes late stays counted as lost, and what is lost at the end of a
run is not counted at all.  The end is the first server that stops: it deletes the
traces of all servers, while the others go on reading.
-/

namespace InNetworkAgg

open Ns3QuicAddressPair Overtaking PartialRun TraceState

namespace LossReport

variable (peer : InetSocketAddress → InetSocketAddress)

/-! ## The traces of the pairs -/

/-- Before a server stops the registry is as it was set up, and each trace was handed what was
read for its pair. -/
structure Kept (e : UInt8) (calls : List Ns3QuicAddressPair)
    (d : Ns3QuicServerTraceDispatcher) (s : Net) : Prop where
  traceDb : s.dispatcher.traceDb = d.traceDb
  stopped : ∀ server, s.stopped server = false
  deleted : s.deleted = []
  traces : ∀ (i : Nat) p, calls.eraseDups[i]? = some p → ∃ t : Ns3QuicServerTrace,
    s.dispatcher.traces[i]? = some t ∧ t.e = e ∧ t.owds = (s.receipts p).map Receipt.handed

/-- After a server has stopped nothing is monitored, and the deleted traces are not touched. -/
structure Closed (traces : List Ns3QuicServerTrace) (deleted : List Nat) (s : Net) : Prop where
  traceDb : s.dispatcher.traceDb = .leaf
  traces : s.dispatcher.traces = traces
  deleted : s.deleted = deleted

theorem Closed.step {traces : List Ns3QuicServerTrace} {deleted : List Nat} {s t : Net}
    {ev : Event} (h : Closed traces deleted s) (hstep : step peer s ev = some t) :
    Closed traces deleted t := by
  obtain ⟨-, -, hread | ⟨server, -, rfl⟩⟩ := step_cases peer hstep
  · have hdeleted := hread.deleted.trans h.deleted
    rcases hread.handed with ⟨hd', -⟩ | ⟨c, server, r, hd', -⟩
    · exact ⟨by rw [hd', h.traceDb], by rw [hd', h.traces], hdeleted⟩
    · have hfind : s.dispatcher.traceDb.find Lt (ofAddresses c server) = none := by
        rw [h.traceDb]
        rfl
      refine ⟨?_, ?_, hdeleted⟩
      · rw [hd', Ns3QuicServerTraceDispatcher.traceDb_onOwd, h.traceDb]
      · rw [hd', Ns3QuicServerTraceDispatcher.onOwd_of_find_none hfind, h.traces]
  · unfold Net.stopApplication
    split
    · exact h
    · refine ⟨rfl, h.traces, ?_⟩
      dsimp only
      rw [h.deleted, h.traceDb]
      exact List.append_nil deleted

section
open Ns3QuicServerTraceDispatcher
variable {topoId : String} {e : UInt8} {calls : List Ns3QuicAddressPair}
  {d : Ns3QuicServerTraceDispatcher} (hd : Holds topoId e calls d)

include hd

theorem kept_init (start : Nat) : Kept e calls d (init start d) where
  traceDb := rfl
  stopped _ := rfl
  deleted := rfl
  traces i p hi := by
    refine ⟨Ns3QuicServerTrace.new (topoId ++ "_" ++ p.toName) e, ?_, rfl, rfl⟩
    show d.traces[i]? = _
    rw [hd.traces, List.getElem?_map, hi]
    rfl

/-- `OnOwd` goes to the trace of the pair, and to no other. -/
theorem Kept.getElem?_onOwd {s : Net} (h : Kept e calls d s)
    (hchain : IsChain (· ≤ ·) {p | p ∈ calls}) (c server : InetSocketAddress) (r : Receipt)
    {i : Nat} {p : Ns3QuicAddressPair} {t : Ns3QuicServerTrace}
    (hi : calls.eraseDups[i]? = some p) (ht : s.dispatcher.traces[i]? = some t) :
    (s.dispatcher.onOwd r.now c server r.seq r.owd r.len).traces[i]? =
      some (if ofAddresses c server = p then t.onOwd r.seq r.owd r.len else t) := by
  by_cases hp : ofAddresses c server = p
  · subst hp
    have hfind := hd.find_of_getElem? hchain hi
    rw [← h.traceDb] at hfind
    rw [onOwd_of_find hfind, List.getElem?_modify_eq, ht, if_pos rfl]
    rfl
  · rw [if_neg hp]
    cases hfind : s.dispatcher.traceDb.find Lt (ofAddresses c server) with
    | none => rw [onOwd_of_find_none hfind, ht]
    | some entry =>
      -- the entry of another pair has another trace
      have hother : entry.2 ≠ i := by
        rintro rfl
        rw [h.traceDb] at hfind
        exact hp (Option.some.inj ((hd.of_find hfind).2.symm.trans hi))
      rw [onOwd_of_find hfind, List.getElem?_modify_ne _ _ hother, ht]

/-- One call of the dispatcher's `OnOwd`. -/
theorem Kept.onOwd {s : Net} (h : Kept e calls d s) (hchain : IsChain (· ≤ ·) {p | p ∈ calls})
    (c server : InetSocketAddress) (r : Receipt) :
    Kept e calls d { s with
      dispatcher := s.dispatcher.onOwd r.now c server r.seq r.owd r.len
      reads := s.reads ++ [(ofAddresses c server, r)] } where
  traceDb := (traceDb_onOwd ..).trans h.traceDb
  stopped := h.stopped
  deleted := h.deleted
  traces i p hi := by
    obtain ⟨t, ht, he, howds⟩ := h.traces i p hi
    refine ⟨_, h.getElem?_onOwd hd hchain c server r hi ht, ?_⟩
    rw [receipts_concat]
    by_cases hp : ofAddresses c server = p
    · rw [if_pos hp, if_pos hp, List.map_append, ← howds]
      exact ⟨he, rfl⟩
    · rw [if_neg hp, if_neg hp, List.append_nil]
      exact ⟨he, howds⟩

theorem Kept.step {s t : Net} {ev : Event} (h : Kept e calls d s)
    (hchain : IsChain (· ≤ ·) {p | p ∈ calls}) (hev : ev.isStop = false)
    (hstep : step peer s ev = some t) : Kept e calls d t := by
  obtain ⟨-, -, hread | ⟨server, rfl, -⟩⟩ := step_cases peer hstep
  · have hstopped : ∀ server, t.stopped server = false := fun server => by
      rw [hread.stopped]
      exact h.stopped server
    have hdeleted : t.deleted = [] := hread.deleted.trans h.deleted
    rcases hread.handed with ⟨hd', hreads⟩ | ⟨c, server, r, hd', hreads⟩
    · refine ⟨by rw [hd', h.traceDb], hstopped, hdeleted, fun i p hi => ?_⟩
      obtain ⟨tr, htr⟩ := h.traces i p hi
      rw [hd', Net.receipts, hreads]
      exact ⟨tr, htr⟩
    · have hnew := h.onOwd hd hchain c server r
      refine ⟨by rw [hd', hnew.traceDb], hstopped, hdeleted, fun i p hi => ?_⟩
      obtain ⟨tr, htr⟩ := hnew.traces i p hi
      rw [hd', Net.receipts, hreads]
      exact ⟨tr, htr⟩
  · cases hev

omit hd in
/-- The first server stops. -/
theorem Kept.stop {s : Net} (h : Kept e calls d s) (server : InetSocketAddress) :
    Closed s.dispatcher.traces (d.traceDb.toList.map Prod.snd) (s.stopApplication server) := by
  unfold Net.stopApplication
  rw [if_neg (by rw [h.stopped]; decide)]
  refine ⟨rfl, rfl, ?_⟩
  dsimp only
  rw [h.deleted, h.traceDb, List.nil_append]

/-- From the first stop on, the traces stay as they are, and all of them are deleted. -/
theorem Kept.later {u s : Net} (h : Kept e calls d u) {later : List Event}
    (hfirst : ∀ ev ∈ later.head?, ev.isStop = true)
    (hs : runs (LossReport.step peer) u later = some s) :
    s.dispatcher.traces = u.dispatcher.traces ∧
      ∀ i p, calls.eraseDups[i]? = some p → (i ∈ s.deleted ↔ later ≠ []) := by
  cases later with
  | nil =>
    cases hs
    refine ⟨rfl, fun i p _ => ?_⟩
    rw [h.deleted]
    simp
  | cons ev later =>
    obtain ⟨server, rfl⟩ : ∃ server, ev = .stops server := by
      have hstop := hfirst ev rfl
      cases ev <;> first | exact ⟨_, rfl⟩ | cases hstop
    rw [runs_cons] at hs
    have hclosed := runs_invariant (fun _ _ _ hclosed hstep => hclosed.step peer hstep)
      (h.stop server) hs
    refine ⟨hclosed.traces, fun i p hi => ?_⟩
    rw [hclosed.deleted]
    have hmem : i ∈ d.traceDb.toList.map Prod.snd :=
      List.mem_map.2 ⟨(p, i), (hd.entries p i).2 hi, rfl⟩
    exact iff_of_true hmem (List.cons_ne_nil _ _)

end

/-! ## The reports -/

theorem inv_init {start : Nat} (hpos : 0 < milliseconds start) (hlt : milliseconds start < 2 ^ 31)
    (d : Ns3QuicServerTraceDispatcher) : Inv peer (init start d) where
  started := hpos
  clock := hlt
  seq _ := rfl
  count _ := Nat.two_pow_pos 31
  times _ _ ht := absurd ht List.not_mem_nil
  packets _ hp := absurd hp List.not_mem_nil
  numbers _ := List.Perm.refl _
  delays _ _ hr := absurd hr List.not_mem_nil

theorem mem_numbersTo {k : Nat} {x : Int} (hx : x ∈ numbersTo k) : 0 < x ∧ x ≤ k := by
  obtain ⟨n, hn, rfl⟩ := List.mem_map.1 hx
  have := List.mem_range.1 hn
  omega

theorem nodup_numbersTo (k : Nat) : (numbersTo k).Nodup :=
  List.nodup_range.map fun a b hab => by omega

/-- What the trace of a client's pair says in the end. -/
structure Reports (interval : Nat) (s : Net) (c : InetSocketAddress) (t : Ns3QuicServerTrace) :
    Prop where
  /-- the trace was handed what was read of this client -/
  handed : t.owds = (s.receipts (pairOf peer c)).map Receipt.handed
  /-- the count of the lost packets, and no counter is out of its range -/
  lost : ∃ lost largest : Int,
    ((run t.e interval (s.receipts (pairOf peer c))).destroy interval).lost = [(lost, largest)] ∧
    lost + ((s.sentAt c).length - largest) =
      (s.unread c).length + late ((s.receipts (pairOf peer c)).map Receipt.seq) ∧
    0 ≤ lost ∧ lost ≤ largest ∧ largest ≤ (s.sentAt c).length ∧ largest < 2 ^ 31
  /-- each packet with its number, and the milliseconds since it was sent -/
  delays : ∀ r ∈ s.receipts (pairOf peer c), ∃ n t : Nat, (s.sentAt c)[n]? = some t ∧
    r.seq = n + 1 ∧ t ≤ r.now ∧ r.owd = milliseconds r.now - milliseconds t

theorem Inv.reports {peer : InetSocketAddress → InetSocketAddress} {s : Net} (h : Inv peer s)
    (interval : Nat) {c : InetSocketAddress} {t : Ns3QuicServerTrace}
    (howds : t.owds = (s.receipts (pairOf peer c)).map Receipt.handed)
    (hlost : t.e &&& eQsLost ≠ 0) : Reports peer interval s c t := by
  have hperm := h.numbers c
  have hmem : ∀ x ∈ (s.receipts (pairOf peer c)).map Receipt.seq,
      0 < x ∧ x ≤ (s.sentAt c).length := fun x hx =>
    mem_numbersTo (hperm.mem_iff.1 (List.mem_append_left _ hx))
  have hnodup : ((s.receipts (pairOf peer c)).map Receipt.seq).Nodup :=
    (List.nodup_append.1 (hperm.nodup_iff.2 (nodup_numbersTo _))).1
  have hnonneg : ∀ x ∈ (s.receipts (pairOf peer c)).map Receipt.seq, 0 ≤ x := fun x hx =>
    Int.le_of_lt (hmem x hx).1
  have hlen := hperm.length_eq
  have hgaps := gaps_add_length hnonneg
  have htop : top 0 ((s.receipts (pairOf peer c)).map Receipt.seq) ≤ (s.sentAt c).length := by
    rcases top_eq_or_mem 0 ((s.receipts (pairOf peer c)).map Receipt.seq) with h0 | hmax
    · rw [h0]
      omega
    · exact (hmem _ hmax).2
  have hcount := h.count c
  simp only [numbersTo, List.length_append, List.length_map, List.length_range] at hlen hgaps
  refine ⟨howds, ⟨_, _, lost_destroy t.e interval _ hlost, ?_, ?_, ?_, htop, ?_⟩, h.delays c⟩
  · omega
  · exact gaps_nonneg (fun x hx => (hmem x hx).1) hnodup
  · exact gaps_le_top hnonneg
  · omega

/-- **What is reported of a run.**  In every run of some clients and servers that share a
dispatcher nothing fails, and each pair that is monitored has a trace of its own.  It says
what had been read when the first server stopped, which deletes all traces; until then its
count of lost packets is off by the packets that were overtaken, which are counted although
they were read, and by those behind the last number that was read, which are not counted. -/
theorem loss_report (topoId : String) (e : UInt8) (hlost : e &&& eQsLost ≠ 0)
    (balance : SearchTree.Rebalance Ns3QuicAddressPair Nat) (calls : List Ns3QuicAddressPair)
    (hchain : IsChain (· ≤ ·) {p | p ∈ calls}) (start interval : Nat)
    (hstart : 0 < milliseconds start) (events : List Event) (hwithin : Within start events) :
    let net := init start ((Ns3QuicServerTraceDispatcher.logEnabled topoId e).addAll balance calls)
    ∃ u s, runs (step peer) net (events.takeWhile fun ev => !ev.isStop) = some u ∧
      runs (step peer) net events = some s ∧
      ∀ c, pairOf peer c ∈ calls → ∃ i t,
        Ns3QuicServerTraceDispatcher.CreatedFor balance
          (Ns3QuicServerTraceDispatcher.logEnabled topoId e) calls (pairOf peer c) i ∧
        s.dispatcher.traces[i]? = some t ∧ Reports peer interval u c t ∧
        (i ∈ s.deleted ↔ ∃ ev ∈ events, ev.isStop = true) := by
  intro net
  have hd := Ns3QuicServerTraceDispatcher.holds_addAll topoId e balance calls hchain
  have hinit : Inv peer net := inv_init peer hstart (Nat.lt_of_le_of_lt
    (Nat.div_le_div_right (Nat.le_add_right start _)) hwithin.clock) _
  have hguarded : Guarded (step peer) Limits net events :=
    guarded_of_within peer hinit hwithin.clock hwithin.sizes fun c => by
      show 0 + _ < 2 ^ 31
      rw [Nat.zero_add]
      exact hwithin.count c
  -- up to the first stop, and from there
  have hsplit := List.takeWhile_append_dropWhile (p := fun ev : Event => !ev.isStop) (l := events)
  rw [← hsplit] at hguarded
  obtain ⟨u, hu, hinv⟩ := guarded_total (fun s ev hs hev => Inv.step hs hev) _ net hinit
    hguarded.of_append
  obtain ⟨s, hs, -⟩ := guarded_total (fun s ev hs hev => Inv.step hs hev) _ net hinit hguarded
  rw [hsplit] at hs
  have hkept := guarded_invariant (fun s ev t hk hev hstep => hk.step peer hd hchain hev hstep) _
    net u (kept_init hd start) (guarded_of_forall (P := fun ev => ev.isStop = false)
      (fun ev hev => by simpa using List.mem_takeWhile_imp hev) net) hu
  have hrest : runs (step peer) u (events.dropWhile fun ev => !ev.isStop) = some s := by
    rw [← hsplit, runs_append, hu] at hs
    exact hs
  have hfirst : ∀ ev ∈ (events.dropWhile fun ev => !ev.isStop).head?, ev.isStop = true := by
    intro ev hev
    have hhead := List.head?_dropWhile_not (fun ev : Event => !ev.isStop) events
    rw [Option.mem_def.1 hev] at hhead
    simpa using hhead
  obtain ⟨htraces, hdeleted⟩ := hkept.later peer hd hfirst hrest
  have hstops : (events.dropWhile fun ev => !ev.isStop) ≠ [] ↔ ∃ ev ∈ events, ev.isStop = true := by
    rw [ne_eq, List.dropWhile_eq_nil_iff]
    simp
  refine ⟨u, s, hu, hs, fun c hc => ?_⟩
  obtain ⟨i, hi⟩ := List.mem_iff_getElem?.1 (List.mem_eraseDups.2 hc)
  obtain ⟨t, ht, he, howds⟩ := hkept.traces i _ hi
  exact ⟨i, t, (Ns3QuicServerTraceDispatcher.createdFor_iff topoId e balance hchain _ i).2 hi,
    by rw [htraces, ht], hinv.reports interval howds (by rw [he]; exact hlost),
    (hdeleted i _ hi).trans hstops⟩

/-- A client on the first host, its server on the second. -/
def client : InetSocketAddress := { ipv4 := 0x0a000001, port := 9000 }

def server : InetSocketAddress := { ipv4 := 0x0a000002, port := 1234 }

/-- Four packets: the first and the last are lost, the third overtakes the second.  The server
stops before a fifth one comes. -/
def overtaking : List Event :=
  [.starts server, .sends client 1200, .sends client 1200, .passes 1000000, .sends client 1200,
    .sends client 1200, .drops 0, .passes 2000000, .arrives 1, .arrives 0, .drops 0, .stops server,
    .sends client 1200, .arrives 0]

theorem loss_report_overtaking :
    let net := init 1000000 ((Ns3QuicServerTraceDispatcher.logEnabled "1" 7).addAll .none
      [pairOf (fun _ => server) client])
    ∃ u s, runs (step fun _ => server) net (overtaking.takeWhile fun ev => !ev.isStop) = some u ∧
      runs (step fun _ => server) net overtaking = some s ∧
      ∀ c, pairOf (fun _ => server) c ∈ [pairOf (fun _ => server) client] → ∃ i t,
        Ns3QuicServerTraceDispatcher.CreatedFor .none
          (Ns3QuicServerTraceDispatcher.logEnabled "1" 7) [pairOf (fun _ => server) client]
          (pairOf (fun _ => server) c) i ∧
        s.dispatcher.traces[i]? = some t ∧ Reports (fun _ => server) 1000000000 u c t ∧
        (i ∈ s.deleted ↔ ∃ ev ∈ overtaking, ev.isStop = true) :=
  loss_report (fun _ => server) "1" 7 (by decide) .none [pairOf (fun _ => server) client] (by simp)
    1000000 1000000000 (by decide) overtaking
    ⟨by decide, by decide, fun _ => Nat.lt_of_le_of_lt List.countP_le_length (by decide)⟩

end LossReport

end InNetworkAgg
