import InNetworkAgg.Layout
import InNetworkAgg.Polls

/-!
# A start in time

When on every edge there is more time than the longest delay, then no poll meets a
socket without a channel: the invariant (`Good`) and what every event keeps of it
(`Good.step`).

A node that hears its first request asks its own children in the same poll, so
the time on an edge goes from the parent's first poll, or the consumer's `AVG`,
to the child's first poll.
-/

namespace InNetworkAgg

open Outcome PartialRun RoseTree World

namespace Startup

/-- There is time for the first requests to arrive, and for the handshakes before them. -/
structure Timely (sc : Scenario) (P : Plan) : Prop extends Laid sc P.tree where
  env : sc.env = P.env
  rounds : 0 < P.rounds
  lead : ∀ p c, c ∈ P.tree.kids p → sc.asks p + sc.net.longest < sc.asks c
  ready : ∀ p c, c ∈ P.tree.kids p →
    max (sc.startAt p) (sc.startAt c) + sc.net.handshake < sc.asks p

/-- No poll has met a socket without a channel, and what should have arrived has. -/
structure Good (sc : Scenario) (P : Plan) (w₀ : World) (s : Simulation) : Prop where
  ok : ∃ ρ, Ok P ρ s.world
  reach : Reachable (World.exec P.env) w₀ s.world
  stamps : ∀ a b, (s.sentAt a b).length = (s.world.link a b).chan.inflight.length
  fresh : ∀ p c, c ∈ P.tree.kids p → ∀ t ∈ s.sentAt p c, s.now ≤ t + sc.net.longest
  client : ∀ p c, c ∈ P.tree.kids p → s.channel p c = false →
    s.now ≤ max (sc.startAt p) (sc.startAt c) + sc.net.handshake
  server : ∀ p c, c ∈ P.tree.kids p → s.channel c p = false →
    s.world.requests c = 0 ∧ (s.world.link p c).chan.ring.size = 0
  average : s.average = if s.world.started then none else some (sc.times .con).average
  ahead : ∀ t ∈ s.average, s.now ≤ t
  polls : ∀ a ∈ sc.nodes, ∀ t ∈ s.nextPoll a, s.now ≤ t
  late : ∀ a, ∀ t ∈ s.nextPoll a, sc.asks a ≤ t
  first : ∀ p c, c ∈ P.tree.kids p →
    s.nextPoll c = some (sc.asks c) ∨ 0 < s.world.requests c
  early : ∀ p c, c ∈ P.tree.kids p → s.world.requests c = 0 → ∀ t ∈ s.sentAt p c, t ≤ sc.asks p

section
variable {sc : Scenario} {P : Plan} {w₀ : World} {s : Simulation}

/-- A node whose time is over has asked its children. -/
theorem Good.asked (h : Good sc P w₀ s) (hsc : Timely sc P) {ρ : Rounds.State Address}
    (hok : Ok P ρ s.world) {p c : Address} (hc : c ∈ P.tree.kids p) (hlt : sc.asks p < s.now) :
    0 < ρ.asked p := by
  rcases hsc.parent p (List.ne_nil_of_mem hc) with rfl | ⟨q, hq⟩
  · have hstarted : s.world.started = true := by
      by_contra hno
      have hav := h.average
      rw [if_neg hno] at hav
      have := h.ahead _ hav
      rw [hsc.root] at hlt
      omega
    have hroot := hok.inv.root
    rw [← hok.sim.started, hstarted, if_pos rfl] at hroot
    have := hsc.rounds
    omega
  · rw [← hok.sim.requests q p hq]
    refine (h.first q p hq).resolve_left fun hnext => ?_
    have := h.polls p (hsc.nodes q p hq).2 _ hnext
    omega

/-- The first request has arrived in time. -/
theorem Good.arrived (h : Good sc P w₀ s) (hsc : Timely sc P) {p c : Address}
    (hc : c ∈ P.tree.kids p) (hzero : s.world.requests c = 0)
    (hlt : sc.asks p + sc.net.longest < s.now) :
    (s.world.link p c).sent ≠ [] ∧ (s.world.link p c).chan.inflight = [] := by
  obtain ⟨ρ, hok⟩ := h.ok
  have hasked := h.asked hsc hok hc (by omega)
  constructor
  · rw [(hok.sim.down p c hc).sent]
    simpa using Nat.ne_of_gt hasked
  · rw [← List.length_eq_zero_iff, ← h.stamps, List.length_eq_zero_iff,
      List.eq_nil_iff_forall_not_mem]
    intro t ht
    have hearly := h.early p c hc hzero t ht
    have hfresh := h.fresh p c hc t ht
    omega

/-- When a node polls, all its sockets have their channels. -/
theorem Good.channel (h : Good sc P w₀ s) (hsc : Timely sc P) {a peer : Address}
    (hpoll : s.nextPoll a = some s.now) (hl : P.Linked peer a) : s.channel a peer = true := by
  by_contra hno
  have hno : s.channel a peer = false := Bool.eq_false_iff.2 hno
  have hlate := h.late a _ hpoll
  rcases hl with hparent | hchild
  · obtain ⟨hzero, hsize⟩ := h.server peer a hparent hno
    have hnext := (h.first peer a hparent).resolve_right (by omega)
    have hnow : s.now = sc.asks a := Option.some.inj (hpoll.symm.trans hnext)
    have hlead := hsc.lead peer a hparent
    obtain ⟨hsent, hinflight⟩ := h.arrived hsc hparent hzero (by omega)
    -- the request is neither on the way nor in the ring nor handled
    obtain ⟨ρ, hok⟩ := h.ok
    have hdown := hok.sim.down peer a hparent
    have hbytes := (hok.flows peer a (.inl hparent)).bytes
    rw [hdown.pending, ← hok.sim.requests peer a hparent, hzero, hinflight, List.append_nil]
      at hbytes
    have hlen := congrArg List.length hbytes
    rw [CircularBuffer.length_contents, hsize, List.length_flatten, List.map_replicate,
      List.sum_replicate, length_requestMessage, smul_eq_mul] at hlen
    have hzero' : ρ.asked peer = 0 := by omega
    rw [hdown.sent, hzero'] at hsent
    exact hsent rfl
  · have hclient := h.client a peer hchild hno
    have hready := hsc.ready a peer hchild
    omega

theorem Good.init (hsc : Laid sc P.tree) (garbage : Address → Nat)
    (heap : Address → Address → Nat → UInt8) (hok : ∃ ρ, Ok P ρ (sc.init garbage heap).world) :
    Good sc P (sc.init garbage heap).world (sc.init garbage heap) where
  ok := hok
  reach := .refl _ _
  stamps _ _ := rfl
  fresh _ _ _ _ ht := absurd ht List.not_mem_nil
  client _ _ _ _ := Nat.zero_le _
  server _ _ _ _ := ⟨rfl, rfl⟩
  average := rfl
  ahead _ _ := Nat.zero_le _
  polls _ _ _ _ := Nat.zero_le _
  late := hsc.poll_ge
  first p c hc := .inl (hsc.poll p c hc)
  early _ _ _ _ _ ht := absurd ht List.not_mem_nil

/-! ## Events -/

theorem Good.wait (h : Good sc P w₀ s) (hsc : Timely sc P) {d : Nat}
    (hen : Enabled sc s (.wait d)) : Good sc P w₀ { s with now := s.now + d } where
  ok := h.ok
  reach := h.reach
  stamps := h.stamps
  fresh p c hc t ht :=
    (hen.2.2 p (hsc.nodes p c hc).1).2.1 c (hsc.nodes p c hc).2 t ht
  client p c hc hno :=
    (hen.2.2 p (hsc.nodes p c hc).1).2.2 c (by rw [hsc.clients]; exact hc) hno
  server := h.server
  average := h.average
  ahead := hen.1
  polls a ha := (hen.2.2 a ha).1
  late := h.late
  first := h.first
  early := h.early

theorem Good.ready (h : Good sc P w₀ s) (a peer : Address) : Good sc P w₀ (s.open a peer) :=
  ⟨h.ok, h.reach, h.stamps, h.fresh, fun p c hc hno => h.client p c hc (open_closed hno).2,
    fun p c hc hno => h.server p c hc (open_closed hno).2, h.average, h.ahead, h.polls, h.late,
    h.first, h.early⟩

/-- Bytes arrive, or a packet of which nothing can be read yet. -/
structure Arrived (w w' : World) (src dst : Address) (n : Nat) : Prop where
  node : w'.node = w.node
  stops : w'.stops = w.stops
  requests : w'.requests = w.requests
  started : w'.started = w.started
  other : ∀ x y, ¬(x = src ∧ y = dst) → w'.link x y = w.link x y
  inflight : (w'.link src dst).chan.inflight = (w.link src dst).chan.inflight.drop n
  sent : (w'.link src dst).sent = (w.link src dst).sent
  handled : (w'.link src dst).handled = (w.link src dst).handled

theorem Arrived.of_exec {env : Env} {w w' : World} {src dst : Address} {n : Nat}
    (hw : (if n = 0 then some w else w.exec env (.deliver src dst n)) = some w') :
    Arrived w w' src dst n := by
  split at hw
  · rename_i hn
    cases hw
    exact ⟨rfl, rfl, rfl, rfl, fun _ _ _ => rfl, by rw [hn, List.drop_zero], rfl, rfl⟩
  · obtain ⟨chan, hchan, rfl⟩ := Option.map_eq_some_iff.1 hw
    refine ⟨rfl, rfl, rfl, rfl, fun x y hxy => setLink_of_ne _ _ _ _ hxy, ?_, ?_, ?_⟩
    · rw [setLink_self]
      unfold Channel.onCanRead at hchan
      split at hchan
      · obtain ⟨ring, -, rfl⟩ := Option.map_eq_some_iff.1 hchan
        rfl
      · cases hchan
    · rw [setLink_self]
    · rw [setLink_self]

theorem Good.arrived_with (h : Good sc P w₀ s) {src dst : Address} {n : Nat} {w : World}
    (harr : Arrived s.world w src dst n) (hok : ∃ ρ, Ok P ρ w)
    (hreach : Reachable (World.exec P.env) w₀ w) {channel : Address → Address → Bool}
    (hclient : ∀ p c, c ∈ P.tree.kids p → channel p c = false → s.channel p c = false)
    (hserver : ∀ p c, c ∈ P.tree.kids p → channel c p = false →
      s.channel c p = false ∧ ¬(p = src ∧ c = dst)) :
    Good sc P w₀ { s.arrived src dst n w with channel := channel } := by
  refine ⟨hok, hreach, fun a b => ?_, fun p c hc t ht => ?_,
    fun p c hc hno => h.client p c hc (hclient p c hc hno), fun p c hc hno => ?_, ?_, h.ahead,
    h.polls, h.late, fun p c hc => ?_, fun p c hc hzero t ht => ?_⟩
  · show ((s.arrived src dst n w).sentAt a b).length = (w.link a b).chan.inflight.length
    by_cases hab : a = src ∧ b = dst
    · obtain ⟨rfl, rfl⟩ := hab
      rw [arrived_self, harr.inflight, List.length_drop, List.length_drop, h.stamps]
    · rw [arrived_of_ne s src dst n w hab, harr.other a b hab, h.stamps]
  · exact h.fresh p c hc t (mem_arrived s src dst n w ht)
  · obtain ⟨hno, hne⟩ := hserver p c hc hno
    show w.requests c = 0 ∧ (w.link p c).chan.ring.size = 0
    rw [harr.requests, harr.other p c hne]
    exact h.server p c hc hno
  · show s.average = if w.started then none else some (sc.times .con).average
    rw [harr.started]
    exact h.average
  · show s.nextPoll c = some (sc.asks c) ∨ 0 < w.requests c
    rw [harr.requests]
    exact h.first p c hc
  · have hzero : w.requests c = 0 := hzero
    rw [harr.requests] at hzero
    exact h.early p c hc hzero t (mem_arrived s src dst n w ht)

theorem Good.arrives (h : Good sc P w₀ s) (hsc : Timely sc P) {src dst : Address} {n : Nat} :
    Ends (Good sc P w₀) (· ≠ .nullPointer) (step sc s (.arrives src dst n)) := by
  unfold step
  dsimp only
  cases hw : if n = 0 then some s.world else s.world.exec sc.env (.deliver src dst n) with
  | none =>
    intro hnull
    cases hnull
  | some w =>
    have harr := Arrived.of_exec hw
    obtain ⟨ρ, hok⟩ := h.ok
    have hstep : (∃ ρ', Ok P ρ' w) ∧ Reachable (World.exec P.env) w₀ w := by
      rw [hsc.env] at hw
      split at hw
      · cases hw
        exact ⟨⟨ρ, hok⟩, h.reach⟩
      · exact ⟨hok.exec hw, h.reach.trans (.step hw)⟩
    show Good sc P w₀ (if src ∈ sc.servers dst then (s.arrived src dst n w).open dst src
      else s.arrived src dst n w)
    split
    · exact h.arrived_with harr hstep.1 hstep.2 (fun p c _ hno => (open_closed hno).2)
        fun p c _ hno => ⟨(open_closed hno).2, fun hpc => (open_closed hno).1 ⟨hpc.2, hpc.1⟩⟩
    · rename_i hserver
      refine h.arrived_with harr hstep.1 hstep.2 (fun p c _ hno => hno) fun p c hc hno => ⟨hno, ?_⟩
      rintro ⟨rfl, rfl⟩
      exact hserver ((hsc.servers c p).2 hc)

/-- Node `a` has done something that takes no time. -/
theorem Good.sent (h : Good sc P w₀ s) {a : Address} {peers : List Address} (w₁ : World)
    {w : World} {average : Option Nat} {nextPoll : Address → Option Nat}
    (hlink : w₁.link = s.world.link) (hrequests : w₁.requests = s.world.requests)
    (hframe : Frame a peers w₁ w)
    (hok : ∃ ρ, Ok P ρ w) (hreach : Reachable (World.exec P.env) w₀ w)
    (hparent : ∀ p, a ∈ P.tree.kids p → s.channel a p = true)
    (htime : ∀ c, c ∈ P.tree.kids a → w.requests c = 0 →
      (s.world.link a c).chan.inflight.length < (w.link a c).chan.inflight.length →
        s.now ≤ sc.asks a)
    (haverage : average = if w.started then none else some (sc.times .con).average)
    (hahead : ∀ t ∈ average, s.now ≤ t) (hpolls : ∀ b ∈ sc.nodes, ∀ t ∈ nextPoll b, s.now ≤ t)
    (hlate : ∀ b, ∀ t ∈ nextPoll b, sc.asks b ≤ t)
    (hfirst : ∀ p c, c ∈ P.tree.kids p →
      nextPoll c = some (sc.asks c) ∨ 0 < w.requests c) :
    Good sc P w₀ { s.sent a w with average := average, nextPoll := nextPoll } := by
  refine ⟨hok, hreach, fun x y => ?_, fun p c hc t ht => ?_, h.client, fun p c hc hno => ?_,
    haverage, hahead, hpolls, hlate, hfirst, fun p c hc hzero t ht => ?_⟩
  · show ((s.sent a w).sentAt x y).length = (w.link x y).chan.inflight.length
    by_cases hx : x = a
    · subst hx
      have hle := hframe.inflight_le y
      rw [hlink] at hle
      rw [sent_self, List.length_append, List.length_replicate, h.stamps]
      omega
    · rw [sent_of_ne s a w hx, hframe.inflight x y hx, hlink, h.stamps]
  · have ht : t ∈ (s.sent a w).sentAt p c := ht
    show s.now ≤ t + sc.net.longest
    by_cases hp : p = a
    · subst hp
      rw [sent_self, List.mem_append] at ht
      rcases ht with ht | ht
      · exact h.fresh p c hc t ht
      · have := (List.mem_replicate.1 ht).2
        omega
    · rw [sent_of_ne s a w hp] at ht
      exact h.fresh p c hc t ht
  · have hno : s.channel c p = false := hno
    have hca : c ≠ a := by
      rintro rfl
      cases (hparent p hc).symm.trans hno
    show w.requests c = 0 ∧ (w.link p c).chan.ring.size = 0
    rw [hframe.requests c hca, hrequests, hframe.ring p c fun hpc => hca hpc.2, hlink]
    exact h.server p c hc hno
  · have ht : t ∈ (s.sent a w).sentAt p c := ht
    have hzero : w.requests c = 0 := hzero
    have hbefore : s.world.requests c = 0 := by
      by_cases hca : c = a
      · subst hca
        have := hframe.requests_le
        rw [hrequests] at this
        omega
      · rw [hframe.requests c hca, hrequests] at hzero
        exact hzero
    by_cases hp : p = a
    · subst hp
      rw [sent_self, List.mem_append] at ht
      rcases ht with ht | ht
      · exact h.early p c hc hbefore t ht
      · obtain ⟨hne, rfl⟩ := List.mem_replicate.1 ht
        exact htime c hc hzero (by omega)
    · rw [sent_of_ne s a w hp] at ht
      exact h.early p c hc hbefore t ht

theorem filter_goesOut (channel : Address → Bool) (rounds size : Nat) {cs : List Address}
    (h : ∀ c ∈ cs, channel c = true) :
    (startEffects rounds size cs).filter (goesOut channel) = startEffects rounds size cs := by
  refine List.filter_eq_self.2 fun e he => ?_
  cases e with
  | send toStr packet =>
    unfold startEffects at he
    rcases List.mem_append.1 he with he | he
    · split at he <;> simp at he
    · split at he
      · obtain ⟨c, hc, he⟩ := List.mem_map.1 ((List.mem_cons.1 he).resolve_left nofun)
        cases he
        exact h _ hc
      · cases he
  | answer avg => rfl
  | newRequest => rfl
  | stop => rfl

theorem Good.starts (h : Good sc P w₀ s) (hsc : Timely sc P) {past : UInt64}
    (hen : s.average = some s.now) :
    Ends (Good sc P w₀) (· ≠ .nullPointer) (step sc s (.average past)) := by
  obtain ⟨ρ, hok⟩ := h.ok
  have hav := h.average
  have hstarted : s.world.started = false := by
    by_contra hno
    rw [if_pos (Bool.eq_true_of_not_eq_false hno), hen] at hav
    cases hav
  rw [if_neg (by simp [hstarted]), hen, ← hsc.root] at hav
  have hnow : s.now = sc.asks P.tree.root := Option.some.inj hav
  have hchannel : ∀ c ∈ P.tree.kids P.tree.root, s.channel P.tree.root c = true := by
    intro c hc
    by_contra hno
    have hclient := h.client _ c hc (Bool.eq_false_iff.2 hno)
    have hready := hsc.ready _ c hc
    omega
  have hn := hok.sim.node P.tree.root
  have hs' : ρ.started = false := by rw [← hok.sim.started, hstarted]
  have hiter : (s.world.node P.tree.root).curIter = 0 := by
    rw [hn.curIter P.root_kids, (hok.inv.not_started hs' P.root_kids).2]
  have havg := doAVG_start past _ (hn.asEnd.2 ⟨rfl, hs'⟩) hiter (by rw [hn.cGroup]; exact P.width _)
  obtain ⟨ρ', w, hw, hok'⟩ := hok.start hstarted past
  have hexec := hw
  rw [exec, hstarted, if_neg Bool.false_ne_true, P.consumer_eq, havg, Option.map_some] at hexec
  obtain rfl := Option.some.inj hexec
  unfold step
  dsimp only
  rw [hsc.consumer, havg]
  dsimp only
  rw [filter_goesOut _ _ _ (by rw [hn.cGroup]; exact hchannel)]
  have hframe := (Frame.refl P.tree.root [] { s.world with started := true }).perform P.env
    ({ s.world.node P.tree.root with asEnd := false },
      startEffects (s.world.node P.tree.root).maxIteration
        (s.world.node P.tree.root).vsize (s.world.node P.tree.root).cGroup)
  rw [hsc.env]
  refine h.sent { s.world with started := true } rfl rfl hframe ⟨ρ', hok'⟩
    (h.reach.trans (.step hw)) (fun p hp => absurd hp (P.tree.root_not_kid p))
    (fun _ _ _ _ => hnow.le) ?_ (fun t ht => absurd ht (Option.not_mem_none t)) h.polls h.late
    fun p c hc => ?_
  · rw [hframe.started]
    rfl
  · rw [hframe.requests c fun hcr => P.tree.root_not_kid p (hcr ▸ hc)]
    exact h.first p c hc

/-- Requests a poll sends to a child that has heard none are the first, and sent in time. -/
theorem Good.in_time (h : Good sc P w₀ s) (hsc : Timely sc P) {a c : Address} {peers : List Address}
    {w : World} {ρ' : Rounds.State Address} (hok' : Ok P ρ' w) (hframe : Frame a peers s.world w)
    (hc : c ∈ P.tree.kids a) (hzero : w.requests c = 0)
    (hmore : (s.world.link a c).chan.inflight.length < (w.link a c).chan.inflight.length) :
    s.now ≤ sc.asks a := by
  by_contra hlate
  obtain ⟨ρ, hok⟩ := h.ok
  have hasked := h.asked hsc hok hc (by omega)
  have hca : c ≠ a := (P.parent_ne hc).symm
  have hbefore : s.world.requests c = 0 := (hframe.requests c hca).symm.trans hzero
  -- a request is one of at most `done c + 1`, and `c` has answered none
  have hedge := hok'.inv.edge a c hc
  have hone := hedge.asked_le_done
  have hdone := hedge.done_le
  have hheard := hedge.done_le_asked
  rw [← hok'.sim.requests a c hc, hzero] at hheard
  have hlen := congrArg List.length (hok.flows a c (.inl hc)).bytes
  have hlen' := congrArg List.length (hok'.flows a c (.inl hc)).bytes
  rw [(hok.sim.down a c hc).pending, ← hok.sim.requests a c hc, hbefore] at hlen
  rw [(hok'.sim.down a c hc).pending, ← hok'.sim.requests a c hc, hzero] at hlen'
  simp only [List.length_append, CircularBuffer.length_contents, List.length_flatten,
    List.map_replicate, List.sum_replicate, length_requestMessage, smul_eq_mul] at hlen hlen'
  rw [hframe.ring a c fun hac => hca hac.2] at hlen'
  omega

theorem Good.receives (h : Good sc P w₀ s) (hsc : Timely sc P) {a : Address} {order : List Address}
    {past : Address → Nat → UInt64} {heap : Address → Nat → Nat → UInt8}
    (hen : Enabled sc s (.receiveDataFromAll a order past heap)) :
    Ends (Good sc P w₀) (· ≠ .nullPointer) (step sc s (.receiveDataFromAll a order past heap)) := by
  obtain ⟨hnow, hperm⟩ := hen
  have hpeers : ∀ peer, peer ∈ order ↔ P.Linked peer a := by
    intro peer
    rw [hperm.mem_iff, List.mem_append, hsc.servers, hsc.clients]
    rfl
  have hchannel : ∀ peer ∈ order, s.channel a peer = true :=
    fun peer hpeer => h.channel hsc hnow ((hpeers peer).1 hpeer)
  obtain ⟨ρ, hok⟩ := h.ok
  obtain ⟨ρ', w, hw, hok'⟩ := polls_ok past heap order hok fun peer hpeer => (hpeers peer).1 hpeer
  have hframe : Frame a order s.world w := .polls order hw
  unfold step
  dsimp only
  rw [if_neg (by simpa using hchannel), hsc.env, hw]
  refine h.sent s.world rfl rfl hframe ⟨ρ', hok'⟩ (h.reach.trans ⟨_, hw⟩)
    (fun p hp => hchannel p ((hpeers p).2 (.inl hp)))
    (fun c hc hzero hmore => h.in_time hsc hok' hframe hc hzero hmore) ?_ h.ahead
    (fun b hb t ht => ?_) (fun b t ht => ?_) fun p c hc => ?_
  · rw [hframe.started]
    exact h.average
  · by_cases hba : b = a
    · subst hba
      rw [Function.update_self] at ht
      split at ht
      · cases ht
        exact Nat.le_add_right _ _
      · cases ht
    · rw [Function.update_of_ne hba] at ht
      exact h.polls b hb t ht
  · by_cases hba : b = a
    · subst hba
      rw [Function.update_self] at ht
      split at ht
      · cases ht
        exact Nat.le_trans (h.late b _ hnow) (Nat.le_add_right _ _)
      · cases ht
    · rw [Function.update_of_ne hba] at ht
      exact h.late b t ht
  · by_cases hca : c = a
    · subst hca
      refine .inr ?_
      rcases Nat.eq_zero_or_pos (s.world.requests c) with hzero | hpos
      · have hfirst := (h.first p c hc).resolve_right (by omega)
        have hasks : s.now = sc.asks c := Option.some.inj (hnow.symm.trans hfirst)
        have hlead := hsc.lead p c hc
        obtain ⟨hsent, hinflight⟩ := h.arrived hsc hc hzero (by omega)
        exact polls_hear hok hc hsent hinflight ((hpeers p).2 (.inl hc))
          (fun peer hpeer => (hpeers peer).1 hpeer) hw
      · exact Nat.lt_of_lt_of_le hpos hframe.requests_le
    · rw [Function.update_of_ne hca, hframe.requests c hca]
      exact h.first p c hc

theorem Good.step (h : Good sc P w₀ s) (hsc : Timely sc P) {e : Event} (hen : Enabled sc s e) :
    Ends (Good sc P w₀) (· ≠ .nullPointer) (step sc s e) := by
  cases e with
  | wait d => exact h.wait hsc hen
  | average past => exact h.starts hsc hen
  | receiveDataFromAll a order past heap => exact h.receives hsc hen
  | ready a peer => exact h.ready a peer
  | arrives src dst n => exact h.arrives hsc

end

end Startup

end InNetworkAgg
