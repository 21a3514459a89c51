import InNetworkAgg.FirstAverage
import InNetworkAgg.Requests
import InNetworkAgg.Responses

/-!
# Runs

A world that is related to a reachable state of the protocol, with its streams in
frame, stays so under every action (`Ok.exec`), and no handler fails an assertion
in it (`Ok.poll`, `Ok.start`).  So every run is a run of the protocol
(`Ok.runs`).
-/

namespace InNetworkAgg

open PartialRun SimpleMPI World Rounds

variable {P : Plan} {ρ : State Address} {w : World}

/-- The two nodes are connected. -/
def Plan.Linked (P : Plan) (a b : Address) : Prop := b ∈ P.tree.kids a ∨ a ∈ P.tree.kids b

/-- The lengths of the messages from `a` to `b` are multiples of this. -/
def Plan.grain (P : Plan) (a b : Address) : Nat := if b ∈ P.tree.kids a then 5 else 2

/-- The world follows the protocol, and its streams are in frame. -/
structure Ok (P : Plan) (ρ : State Address) (w : World) : Prop where
  reachable : Reachable P.step .init ρ
  sim : Sim P ρ w
  flows : ∀ a b, P.Linked a b → (w.link a b).Flows (P.grain a b)

theorem Ok.inv (h : Ok P ρ w) : Inv P.tree P.parts P.rounds ρ :=
  inv_of_reachable P.root_kids h.reachable

/-! ## Polls -/

/-- What is pending on a link: requests on the way down, chunks on the way up. -/
theorem Sim.mem_pending (h : Sim P ρ w) (hinv : Inv P.tree P.parts P.rounds ρ) {a b : Address}
    (hl : P.Linked a b) {msg : List UInt8} (hmsg : msg ∈ (w.link a b).pending) :
    (b ∈ P.tree.kids a ∧ msg = requestMessage P.size) ∨
      (a ∈ P.tree.kids b ∧ ∃ offset xs, xs.length ≤ k ∧ msg = chunkMessage offset xs) := by
  rcases hl with hb | ha
  · rw [(h.down a b hb).pending] at hmsg
    exact Or.inl ⟨hb, List.eq_of_mem_replicate hmsg⟩
  · rw [(h.up b a ha).pending (hinv.edge b a ha).taken_le] at hmsg
    obtain ⟨e, he', rfl⟩ := List.mem_map.1 hmsg
    obtain ⟨j, hj⟩ := List.mem_iff_getElem?.1 (List.mem_of_mem_drop he')
    obtain ⟨xs, -, rfl, hxs, -⟩ := h.part ha hj
    exact Or.inr ⟨ha, _, xs, hxs, rfl⟩

/-- The messages pending on a link have the length of its grain. -/
theorem Sim.framed (h : Sim P ρ w) (hinv : Inv P.tree P.parts P.rounds ρ) {a b : Address}
    (hl : P.Linked a b) : ∀ msg ∈ (w.link a b).pending, Framed (P.grain a b) msg := by
  intro msg hmsg
  unfold Plan.grain
  rcases h.mem_pending hinv hl hmsg with ⟨hb, rfl⟩ | ⟨ha, offset, xs, hxs, rfl⟩
  · rw [if_pos hb]
    exact framed_requestMessage P.size
  · rw [if_neg (P.tree.asymm b a ha)]
    exact framed_chunkMessage offset xs hxs

/-- No message is longer than a full chunk. -/
theorem Sim.length_le (h : Sim P ρ w) (hinv : Inv P.tree P.parts P.rounds ρ) {a b : Address}
    (hl : P.Linked a b) : ∀ msg ∈ (w.link a b).pending, msg.length ≤ 814 := by
  have hk : k = 100 := rfl
  intro msg hmsg
  rcases h.mem_pending hinv hl hmsg with ⟨-, rfl⟩ | ⟨-, offset, xs, hxs, rfl⟩
  · rw [length_requestMessage]
    omega
  · rw [length_chunkMessage]
    omega

theorem Sim.order (h : Sim P ρ w) (hinv : Inv P.tree P.parts P.rounds ρ) {a b : Address}
    (hl : P.Linked a b) : (w.link a b).handled.length ≤ (w.link a b).sent.length := by
  rcases hl with hb | ha
  · have hlog := h.down a b hb
    have := (hinv.edge a b hb).asked_le
    rw [hlog.sent, hlog.handled]
    simpa using this
  · have hlog := h.up b a ha
    rw [hlog.handled, List.length_take]
    exact Nat.min_le_right _ _

/-- The message at the front of a link is handled as a step of the protocol. -/
theorem Sim.dispatch (h : Sim P ρ w) (hinv : Inv P.tree P.parts P.rounds ρ) {peer a : Address}
    (hl : P.Linked peer a) {msg : List UInt8} {ms : List (List UInt8)}
    (hpending : (w.link peer a).pending = msg :: ms) (past : Nat → UInt64) (tail : List UInt8) :
    ∃ act ρ' w' entry s es, dispatch (funcMap P.env past a peer) w (msg ++ tail) = some w' ∧
      act ≠ .start ∧ P.step ρ act = some ρ' ∧ Sim P ρ' w' ∧ Handled P.env w w' peer a entry s es := by
  rcases hl with ha | hp
  · -- a request from the parent
    rw [(h.down peer a ha).pending] at hpending
    have hlt : ρ.asked a < ρ.asked peer := by
      have := congrArg List.length hpending
      simp at this
      omega
    obtain rfl : msg = requestMessage P.size :=
      List.eq_of_mem_replicate (hpending ▸ List.mem_cons_self)
    obtain ⟨w', s, es, hw, hsim, hd⟩ := onRequest_spec h hinv ha hlt past tail
    refine ⟨.hear peer a, _, w', _, s, es, ?_, nofun, if_pos ⟨ha, hlt⟩, hsim, hd⟩
    rw [dispatch_requestMessage _ _ _ _ (onRequest P.env past a peer) (if_pos rfl), hw]
  · -- a part of an answer from a child
    have hup := h.up a peer hp
    have he := hinv.edge a peer hp
    rw [hup.pending he.taken_le] at hpending
    have hlt : ρ.taken peer < P.parts * ρ.done peer := by
      have := congrArg List.length hpending
      simp [hup.length] at this
      omega
    obtain ⟨entry, hentry⟩ : ∃ entry, (w.link peer a).sent[ρ.taken peer]? = some entry :=
      ⟨_, List.getElem?_eq_getElem (by rw [hup.length]; exact hlt)⟩
    have hmsg : entry.2 = msg := by
      have h0 := congrArg (·[0]?) hpending
      simp only [List.getElem?_map, List.getElem?_drop, Nat.add_zero, hentry] at h0
      exact Option.some.inj h0
    obtain ⟨w', s, es, hw, hsim, hd⟩ := onResponse_spec h hinv hp hlt hentry past tail
    refine ⟨.take a peer, _, w', entry, s, es, ?_, nofun, if_pos ⟨hp, hlt⟩, hsim, hd⟩
    obtain ⟨xs, -, rfl, hxs, hoff⟩ := h.part hp hentry
    have hsize := P.size_le
    rw [← hmsg, dispatch_chunkMessage _ _ _ _ _ (by omega) hxs (onResponse P.env past a peer)
      ((if_neg commands_ne.symm).trans (if_pos rfl)), hw]

/-- Replacing the channel of a connected link changes nothing the relation looks at. -/
theorem Sim.setChan (h : Sim P ρ w) {src dst : Address} (hl : P.Linked src dst) (c : Channel) :
    Sim P ρ (w.setLink src dst { w.link src dst with chan := c }) := by
  have hlogs : ∀ a b, ((w.setLink src dst { w.link src dst with chan := c }).link a b).sent =
      (w.link a b).sent ∧ ((w.setLink src dst { w.link src dst with chan := c }).link a b).handled =
        (w.link a b).handled := by
    intro a b
    by_cases hab : a = src ∧ b = dst
    · obtain ⟨rfl, rfl⟩ := hab
      rw [setLink_self]
      exact ⟨rfl, rfl⟩
    · rw [setLink_of_ne _ _ _ _ hab]
      exact ⟨rfl, rfl⟩
  refine ⟨h.started, h.node, h.requests, fun p v hv => ?_, fun p v hv => ?_, fun a b hab hba => ?_,
    h.results, h.stops⟩
  · have hlog := h.down p v hv
    exact ⟨(hlogs p v).1.trans hlog.sent, (hlogs p v).2.trans hlog.handled⟩
  · have hlog := h.up p v hv
    refine ⟨by rw [(hlogs v p).1]; exact hlog.length, ?_, ?_⟩
    · rw [(hlogs v p).1]
      exact hlog.parts
    · rw [(hlogs v p).1, (hlogs v p).2]
      exact hlog.handled
  · have hne : ¬ (a = src ∧ b = dst) := by
      rintro ⟨rfl, rfl⟩
      exact hl.elim hab hba
    rw [setLink_of_ne _ _ _ _ hne]
    exact h.idle a b hab hba

/-- What a poll does to the protocol: some steps, and at least one when the message at the
front of the link is in the ring. -/
structure Polled (P : Plan) (ρ ρ' : State Address) (l : Link) (steps : List (Action Address)) :
    Prop where
  runs : runs P.step ρ steps = some ρ'
  started : .start ∉ steps
  some_step : ∀ msg ∈ l.pending.head?, msg.length ≤ l.chan.ring.size → steps ≠ []

/-- The loop over the ring of the link from `peer` to `a` has come to the world `u`: the steps
`steps` are made, the messages `ms` are left, and the bytes of the links are as they were. -/
structure Polling (P : Plan) (ρ : State Address) (w : World) (peer a : Address) (u : World)
    (ms : List (List UInt8)) (ρ' : State Address) (steps : List (Action Address)) : Prop where
  runs : runs P.step ρ steps = some ρ'
  started : .start ∉ steps
  count : steps.length + ms.length = (w.link peer a).pending.length
  sim : Sim P ρ' u
  pending : (u.link peer a).pending = ms
  chan : (u.link peer a).chan = (w.link peer a).chan
  others : ∀ x y, P.Linked x y → ¬ (x = peer ∧ y = a) → (u.link x y).Flows (P.grain x y)

namespace Polling

variable {a peer : Address} {u : World} {ms : List (List UInt8)} {ρ' : State Address}
  {steps : List (Action Address)}

theorem refl (h : Ok P ρ w) : Polling P ρ w peer a w (w.link peer a).pending ρ [] where
  runs := rfl
  started := List.not_mem_nil
  count := Nat.zero_add _
  sim := h.sim
  pending := rfl
  chan := rfl
  others := fun x y hxy _ => h.flows x y hxy

theorem reachable (hp : Polling P ρ w peer a u ms ρ' steps) (h : Ok P ρ w) :
    Reachable P.step .init ρ' := h.reachable.trans ⟨steps, hp.runs⟩

theorem inv (hp : Polling P ρ w peer a u ms ρ' steps) (h : Ok P ρ w) :
    Inv P.tree P.parts P.rounds ρ' := inv_of_reachable P.root_kids (hp.reachable h)

/-- One message is handled. -/
theorem dispatch {msg : List UInt8} (hp : Polling P ρ w peer a u (msg :: ms) ρ' steps)
    (h : Ok P ρ w) (hl : P.Linked peer a) (past : Nat → UInt64) (tail : List UInt8) :
    ∃ u' ρ'' act, InNetworkAgg.dispatch (funcMap P.env past a peer) u (msg ++ tail) = some u' ∧
      Polling P ρ w peer a u' ms ρ'' (steps ++ [act]) := by
  obtain ⟨act, ρ'', u', entry, s, es, hu, hact, hstep, hsim, hd⟩ :=
    hp.sim.dispatch (hp.inv h) hl hp.pending past tail
  refine ⟨u', ρ'', act, hu, ?_, ?_, ?_, hsim, ?_, ?_, fun x y hxy hpolled => ?_⟩
  · rw [runs_append, hp.runs, Option.bind_some, runs_cons, hstep]
    rfl
  · rw [List.mem_append, List.mem_singleton]
    exact fun e => e.elim hp.started fun e => hact e.symm
  · have hcount := hp.count
    rw [List.length_append, List.length_singleton]
    rw [List.length_cons] at hcount
    omega
  · rw [hd.pending, hp.pending]
    rfl
  · rw [hd.polled]
    exact hp.chan
  · by_cases hx : x = a
    · subst hx
      rw [hd.own]
      exact (hp.others x y hxy hpolled).sendAll _ _
    · rw [hd.other x y hx hpolled]
      exact hp.others x y hxy hpolled

/-- The loop ends with what is left in the ring. -/
theorem setRing (hp : Polling P ρ w peer a u ms ρ' steps) (h : Ok P ρ w) (hl : P.Linked peer a)
    {ring : CircularBuffer} (hring : RingOk (P.grain peer a) ring)
    (hbytes : ring.contents ++ (w.link peer a).chan.inflight = ms.flatten) :
    Ok P ρ' (u.setRing peer a ring) := by
  refine ⟨hp.reachable h, hp.sim.setChan hl _, fun x y hxy => ?_⟩
  by_cases hpolled : x = peer ∧ y = a
  · obtain ⟨rfl, rfl⟩ := hpolled
    rw [World.setRing, setLink_self]
    refine ⟨hring, hp.sim.order (hp.inv h) hl, ?_⟩
    show ring.contents ++ (u.link x y).chan.inflight = (u.link x y).pending.flatten
    rw [hp.chan, hp.pending]
    exact hbytes
  · rw [World.setRing, setLink_of_ne _ _ _ _ hpolled]
    exact hp.others x y hxy hpolled

end Polling

/-- A poll of a peer handles what is there, each message as a step of the protocol. -/
theorem Ok.receive (h : Ok P ρ w) {a peer : Address} (hl : P.Linked peer a) (past : Nat → UInt64)
    (heap : Nat → Nat → UInt8) :
    ∃ ring ρ' w' steps, receiveDataFrom (funcMap P.env past a peer) heap (w.link peer a).chan.ring w =
        some (ring, w') ∧ Ok P ρ' (w'.setRing peer a ring) ∧
      Polled P ρ ρ' (w.link peer a) steps := by
  have hflows := h.flows peer a hl
  have hspec := receiveDataFrom_spec (funcMap P.env past a peer) heap (P.grain peer a)
    (fun u ms => ∃ ρ' steps, Polling P ρ w peer a u ms ρ' steps)
    ?_ ?_ (w.link peer a).chan.ring w _ (w.link peer a).chan.inflight hflows.ring hflows.bytes
    ⟨ρ, [], .refl h⟩
  · obtain ⟨ring, w', done, ms', hrun, hdone, ⟨ρ', steps, hp⟩, hring, hbytes, hhead⟩ := hspec
    refine ⟨ring, ρ', w', steps, hrun, hp.setRing h hl hring hbytes, hp.runs, hp.started,
      fun msg hmsg hwhole hnil => ?_⟩
    -- nothing was handled, so the ring is as it was
    have hcount := hp.count
    have hsame : ms' = (w.link peer a).pending := by
      rw [hnil, hdone, List.length_append, List.length_nil] at hcount
      rw [hdone, List.eq_nil_of_length_eq_zero (show done.length = 0 by omega), List.nil_append]
    rw [← hsame] at hmsg
    have hlt := hhead msg hmsg
    have hlen := congrArg List.length (hbytes.trans (hsame ▸ hflows.bytes.symm))
    simp only [List.length_append, CircularBuffer.length_contents] at hlen
    omega
  · rintro u ms ⟨ρ', steps, hp⟩
    obtain rfl := hp.pending
    exact hp.sim.framed (hp.inv h) hl
  · rintro u msg ms tail ⟨ρ', steps, hp⟩
    obtain ⟨u', ρ'', act, hu, hp'⟩ := hp.dispatch h hl past tail
    exact ⟨u', hu, ρ'', steps ++ [act], hp'⟩

/-! ## Every action -/

/-- The peers of a node are what it is connected with. -/
theorem Ok.mem_socketPool (h : Ok P ρ w) {a peer : Address} :
    peer ∈ (w.node a).socketPool ↔ P.Linked peer a := by
  rw [socketPool, List.mem_append, (h.sim.node a).mem_sGroup, (h.sim.node a).cGroup]
  rfl

theorem Ok.poll (h : Ok P ρ w) {a peer : Address} (hl : P.Linked peer a)
    (past : Nat → UInt64) (heap : Nat → Nat → UInt8) :
    ∃ ρ' w' steps, exec P.env w (.poll a peer past heap) = some w' ∧ Ok P ρ' w' ∧
      Polled P ρ ρ' (w.link peer a) steps := by
  obtain ⟨ring, ρ', w', steps, hrun, hok, hpolled⟩ := h.receive hl past heap
  refine ⟨ρ', _, steps, ?_, hok, hpolled⟩
  rw [exec, if_pos (h.mem_socketPool.2 hl), hrun]
  rfl

theorem Ok.start (h : Ok P ρ w) (hs : w.started = false) (past : UInt64) :
    ∃ ρ' w', exec P.env w (.start past) = some w' ∧ Ok P ρ' w' := by
  obtain ⟨s, es, havg, hcg, hsim⟩ := h.sim.start h.inv hs past
  have hstep : P.step ρ .start = some (ρ.start P.tree P.rounds) :=
    if_pos (by rw [← h.sim.started, hs])
  refine ⟨_, _, ?_, h.reachable.trans (.step hstep), hsim, fun x y hxy => ?_⟩
  · rw [exec, hs, if_neg Bool.false_ne_true, havg]
    rfl
  · by_cases hx : x = P.env.consumer
    · subst hx
      rw [perform_link_self]
      exact (h.flows _ y hxy).sendAll _ _
    · rw [perform_link_of_ne _ _ _ _ _ hx]
      exact h.flows x y hxy

theorem Ok.deliver (h : Ok P ρ w) {src dst : Address} {n : Nat} {w' : World}
    (hw : exec P.env w (.deliver src dst n) = some w') : Ok P ρ w' := by
  rw [exec, Option.map_eq_some_iff] at hw
  obtain ⟨c, hc, rfl⟩ := hw
  rw [Channel.onCanRead] at hc
  split at hc
  · rename_i hn
    obtain ⟨ring, hring, rfl⟩ := Option.map_eq_some_iff.1 hc
    have hl : P.Linked src dst := by
      by_contra hno
      have hidle := h.sim.idle src dst (fun e => hno (Or.inl e)) fun e => hno (Or.inr e)
      rw [hidle, List.length_nil] at hn
      omega
    refine ⟨h.reachable, h.sim.setChan hl _, fun x y hxy => ?_⟩
    by_cases hxy' : x = src ∧ y = dst
    · obtain ⟨rfl, rfl⟩ := hxy'
      have hflows := h.flows x y hxy
      obtain ⟨hok, hcontents⟩ := hflows.ring.write _ hring
      rw [setLink_self]
      refine ⟨hok, hflows.order, ?_⟩
      show ring.contents ++ (w.link x y).chan.inflight.drop n = _
      rw [hcontents, List.append_assoc, List.take_append_drop]
      exact hflows.bytes
    · rw [setLink_of_ne _ _ _ _ hxy']
      exact h.flows x y hxy
  · cases hc

/-- Every action keeps the world on the protocol. -/
theorem Ok.exec (h : Ok P ρ w) {act : World.Action} {w' : World}
    (hw : World.exec P.env w act = some w') : ∃ ρ', Ok P ρ' w' := by
  cases act with
  | start past =>
    by_cases hs : w.started = true
    · rw [World.exec, if_pos hs] at hw
      cases hw
    · obtain ⟨ρ', w'', hw', hok⟩ := h.start (by simpa using hs) past
      rw [hw] at hw'
      cases hw'
      exact ⟨ρ', hok⟩
  | deliver src dst n => exact ⟨ρ, h.deliver hw⟩
  | poll a peer past heap =>
    by_cases hpeer : peer ∈ (w.node a).socketPool
    · obtain ⟨ρ', w'', -, hw', hok, -⟩ := h.poll (h.mem_socketPool.1 hpeer) past heap
      rw [hw] at hw'
      cases hw'
      exact ⟨ρ', hok⟩
    · rw [World.exec, if_neg hpeer] at hw
      cases hw

/-- **Refinement.**  A run of the deployment is a run of the protocol. -/
theorem Ok.runs (h : Ok P ρ w) {acts : List World.Action} {w' : World}
    (hw : runs (World.exec P.env) w acts = some w') : ∃ ρ', Ok P ρ' w' :=
  runs_invariant (I := fun w => ∃ ρ, Ok P ρ w) (fun _ _ _ ⟨_, hok⟩ hs => hok.exec hs) ⟨ρ, h⟩ hw

end InNetworkAgg
