import InNetworkAgg.Simulator

/-!
# Polls of a node (`ReceiveDataFromAll`)

A poll changes only what is the node's own: its state, the rings it reads and the
flows it writes (`Frame.polls`).  Between connected nodes it fails no assertion
(`polls_ok`), and what is whole in a ring is handled (`polls_drain`).
-/

namespace InNetworkAgg

open Outcome PartialRun RoseTree World

namespace Startup

/-! ## What polls leave alone -/

/-- Node `a` has polled some peers. -/
structure Frame (a : Address) (peers : List Address) (w w' : World) : Prop where
  node : ∀ x, x ≠ a → w'.node x = w.node x
  stops : ∃ calls, w'.stops = w.stops ++ calls ∧ ∀ st ∈ calls, st.1 = a
  requests : ∀ x, x ≠ a → w'.requests x = w.requests x
  requests_le : w.requests a ≤ w'.requests a
  started : w'.started = w.started
  sent : ∀ x y, x ≠ a → (w'.link x y).sent = (w.link x y).sent
  inflight : ∀ x y, x ≠ a → (w'.link x y).chan.inflight = (w.link x y).chan.inflight
  own : ∀ y, ∃ entries, (w'.link a y).sent = (w.link a y).sent ++ entries ∧
    (w'.link a y).chan.inflight =
      (w.link a y).chan.inflight ++ (entries.map Prod.snd).flatten
  handled : ∀ x y, ¬(x ∈ peers ∧ y = a) → (w'.link x y).handled = (w.link x y).handled
  ring : ∀ x y, ¬(x ∈ peers ∧ y = a) → (w'.link x y).chan.ring = (w.link x y).chan.ring

namespace Frame

variable {a : Address} {ps qs : List Address} {w u w' : World}

theorem refl (a : Address) (ps : List Address) (w : World) : Frame a ps w w where
  node _ _ := rfl
  stops := ⟨[], (List.append_nil _).symm, fun _ hst => absurd hst List.not_mem_nil⟩
  requests _ _ := rfl
  requests_le := Nat.le_refl _
  started := rfl
  sent _ _ _ := rfl
  inflight _ _ _ := rfl
  own _ := ⟨[], (List.append_nil _).symm, (List.append_nil _).symm⟩
  handled _ _ _ := rfl
  ring _ _ _ := rfl

theorem trans (h : Frame a ps w u) (h' : Frame a qs u w') : Frame a (ps ++ qs) w w' where
  node x hx := (h'.node x hx).trans (h.node x hx)
  stops := by
    obtain ⟨cs, hcs, ha⟩ := h.stops
    obtain ⟨cs', hcs', ha'⟩ := h'.stops
    refine ⟨cs ++ cs', by rw [hcs', hcs, List.append_assoc], fun st hst => ?_⟩
    exact (List.mem_append.1 hst).elim (ha st) (ha' st)
  requests x hx := (h'.requests x hx).trans (h.requests x hx)
  requests_le := Nat.le_trans h.requests_le h'.requests_le
  started := h'.started.trans h.started
  sent x y hx := (h'.sent x y hx).trans (h.sent x y hx)
  inflight x y hx := (h'.inflight x y hx).trans (h.inflight x y hx)
  own y := by
    obtain ⟨es, hsent, hinflight⟩ := h.own y
    obtain ⟨es', hsent', hinflight'⟩ := h'.own y
    refine ⟨es ++ es', ?_, ?_⟩
    · rw [hsent', hsent, List.append_assoc]
    · rw [hinflight', hinflight, List.map_append, List.flatten_append, List.append_assoc]
  handled x y hxy := by
    rw [List.mem_append] at hxy
    rw [h'.handled x y fun hq => hxy ⟨.inr hq.1, hq.2⟩,
      h.handled x y fun hp => hxy ⟨.inl hp.1, hp.2⟩]
  ring x y hxy := by
    rw [List.mem_append] at hxy
    rw [h'.ring x y fun hq => hxy ⟨.inr hq.1, hq.2⟩, h.ring x y fun hp => hxy ⟨.inl hp.1, hp.2⟩]

/-- What a node has sent only grows. -/
theorem inflight_le (h : Frame a ps w w') (y : Address) :
    (w.link a y).chan.inflight.length ≤ (w'.link a y).chan.inflight.length := by
  obtain ⟨es, -, hinflight⟩ := h.own y
  rw [hinflight, List.length_append]
  exact Nat.le_add_right _ _

/-- A message of `peer` is logged. -/
theorem log (h : Frame a ps w u) {peer : Address} (hpeer : peer ∈ ps) (round : Nat)
    (buffer : List UInt8) : Frame a ps w (u.log peer a round buffer) := by
  have hother : ∀ x y, ¬(x = peer ∧ y = a) →
      (u.log peer a round buffer).link x y = u.link x y := fun x y hxy => setLink_of_ne _ _ _ _ hxy
  have hlink : ∀ x y, ((u.log peer a round buffer).link x y).chan = (u.link x y).chan ∧
      ((u.log peer a round buffer).link x y).sent = (u.link x y).sent := by
    intro x y
    by_cases hxy : x = peer ∧ y = a
    · obtain ⟨rfl, rfl⟩ := hxy
      rw [World.log, setLink_self]
      exact ⟨rfl, rfl⟩
    · rw [hother x y hxy]
      exact ⟨rfl, rfl⟩
  refine ⟨h.node, h.stops, h.requests, h.requests_le, h.started, fun x y hx => ?_,
    fun x y hx => ?_, fun y => ?_, fun x y hxy => ?_, fun x y hxy => ?_⟩
  · rw [(hlink x y).2]
    exact h.sent x y hx
  · rw [(hlink x y).1]
    exact h.inflight x y hx
  · rw [(hlink a y).1, (hlink a y).2]
    exact h.own y
  · rw [hother x y fun hp => hxy ⟨hp.1 ▸ hpeer, hp.2⟩]
    exact h.handled x y hxy
  · rw [(hlink x y).1]
    exact h.ring x y hxy

theorem request (h : Frame a ps w u) :
    Frame a ps w { u with requests := Function.update u.requests a (u.requests a + 1) } where
  node := h.node
  stops := h.stops
  requests x hx := (Function.update_of_ne hx _ _).trans (h.requests x hx)
  requests_le := by
    simp only [Function.update_self]
    exact Nat.le_succ_of_le h.requests_le
  started := h.started
  sent := h.sent
  inflight := h.inflight
  own := h.own
  handled := h.handled
  ring := h.ring

theorem perform (h : Frame a ps w u) (env : Env) (r : SimpleMPI × List Effect) :
    Frame a ps w (u.perform env a r) := by
  have hchan : ∀ x y, ((u.perform env a r).link x y).handled = (u.link x y).handled ∧
      ((u.perform env a r).link x y).chan.ring = (u.link x y).chan.ring := by
    intro x y
    by_cases hx : x = a
    · rw [hx, perform_link_self]
      exact ⟨rfl, rfl⟩
    · rw [perform_link_of_ne _ _ _ _ _ hx]
      exact ⟨rfl, rfl⟩
  refine ⟨fun x hx => ?_, ?_, fun x hx => ?_, ?_, (perform_started env a u r).trans h.started,
    fun x y hx => ?_, fun x y hx => ?_, fun y => ?_, fun x y hxy => ?_, fun x y hxy => ?_⟩
  · rw [perform_node, Function.update_of_ne hx]
    exact h.node x hx
  · obtain ⟨cs, hcs, ha⟩ := h.stops
    refine ⟨_, by rw [perform_stops, hcs, List.append_assoc], fun st hst => ?_⟩
    rcases List.mem_append.1 hst with hst | hst
    · exact ha st hst
    · rw [(List.mem_replicate.1 hst).2]
  · rw [perform_requests]
    exact h.requests x hx
  · rw [perform_requests]
    exact h.requests_le
  · rw [perform_link_of_ne _ _ _ _ _ hx]
    exact h.sent x y hx
  · rw [perform_link_of_ne _ _ _ _ _ hx]
    exact h.inflight x y hx
  · obtain ⟨es, hsent, hinflight⟩ := h.own y
    rw [perform_link_self]
    refine ⟨es ++ (packetsTo y r.2).map fun p =>
      (if r.1.cGroup = [] then u.requests a else r.1.curIter, p), ?_, ?_⟩
    · rw [Link.sendAll, hsent, List.append_assoc]
    · rw [Link.sendAll, hinflight, List.map_append, List.flatten_append, List.map_map,
        List.append_assoc]
      show _ ++ (_ ++ (packetsTo y r.2).flatten) = _ ++ (_ ++ ((packetsTo y r.2).map id).flatten)
      rw [List.map_id]
  · rw [(hchan x y).1]
    exact h.handled x y hxy
  · rw [(hchan x y).2]
    exact h.ring x y hxy

/-- The messages in a ring are handled. -/
theorem receive {env : Env} {past : Nat → UInt64} {peer : Address} {heap : Nat → Nat → UInt8}
    {ring : CircularBuffer} {r : CircularBuffer × World}
    (h : receiveDataFrom (funcMap env past a peer) heap ring w = some r) :
    Frame a [peer] w r.2 := by
  refine receiveDataFrom_invariant (I := fun u => Frame a [peer] w u) _ heap ?_ ring w
    (.refl a [peer] w) h
  intro key f hf u buffer u' hu hcall
  have hlog := fun round => hu.log (List.mem_singleton_self peer) round buffer
  unfold funcMap at hf
  split at hf
  · cases hf
    obtain ⟨p, -, rfl⟩ := Option.map_eq_some_iff.1 hcall
    exact (hlog _).request.perform env p
  · split at hf
    · cases hf
      obtain ⟨p, -, rfl⟩ := Option.map_eq_some_iff.1 hcall
      exact (hlog _).perform env p
    · cases hf

theorem poll {env : Env} {peer : Address} {past : Nat → UInt64} {heap : Nat → Nat → UInt8}
    (h : exec env w (.poll a peer past heap) = some w') : Frame a [peer] w w' := by
  rw [exec] at h
  split at h
  · obtain ⟨r, hr, rfl⟩ := Option.map_eq_some_iff.1 h
    have hframe : Frame a [peer] w r.2 := .receive hr
    -- only the ring that was read is replaced
    have hlink : ∀ x y, ¬(x = peer ∧ y = a) → (r.2.setRing peer a r.1).link x y = r.2.link x y :=
      fun x y hxy => setLink_of_ne _ _ _ _ hxy
    have hflow : ∀ x y, ((r.2.setRing peer a r.1).link x y).sent = (r.2.link x y).sent ∧
        ((r.2.setRing peer a r.1).link x y).chan.inflight = (r.2.link x y).chan.inflight := by
      intro x y
      by_cases hxy : x = peer ∧ y = a
      · obtain ⟨rfl, rfl⟩ := hxy
        rw [World.setRing, setLink_self]
        exact ⟨rfl, rfl⟩
      · rw [hlink x y hxy]
        exact ⟨rfl, rfl⟩
    refine ⟨hframe.node, hframe.stops, hframe.requests, hframe.requests_le, hframe.started,
      fun x y hx => ?_, fun x y hx => ?_, fun y => ?_, fun x y hxy => ?_, fun x y hxy => ?_⟩
    · rw [(hflow x y).1]
      exact hframe.sent x y hx
    · rw [(hflow x y).2]
      exact hframe.inflight x y hx
    · rw [(hflow a y).1, (hflow a y).2]
      exact hframe.own y
    · rw [hlink x y fun hp => hxy ⟨List.mem_singleton.2 hp.1, hp.2⟩]
      exact hframe.handled x y hxy
    · rw [hlink x y fun hp => hxy ⟨List.mem_singleton.2 hp.1, hp.2⟩]
      exact hframe.ring x y hxy
  · cases h

end Frame

theorem Frame.polls {env : Env} {a : Address} {past : Address → Nat → UInt64}
    {heap : Address → Nat → Nat → UInt8} (order : List Address) : ∀ {w w' : World},
      runs (World.exec env) w (polls a past heap order) = some w' → Frame a order w w' := by
  induction order with
  | nil =>
    intro w w' h
    cases h
    exact .refl a [] w
  | cons peer order ih =>
    intro w w' h
    obtain ⟨u, hu, h⟩ := Option.bind_eq_some_iff.1 h
    exact (Frame.poll hu).trans (ih h)

/-! ## What polls do -/

section
variable {P : Plan} {ρ : Rounds.State Address} {w w' : World}

/-- Polls of connected peers fail no assertion. -/
theorem polls_ok {a : Address} (past : Address → Nat → UInt64)
    (heap : Address → Nat → Nat → UInt8) (order : List Address) : ∀ {ρ w}, Ok P ρ w →
      (∀ peer ∈ order, P.Linked peer a) →
      ∃ ρ' w', runs (World.exec P.env) w (polls a past heap order) = some w' ∧ Ok P ρ' w' := by
  induction order with
  | nil => exact fun h _ => ⟨_, _, rfl, h⟩
  | cons peer order ih =>
    intro ρ w h hpeers
    obtain ⟨ρ', u, -, hu, hok, -⟩ :=
      h.poll (hpeers peer List.mem_cons_self) (past peer) (heap peer)
    obtain ⟨ρ'', w', hw', hok'⟩ := ih hok fun p hp => hpeers p (List.mem_cons_of_mem _ hp)
    refine ⟨ρ'', w', ?_, hok'⟩
    rw [polls, List.map_cons, runs_cons, hu]
    exact hw'

/-- The first message that is left is not whole. -/
def Drained (l : Link) : Prop := ∀ msg ∈ l.pending.head?, l.chan.ring.size < msg.length

theorem poll_drains (h : Ok P ρ w) {a peer : Address} (hl : P.Linked peer a) {past : Nat → UInt64}
    {heap : Nat → Nat → UInt8} (hw : exec P.env w (.poll a peer past heap) = some w') :
    Drained (w'.link peer a) := by
  have hflows := h.flows peer a hl
  obtain ⟨ring, u, -, ms, hrun, -, ⟨ρ', steps, hp⟩, -, -, hhead⟩ :=
    receiveDataFrom_spec (funcMap P.env past a peer) heap (P.grain peer a)
      (fun u ms => ∃ ρ' steps, Polling P ρ w peer a u ms ρ' steps)
      (fun u ms ⟨ρ', steps, hp⟩ => hp.pending ▸ hp.sim.framed (hp.inv h) hl)
      (fun u msg ms tail ⟨ρ', steps, hp⟩ => by
        obtain ⟨u', ρ'', act, hu, hp'⟩ := hp.dispatch h hl past tail
        exact ⟨u', hu, ρ'', steps ++ [act], hp'⟩)
      (w.link peer a).chan.ring w _ (w.link peer a).chan.inflight hflows.ring hflows.bytes
      ⟨ρ, [], .refl h⟩
  rw [exec, if_pos (h.mem_socketPool.2 hl), hrun] at hw
  cases hw
  have hlink : (u.setRing peer a ring).link peer a =
      { u.link peer a with chan := { (u.link peer a).chan with ring := ring } } :=
    setLink_self _ _ _ _
  unfold Drained
  rw [hlink]
  show ∀ msg ∈ (u.link peer a).pending.head?, ring.size < msg.length
  rw [hp.pending]
  exact hhead

theorem polls_drain {a : Address} {past : Address → Nat → UInt64}
    {heap : Address → Nat → Nat → UInt8} (order : List Address) : ∀ {ρ w}, Ok P ρ w →
      (∀ peer ∈ order, P.Linked peer a) →
      runs (World.exec P.env) w (polls a past heap order) = some w' →
      ∀ peer ∈ order, Drained (w'.link peer a) := by
  induction order with
  | nil => exact fun _ _ _ _ hpeer => absurd hpeer List.not_mem_nil
  | cons q order ih =>
    intro ρ w h hpeers hw peer hpeer
    obtain ⟨u, hu, hafter⟩ := Option.bind_eq_some_iff.1 hw
    have hq := hpeers q List.mem_cons_self
    obtain ⟨ρ', u', -, hu', hok, -⟩ := h.poll hq (past q) (heap q)
    cases hu.symm.trans hu'
    by_cases hrest : peer ∈ order
    · exact ih hok (fun p hp => hpeers p (List.mem_cons_of_mem _ hp)) hafter peer hrest
    · -- the polls behind it leave the link alone
      obtain rfl : peer = q := (List.mem_cons.1 hpeer).resolve_right hrest
      have hframe : Frame a order u w' := .polls order hafter
      have hne : peer ≠ a := hq.elim P.parent_ne fun hc => (P.parent_ne hc).symm
      have hdrained := poll_drains h hq hu
      unfold Drained Link.pending at hdrained ⊢
      rw [hframe.sent peer a hne, hframe.handled peer a fun hp => hrest hp.1,
        hframe.ring peer a fun hp => hrest hp.1]
      exact hdrained

/-- A request that has arrived is handled by the polls. -/
theorem polls_hear (h : Ok P ρ w) {p c : Address} (hc : c ∈ P.tree.kids p)
    (hsent : (w.link p c).sent ≠ []) (hinflight : (w.link p c).chan.inflight = [])
    {past : Address → Nat → UInt64} {heap : Address → Nat → Nat → UInt8} {order : List Address}
    (hmem : p ∈ order) (hpeers : ∀ peer ∈ order, P.Linked peer c)
    (hw : runs (World.exec P.env) w (polls c past heap order) = some w') : 0 < w'.requests c := by
  obtain ⟨ρ', w'', hw', hok⟩ := polls_ok past heap order h hpeers
  cases hw.symm.trans hw'
  have hne := P.parent_ne hc
  have hframe : Frame c order w w' := .polls order hw
  rw [hok.sim.requests p c hc]
  refine Nat.pos_of_ne_zero fun hzero => ?_
  -- nothing was handled, so all that was sent is still in the ring
  have hhandled := (hok.sim.down p c hc).handled
  rw [hzero] at hhandled
  have hpending : (w'.link p c).pending = (w.link p c).sent.map Prod.snd := by
    rw [Link.pending, hhandled, hframe.sent p c hne]
    rfl
  obtain ⟨msg, ms, hms⟩ := List.exists_cons_of_ne_nil
    (show (w.link p c).sent.map Prod.snd ≠ [] by simpa using hsent)
  have hlt := polls_drain order h hpeers hw p hmem msg (by rw [hpending, hms]; rfl)
  have hlen := congrArg List.length (hok.flows p c (.inl hc)).bytes
  rw [hframe.inflight p c hne, hinflight, hpending, hms, List.append_nil,
    CircularBuffer.length_contents, List.flatten_cons, List.length_append] at hlen
  omega

end

end Startup

end InNetworkAgg
