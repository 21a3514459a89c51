import InNetworkAgg.Lib.Prompt
import InNetworkAgg.Lib.Stamps
import InNetworkAgg.Startup

/-!
# The pace of a deployment (`ReceiveDataFromAll`, in-quic-topo.cc)

Every node polls its sockets each 30 ms, so a message is handled at most this long
after its last byte has come.  A round goes down the tree and up again, so in a
deployment that starts in time the consumer has `r` rounds when

    2 * height * r * (longest delay + 30 ms)

are over since the first polls, whatever the order of polls and arrivals
(`rounds_in_time`).
-/

namespace InNetworkAgg

open Outcome PartialRun RoseTree Stamps World

namespace Startup

/-! ## The messages of a link -/

section
variable {P : Plan} (S : Rounds.Schedule P.tree)

/-- By when message number `j` from `a` to `b` is sent. -/
def due (a b : Address) (j : Nat) : Nat :=
  if b ∈ P.tree.kids a then S.askedBy j a else S.doneBy (j / P.parts) a

theorem due_mono (a b : Address) : Monotone (due S a b) := by
  intro j j' hle
  unfold due
  split
  · exact S.askedBy_mono hle a
  · exact S.doneBy_mono (Nat.div_le_div_right hle) a

end

/-- The number of messages from `a` to `b` in all rounds. -/
def awaited (P : Plan) (a b : Address) : Nat :=
  if b ∈ P.tree.kids a then P.rounds else P.parts * P.rounds

/-- The sizes of the messages sent. -/
def sizes (l : Link) : List Nat := l.sent.map fun e => e.2.length

theorem sizes_drop (l : Link) : (sizes l).drop l.handled.length = l.pending.map List.length := by
  rw [sizes, Link.pending, ← List.map_drop, List.map_map]
  rfl

section
variable {P : Plan} {ρ : Rounds.State Address} {w : World} (h : Ok P ρ w) {p c : Address}
  (hc : c ∈ P.tree.kids p)

include h hc

theorem handled_down : (w.link p c).handled.length = ρ.asked c := by
  rw [(h.sim.down p c hc).handled, List.length_map, List.length_range]

theorem handled_up : (w.link c p).handled.length = ρ.taken c := by
  have hup := h.sim.up p c hc
  rw [hup.handled, List.length_take, hup.length]
  exact Nat.min_eq_left (h.inv.edge p c hc).taken_le

theorem sent_down : (w.link p c).sent.length = ρ.asked p := by
  rw [(h.sim.down p c hc).sent, List.length_map, List.length_range]

theorem sent_up : (w.link c p).sent.length = P.parts * ρ.done c := (h.sim.up p c hc).length

end

section
variable {P : Plan} {ρ : Rounds.State Address} {w : World}

theorem sent_le_awaited (h : Ok P ρ w) {a b : Address} (hl : P.Linked a b) :
    (w.link a b).sent.length ≤ awaited P a b := by
  unfold awaited
  rcases hl with hb | ha
  · rw [if_pos hb, sent_down h hb]
    exact h.inv.asked_le a
  · rw [if_neg (P.tree.asymm b a ha), sent_up h ha]
    have hedge := h.inv.edge b a ha
    exact Nat.mul_le_mul_left _ (hedge.done_le_asked.trans (h.inv.asked_le a))

theorem linked_ne {a b : Address} (hl : P.Linked a b) : a ≠ b :=
  hl.elim P.parent_ne fun ha => (P.parent_ne ha).symm

/-- The messages that polls have left are not whole, so one of their bytes is on the way. -/
theorem exists_stamp (h : Ok P ρ w) {due : Nat → Nat} {stamps : List Nat} {a b : Address}
    (hl : P.Linked a b) (hstamps : InTime due (sizes (w.link a b)) stamps)
    (hlen : stamps.length = (w.link a b).chan.inflight.length) (hdrained : Drained (w.link a b))
    {j : Nat} (hhandled : (w.link a b).handled.length ≤ j) (hsent : j < (w.link a b).sent.length) :
    ∃ t ∈ stamps, t ≤ due j := by
  have hdrop := sizes_drop (w.link a b)
  have hbytes : (w.link a b).chan.ring.size + stamps.length =
      ((sizes (w.link a b)).drop (w.link a b).handled.length).sum := by
    have hflows := congrArg List.length (h.flows a b hl).bytes
    rw [List.length_append, CircularBuffer.length_contents, List.length_flatten] at hflows
    rw [hdrop, hlen]
    exact hflows
  have hhead : ∀ size ∈ ((sizes (w.link a b)).drop (w.link a b).handled.length).head?,
      (w.link a b).chan.ring.size < size := by
    intro size hsize
    rw [hdrop, List.head?_map] at hsize
    obtain ⟨msg, hmsg, rfl⟩ := Option.map_eq_some_iff.1 hsize
    exact hdrained msg hmsg
  exact hstamps.exists_le hbytes hhead hhandled (by rw [sizes, List.length_map]; exact hsent)

end

/-! ## No message is overdue -/

/-- The first polls, and the time for a message to arrive and for the poll after it. -/
structure Pacing (sc : Scenario) {P : Plan} (S : Rounds.Schedule P.tree) : Prop where
  first : ∀ a b, P.Linked a b → ∃ t ∈ sc.firstPoll b, t ≤ S.first
  consumer : ∀ t ∈ sc.firstPoll P.tree.root, (sc.times .con).average + milliSeconds 30 ≤ t
  hop : sc.net.longest + milliSeconds 30 ≤ S.hop

/-- What has been sent was sent in time, and the next poll comes in time for what has not been
handled. -/
structure Paced (sc : Scenario) {P : Plan} (S : Rounds.Schedule P.tree) (s : Simulation) : Prop where
  stamps : ∀ a b, P.Linked a b → InTime (due S a b) (sizes (s.world.link a b)) (s.sentAt a b)
  fresh : ∀ a b, P.Linked a b → ∀ t ∈ s.sentAt a b, s.now ≤ t + sc.net.longest
  polls : ∀ a b, P.Linked a b → ∀ j < awaited P a b, (s.world.link a b).handled.length ≤ j →
    ∃ t ∈ s.nextPoll b, t ≤ due S a b j + S.hop
  consumer : ∀ t ∈ s.nextPoll P.tree.root, (sc.times .con).average < t

section
variable {sc : Scenario} {P : Plan} {S : Rounds.Schedule P.tree} {w₀ : World} {s : Simulation}

theorem Laid.linked_nodes (hsc : Laid sc P.tree) {a b : Address} (hl : P.Linked a b) :
    a ∈ sc.nodes ∧ b ∈ sc.nodes :=
  hl.elim (hsc.nodes a b) fun ha => (hsc.nodes b a ha).symm

/-- Every link ends in a node that polls from the first poll on. -/
theorem Pacing.first_le (hpace : Pacing sc S) (hsc : Laid sc P.tree) :
    (sc.times .con).average ≤ S.first := by
  obtain ⟨c, hc⟩ := List.exists_mem_of_ne_nil _ P.root_kids
  obtain ⟨t, ht, hle⟩ := hpace.first c P.tree.root (.inr hc)
  rw [← hsc.root]
  exact (hsc.poll_ge _ t ht).trans hle

theorem Paced.overdue (hp : Paced sc S s) (hg : Good sc P w₀ s) (hsc : Laid sc P.tree)
    {a b : Address} (hl : P.Linked a b) {j : Nat} (hj : j < awaited P a b)
    (hhandled : (s.world.link a b).handled.length ≤ j) : s.now ≤ due S a b j + S.hop := by
  obtain ⟨t, ht, hle⟩ := hp.polls a b hl j hj hhandled
  exact (hg.polls b (hsc.linked_nodes hl).2 t ht).trans hle

theorem Paced.prompt (hp : Paced sc S s) (hg : Good sc P w₀ s) (hsc : Laid sc P.tree)
    (hpace : Pacing sc S) {ρ : Rounds.State Address} (hok : Ok P ρ s.world) :
    Rounds.Prompt S P.parts P.rounds ρ s.now where
  start hs := by
    have hav := hg.average
    rw [hok.sim.started, hs, if_neg Bool.false_ne_true] at hav
    exact (hg.ahead _ hav).trans (hpace.first_le hsc)
  hear p c hc r hr hasked := by
    have hdue := hp.overdue hg hsc (.inl hc) (j := r) (by unfold awaited; rwa [if_pos hc])
      (by rwa [handled_down hok hc])
    unfold due at hdue
    rwa [if_pos hc] at hdue
  take p c hc j hj htaken := by
    have hno := P.tree.asymm p c hc
    have hdue := hp.overdue hg hsc (.inr hc) (j := j) (by unfold awaited; rwa [if_neg hno])
      (by rwa [handled_up hok hc])
    unfold due at hdue
    rwa [if_neg hno] at hdue

/-- A message that has not been sent is not overdue. -/
theorem Paced.unsent (hp : Paced sc S s) (hg : Good sc P w₀ s) (hsc : Laid sc P.tree)
    (hpace : Pacing sc S) (hparts : 0 < P.parts) {a b : Address} (hl : P.Linked a b) {j : Nat}
    (hj : j < awaited P a b) (hsent : (s.world.link a b).sent.length ≤ j) :
    s.now ≤ due S a b j := by
  obtain ⟨ρ, hok⟩ := hg.ok
  have hprompt := hp.prompt hg hsc hpace hok
  have hopen := Rounds.open_of_reachable P.root_kids hparts hok.reachable
  unfold awaited at hj
  unfold due
  rcases hl with hb | ha
  · rw [if_pos hb] at hj ⊢
    rw [sent_down hok hb] at hsent
    exact hprompt.asked hok.inv hopen P.root_kids (hsc.parent a (List.ne_nil_of_mem hb)) hj hsent
  · have hno := P.tree.asymm b a ha
    rw [if_neg hno] at hj ⊢
    rw [sent_up hok ha] at hsent
    refine hprompt.done hok.inv hopen P.root_kids ha ?_ ?_
    · exact Nat.div_lt_of_lt_mul hj
    · exact (Nat.le_div_iff_mul_le hparts).2 (by rwa [Nat.mul_comm])

/-! ## Events -/

theorem Paced.init (hpace : Pacing sc S) (garbage : Address → Nat)
    (heap : Address → Address → Nat → UInt8) : Paced sc S (sc.init garbage heap) where
  stamps _ _ _ := .nil _
  fresh _ _ _ _ ht := absurd ht List.not_mem_nil
  polls a b hl j _ _ := by
    obtain ⟨t, ht, hle⟩ := hpace.first a b hl
    have hdue : S.first ≤ due S a b j := by
      unfold due
      split
      · exact S.first_le_askedBy j a
      · exact (S.first_le_askedBy _ a).trans (S.askedBy_le_doneBy _ a)
    exact ⟨t, ht, by omega⟩
  consumer t ht := Nat.lt_of_lt_of_le (Nat.lt_add_of_pos_right (by decide)) (hpace.consumer t ht)

theorem Paced.wait (hp : Paced sc S s) (hsc : Laid sc P.tree) {d : Nat}
    (hen : Enabled sc s (.wait d)) : Paced sc S { s with now := s.now + d } where
  stamps := hp.stamps
  fresh a b hl t ht := by
    obtain ⟨ha, hb⟩ := hsc.linked_nodes hl
    exact (hen.2.2 a ha).2.1 b hb t ht
  polls := hp.polls
  consumer := hp.consumer

theorem Paced.arrives (hp : Paced sc S s) {src dst : Address} {n : Nat} {w : World}
    (harr : Arrived s.world w src dst n) (channel : Address → Address → Bool) :
    Paced sc S { s.arrived src dst n w with channel := channel } where
  stamps a b hl := by
    show InTime (due S a b) (sizes (w.link a b)) ((s.arrived src dst n w).sentAt a b)
    by_cases hab : a = src ∧ b = dst
    · obtain ⟨rfl, rfl⟩ := hab
      rw [arrived_self, sizes, harr.sent]
      exact (hp.stamps a b hl).drop n
    · rw [arrived_of_ne s src dst n w hab, harr.other a b hab]
      exact hp.stamps a b hl
  fresh a b hl t ht := hp.fresh a b hl t (mem_arrived s src dst n w ht)
  polls a b hl j hj hhandled := by
    refine hp.polls a b hl j hj ?_
    have hleft : (w.link a b).handled.length ≤ j := hhandled
    by_cases hab : a = src ∧ b = dst
    · obtain ⟨rfl, rfl⟩ := hab
      rwa [harr.handled] at hleft
    · rwa [harr.other a b hab] at hleft
  consumer := hp.consumer

/-- What a node sends is not late. -/
theorem Paced.sent (hp : Paced sc S s) (hg : Good sc P w₀ s) (hsc : Laid sc P.tree)
    (hpace : Pacing sc S) (hparts : 0 < P.parts) {a : Address} {peers : List Address} (w₁ : World)
    {w : World} (hlink : w₁.link = s.world.link) (hframe : Frame a peers w₁ w) (hok : ∃ ρ, Ok P ρ w)
    (x y : Address) (hl : P.Linked x y) :
    InTime (due S x y) (sizes (w.link x y)) ((s.sent a w).sentAt x y) ∧
      ∀ t ∈ (s.sent a w).sentAt x y, s.now ≤ t + sc.net.longest := by
  by_cases hx : x = a
  · subst hx
    obtain ⟨es, hsent, hinflight⟩ := hframe.own y
    rw [hlink] at hsent hinflight
    have hnew : (w.link x y).chan.inflight.length - (s.world.link x y).chan.inflight.length =
        (es.map fun e => e.2.length).sum := by
      rw [hinflight, List.length_append, Nat.add_sub_cancel_left, List.length_flatten, List.map_map]
      rfl
    rw [sent_self, hnew]
    constructor
    · rw [sizes, hsent, List.map_append]
      refine (hp.stamps x y hl).send (due_mono S x y) _ fun j hj hlt => ?_
      obtain ⟨ρ, hok⟩ := hok
      have hle := sent_le_awaited hok hl
      rw [hsent, List.length_append] at hle
      rw [sizes, List.length_map] at hj hlt
      rw [List.length_map] at hlt
      exact hp.unsent hg hsc hpace hparts hl (by omega) hj
    · intro t ht
      rcases List.mem_append.1 ht with hold | hnow
      · exact hp.fresh x y hl t hold
      · rw [(List.mem_replicate.1 hnow).2]
        exact Nat.le_add_right _ _
  · rw [sent_of_ne s a w hx, sizes, hframe.sent x y hx, hlink]
    exact ⟨hp.stamps x y hl, hp.fresh x y hl⟩

theorem Paced.averages (hp : Paced sc S s) (hg : Good sc P w₀ s) (hsc : Timely sc P)
    (hpace : Pacing sc S) (hparts : 0 < P.parts) {past : UInt64}
    (hen : Enabled sc s (.average past)) {s' : Simulation}
    (hs' : step sc s (.average past) = .ok s') : Paced sc S s' := by
  obtain ⟨ρ, hok⟩ := ((hg.step hsc hen).of_ok hs').ok
  unfold step at hs'
  dsimp only at hs'
  split at hs'
  · cases hs'
  · rename_i r _
    cases hs'
    have hframe := (Frame.refl sc.env.consumer [] { s.world with started := true }).perform sc.env
      (r.1, r.2.filter (goesOut (s.channel sc.env.consumer)))
    have hsent := hp.sent hg hsc.toLaid hpace hparts { s.world with started := true } rfl hframe
      ⟨ρ, hok⟩
    refine ⟨fun x y hl => (hsent x y hl).1, fun x y hl => (hsent x y hl).2,
      fun x y hl j hj hhandled => hp.polls x y hl j hj ?_, hp.consumer⟩
    rwa [← hframe.handled x y fun hno => absurd hno.1 List.not_mem_nil]

/-- A node that polls polls again, and what it has left is on the way since not too long. -/
theorem Paced.receives (hp : Paced sc S s) (hg : Good sc P w₀ s) (hsc : Timely sc P)
    (hpace : Pacing sc S) (hparts : 0 < P.parts) {a : Address} {order : List Address}
    {past : Address → Nat → UInt64} {heap : Address → Nat → Nat → UInt8}
    (hen : Enabled sc s (.receiveDataFromAll a order past heap)) {s' : Simulation}
    (hs' : step sc s (.receiveDataFromAll a order past heap) = .ok s') : Paced sc S s' := by
  have hg' := (hg.step hsc hen).of_ok hs'
  obtain ⟨hnow, hperm⟩ := hen
  have hpeers : ∀ peer, peer ∈ order ↔ P.Linked peer a := by
    intro peer
    rw [hperm.mem_iff, List.mem_append, hsc.servers, hsc.clients]
    rfl
  unfold step at hs'
  dsimp only at hs'
  split at hs'
  · cases hs'
  · split at hs'
    · cases hs'
    · rename_i w hw
      cases hs'
      rw [hsc.env] at hw
      obtain ⟨ρ, hok⟩ := hg.ok
      obtain ⟨ρ', hok'⟩ : ∃ ρ', Ok P ρ' w := hg'.ok
      have hframe : Frame a order s.world w := .polls order hw
      have hsent := hp.sent hg hsc.toLaid hpace hparts s.world rfl hframe ⟨ρ', hok'⟩
      have hdrained := polls_drain order hok (fun peer hpeer => (hpeers peer).1 hpeer) hw
      have hgoes : (w.node a).asEnd = false := by
        by_contra hno
        obtain ⟨rfl, hstarted⟩ := (hok'.sim.node a).asEnd.1 (Bool.eq_true_of_not_eq_false hno)
        rw [← hok'.sim.started, hframe.started] at hstarted
        have hav := hg.average
        rw [if_neg (by rw [hstarted]; exact Bool.false_ne_true)] at hav
        exact absurd (hg.ahead _ hav) (Nat.not_le.2 (hp.consumer _ hnow))
      refine ⟨fun x y hl => (hsent x y hl).1, fun x y hl => (hsent x y hl).2,
        fun x y hl j hj hhandled => ?_, fun t ht => ?_⟩
      · have hhandled : (w.link x y).handled.length ≤ j := hhandled
        by_cases hy : y = a
        · subst hy
          refine ⟨s.now + milliSeconds 30, ?_, ?_⟩
          · show s.now + milliSeconds 30 ∈ Function.update s.nextPoll y _ y
            rw [Function.update_self, if_pos (.inl hgoes)]
            rfl
          · have hx := linked_ne hl
            have hstays := hframe.sent x y hx
            have hdue : s.now ≤ due S x y j + sc.net.longest := by
              rcases Nat.lt_or_ge j (w.link x y).sent.length with hlt | hge
              · have hstamps := (hsent x y hl).1
                rw [sent_of_ne s y w hx] at hstamps
                obtain ⟨t, ht, hle⟩ := exists_stamp hok' hl hstamps
                  (by rw [hg.stamps]; exact congrArg List.length (hframe.inflight x y hx).symm)
                  (hdrained x ((hpeers x).2 hl)) hhandled hlt
                have hfresh := hp.fresh x y hl t ht
                omega
              · rw [hstays] at hge
                exact (hp.unsent hg hsc.toLaid hpace hparts hl hj hge).trans (Nat.le_add_right _ _)
            have hhop := hpace.hop
            omega
        · rw [hframe.handled x y fun hno => hy hno.2] at hhandled
          obtain ⟨t, ht, hle⟩ := hp.polls x y hl j hj hhandled
          refine ⟨t, ?_, hle⟩
          show t ∈ Function.update s.nextPoll a _ y
          rw [Function.update_of_ne hy]
          exact ht
      · have ht : t ∈ Function.update s.nextPoll a _ P.tree.root := ht
        by_cases hroot : P.tree.root = a
        · subst hroot
          rw [Function.update_self, if_pos (.inl hgoes)] at ht
          cases ht
          exact Nat.lt_of_lt_of_le (hp.consumer _ hnow) (Nat.le_add_right _ _)
        · rw [Function.update_of_ne hroot] at ht
          exact hp.consumer t ht

theorem Paced.step (hp : Paced sc S s) (hg : Good sc P w₀ s) (hsc : Timely sc P)
    (hpace : Pacing sc S) (hparts : 0 < P.parts) {e : Event} (hen : Enabled sc s e)
    {s' : Simulation} (hs' : step sc s e = .ok s') : Paced sc S s' := by
  cases e with
  | wait d =>
    cases hs'
    exact hp.wait hsc.toLaid hen
  | average past => exact hp.averages hg hsc hpace hparts hen hs'
  | receiveDataFromAll a order past heap => exact hp.receives hg hsc hpace hparts hen hs'
  | ready a peer =>
    cases hs'
    exact ⟨hp.stamps, hp.fresh, hp.polls, hp.consumer⟩
  | arrives src dst n =>
    unfold Startup.step at hs'
    dsimp only at hs'
    split at hs'
    · cases hs'
    · rename_i w hw
      cases hs'
      have harr := Arrived.of_exec hw
      split
      · exact hp.arrives harr _
      · exact hp.arrives harr s.channel

end

/-! ## Deployments -/

section
variable {addrOf : String → Address} {t : RoseTree String} (h : IsAggTree addrOf t) {env : Env}
  (henv : env.consumer = addrOf t.label) {size : Nat} (hsize : chunkCount size < 256) {rounds : Nat}
  (hpos : 0 < rounds) (hrounds : rounds < 65536) {port : Nat} {apps : List App}
  (hd : Deployed addrOf rounds size port t apps) (garbage : Address → Nat)
  (heap : Address → Address → Nat → UInt8) {times : Role → Times} {net : Network}

end

section
variable {addrOf : String → Address} {t : RoseTree String} (h : IsAggTree addrOf t) {env : Env}
  (henv : env.consumer = addrOf t.label) {m : Nat} (hm : 1 ≤ m) (hm' : m ≤ 255) {rounds : Nat}
  (hpos : 0 < rounds) (hrounds : rounds < 65536) {port : Nat} {apps : List App}
  (hd : Deployed addrOf rounds (m * k) port t apps) (garbage : Address → Nat)
  (heap : Address → Address → Nat → UInt8) {times : Role → Times} {net : Network}

end

end Startup
end InNetworkAgg
