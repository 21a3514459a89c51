import InNetworkAgg.Refinement

/-!
# A request is handled (`ReceiveRequestV`)

    Sim ρ w, a request is at the front  →  Sim (ρ.hear v) (onRequest … w)    (onRequest_spec)
-/

namespace InNetworkAgg

open LittleEndian PartialRun SimpleMPI World Rounds

section
variable (env : Env) {w : World} {peer a : Address} {size : Nat}

/-- A node without children answers a request. -/
theorem onRequest_leaf (hne : peer ≠ a) (hleaf : (w.node a).cGroup = []) (hsize : size ≤ 65500)
    (past : Nat → UInt64) (tail : List UInt8) :
    ∃ w', onRequest env past a peer w (requestMessage size ++ tail) = some w' ∧
      w'.requests = Function.update w.requests a (w.requests a + 1) ∧
      Handled env w w' peer a (w.requests a, requestMessage size)
        { w.node a with vsize := size, avg := zeros size }
        ((List.range (chunkCount size)).map fun i => .send peer (responseMessage
          (past (w.link peer a).handled.length)
          (env.vector a (w.requests a) size (w.node a).rank) (i * k))) := by
  have hlen : (env.vector a (w.requests a) size (w.node a).rank).length = size :=
    length_genetrateRandomVector _ _ _ _
  have hd := handled_log env w hne (w.requests a) (framed_requestMessage size) tail
    (Function.update w.requests a (w.requests a + 1))
  rw [onRequest, handleRequestV_spec _ _ _ _ _ _ (by omega) (by rw [hleaf]; decide), if_pos hleaf,
    sendResponseVTo_eq _ _ _ (by omega), hlen]
  exact ⟨_, rfl, by rw [perform_requests], hd (_, _)⟩

/-- Any other node passes it on. -/
theorem onRequest_inner (hne : peer ≠ a) (hinner : (w.node a).cGroup ≠ [])
    (hwidth : (w.node a).cGroup.length < 256) (hsize : size < 65536) (past : Nat → UInt64)
    (tail : List UInt8) :
    ∃ w', onRequest env past a peer w (requestMessage size ++ tail) = some w' ∧
      w'.requests = Function.update w.requests a (w.requests a + 1) ∧
      Handled env w w' peer a (w.requests a, requestMessage size)
        { w.node a with vsize := size, avg := zeros size }
        ((w.node a).cGroup.map fun c => .send c (requestMessage size)) := by
  have hd := handled_log env w hne (w.requests a) (framed_requestMessage size) tail
    (Function.update w.requests a (w.requests a + 1))
  rw [onRequest, handleRequestV_spec _ _ _ _ _ _ hsize hwidth, if_neg hinner]
  exact ⟨_, rfl, by rw [perform_requests], hd (_, _)⟩

end
section
variable {P : Plan} {ρ : State Address} {w w' : World} {p v : Address}

/-- Handling a request: a leaf answers it, any other node passes it on. -/
structure Heard (P : Plan) (ρ : State Address) (w w' : World) (p v : Address) (past : UInt64)
    (es : List Effect) : Prop where
  handled : Handled P.env w w' p v (ρ.asked v, requestMessage P.size)
    { w.node v with vsize := P.size, avg := zeros P.size } es
  requests : w'.requests = Function.update w.requests v (ρ.asked v + 1)
  leaf : P.tree.kids v = [] → es = (List.range P.parts).map fun i =>
    .send p (responseMessage past (P.value (ρ.asked v + 1) v) (i * k))
  inner : P.tree.kids v ≠ [] → es = (P.tree.kids v).map fun c => .send c (requestMessage P.size)

namespace Heard

variable {past : UInt64} {es : List Effect} (hd : Heard P ρ w w' p v past es)

include hd

theorem packetsTo_eq_nil {y : Address} (hy : y ∉ P.tree.kids v) (hyp : y ≠ p) : packetsTo y es = [] := by
  by_cases hl : P.tree.kids v = []
  · rw [hd.leaf hl, packetsTo_responses, if_neg (Ne.symm hyp)]
  · rw [hd.inner hl, packetsTo_requests _ _ (P.tree.kids_nodup v), if_neg hy]

theorem sends : Sends es := by
  by_cases hl : P.tree.kids v = []
  · rw [hd.leaf hl]
    exact Sends.map _ (fun _ => p) _
  · rw [hd.inner hl]
    exact Sends.map _ id _

theorem node (h : Sim P ρ w) (a : Address) : NodeOk P (ρ.hear P.tree v) a (w'.node a) := by
  rw [hd.handled.node]
  by_cases hav : a = v
  · subst hav
    rw [Function.update_self]
    have hn := h.node a
    have hdone : P.tree.kids a ≠ [] → (ρ.hear P.tree a).done a = ρ.done a := by
      intro hl
      rw [State.hear_done, if_neg fun e => hl e.2]
    refine ⟨hn.cGroup, hn.sGroup, hn.rank, hn.maxIteration, hn.asEnd, fun hl => ?_,
      fun _ => ⟨rfl, length_zeros _⟩, fun hl => ?_⟩
    · rw [hdone hl]
      exact hn.curIter hl
    · rw [hdone hl]
      exact (hn.chunks hl).congr (fun _ _ => rfl) rfl
  · rw [Function.update_of_ne hav]
    refine (h.node a).congr (fun _ => rfl) (fun _ => ?_) (fun _ => ?_) fun _ _ => rfl
    · rw [State.hear_done, if_neg fun e => hav e.1]
    · rw [State.hear_asked, if_neg hav]

/-- The request leaves the link from the parent, and goes out to the children. -/
theorem down (h : Sim P ρ w) (hinv : Inv P.tree P.parts P.rounds ρ) (hv : v ∈ P.tree.kids p)
    (hlt : ρ.asked v < ρ.asked p) {q u : Address} (hu : u ∈ P.tree.kids q) :
    DownLog P.size ((ρ.hear P.tree v).asked q) ((ρ.hear P.tree v).asked u) (w'.link q u) := by
  rw [State.hear_asked, State.hear_asked]
  by_cases huv : u = v
  · -- the link the request came over
    subst huv
    obtain rfl : q = p := P.tree.parent_unique q p u hu hv
    have hlog := h.down q u hv
    rw [if_neg (P.parent_ne hv), if_pos rfl, hd.handled.polled]
    refine ⟨hlog.sent, ?_⟩
    rw [hlog.handled, List.range_succ, List.map_append]
    rfl
  · rw [if_neg huv]
    by_cases hqv : q = v
    · -- the links to the children: every round it was asked for is finished
      subst hqv
      have hl : P.tree.kids q ≠ [] := List.ne_nil_of_mem hu
      have hdone : ρ.done q = ρ.asked q := by
        have he := hinv.edge p q hv
        have := (hinv.edge q u hu).done_le_asked_parent
        have := he.asked_le_done
        have := he.done_le
        omega
      rw [if_pos rfl, hd.handled.own, hd.inner hl, packetsTo_requests _ _ (P.tree.kids_nodup q),
        if_pos hu, if_neg (by exact (h.node q).cGroup ▸ hl), (h.node q).curIter hl, hdone]
      exact (h.down q u hu).sendAll
    · rw [if_neg hqv, hd.handled.other q u hqv fun e => huv e.2]
      exact h.down q u hu

/-- The answer of a leaf is on its way to the parent. -/
theorem up (h : Sim P ρ w) (hinv : Inv P.tree P.parts P.rounds ρ) (hv : v ∈ P.tree.kids p)
    {q u : Address} (hu : u ∈ P.tree.kids q) :
    UpLog P.parts (P.value · u) (P.parts * (ρ.hear P.tree v).done u) ((ρ.hear P.tree v).taken u)
      (w'.link u q) := by
  by_cases huv : u = v
  · subst huv
    obtain rfl : q = p := P.tree.parent_unique q p u hu hv
    rw [hd.handled.own]
    by_cases hl : P.tree.kids u = []
    · have hreq : w'.requests u = ρ.asked u + 1 := by rw [hd.requests, Function.update_self]
      have hdone : ρ.done u = ρ.asked u := hinv.leaf q u hu hl
      have hlog := h.up q u hu
      rw [State.hear_done, if_pos ⟨rfl, hl⟩, if_pos (by exact (h.node u).cGroup.trans hl), hreq,
        hd.leaf hl, packetsTo_responses, if_pos rfl, hdone]
      rw [hdone] at hlog
      exact hlog.sendAll (by rw [← hdone]; exact (hinv.edge q u hu).taken_le) past
    · rw [State.hear_done, if_neg fun e => hl e.2, hd.inner hl,
        packetsTo_requests _ _ (P.tree.kids_nodup u), if_neg (P.tree.asymm q u hu), Link.sendAll_nil]
      exact h.up q u hu
  · have hpolled : ¬ (u = p ∧ q = v) := by
      rintro ⟨rfl, rfl⟩
      exact P.tree.asymm _ _ hu hv
    rw [State.hear_done, if_neg fun e => huv e.1, hd.handled.other u q huv hpolled]
    exact h.up q u hu

end Heard

/-- A request has been handled. -/
theorem Sim.hear (h : Sim P ρ w) (hinv : Inv P.tree P.parts P.rounds ρ)
    (hv : v ∈ P.tree.kids p) (hlt : ρ.asked v < ρ.asked p) (past : UInt64) {es : List Effect}
    (hd : Heard P ρ w w' p v past es) : Sim P (ρ.hear P.tree v) w' := by
  refine ⟨?_, hd.node h, fun q u hu => ?_, fun q u hu => hd.down h hinv hv hlt hu,
    fun q u hu => hd.up h hinv hv hu, fun a b hab hba => ?_, fun a ha => ?_, ?_⟩
  · rw [hd.handled.started]
    exact h.started
  · rw [hd.requests, State.hear_asked]
    by_cases huv : u = v
    · subst huv
      rw [Function.update_self, if_pos rfl]
    · rw [Function.update_of_ne huv, if_neg huv]
      exact h.requests q u hu
  · by_cases hav : a = v
    · subst hav
      have hbp : b ≠ p := fun e => hba (e ▸ hv)
      rw [hd.handled.own, hd.packetsTo_eq_nil hab hbp, Link.sendAll_nil]
      exact h.idle a b hab hba
    · have hpolled : ¬ (a = p ∧ b = v) := fun e => hab (e.1 ▸ e.2 ▸ hv)
      rw [hd.handled.other a b hav hpolled]
      exact h.idle a b hab hba
  · have hno : ¬ (a = v ∧ P.tree.kids v = []) := fun e => ha (e.1 ▸ e.2)
    rw [hd.handled.results, hd.sends.answersIn, List.append_nil, Function.update_eq_self,
      h.results a ha, State.hear_done, if_neg hno]
  · intro st hst
    rw [hd.handled.stops, hd.sends.stopsIn, List.replicate_zero, List.append_nil] at hst
    refine (h.stops st hst).mono ?_
    rw [State.hear_done]
    split
    · rename_i e
      rw [e.1]
      exact Nat.le_succ _
    · exact Nat.le_refl _

/-- A request at the front of a link is handled, and that is a step of the protocol. -/
theorem onRequest_spec (h : Sim P ρ w) (hinv : Inv P.tree P.parts P.rounds ρ)
    (hv : v ∈ P.tree.kids p) (hlt : ρ.asked v < ρ.asked p) (past : Nat → UInt64)
    (tail : List UInt8) :
    ∃ w' s es, onRequest P.env past v p w (requestMessage P.size ++ tail) = some w' ∧
      Sim P (ρ.hear P.tree v) w' ∧
      Handled P.env w w' p v (ρ.asked v, requestMessage P.size) s es := by
  have hsize := P.size_le
  have hcg : (w.node v).cGroup = P.tree.kids v := (h.node v).cGroup
  have hreq : w.requests v = ρ.asked v := h.requests p v hv
  by_cases hl : P.tree.kids v = []
  · obtain ⟨w', hw', hreq', hd⟩ := onRequest_leaf P.env (P.parent_ne hv) (hcg.trans hl)
      (show P.size ≤ 65500 by omega) past tail
    rw [hreq, (h.node v).rank, ← P.value_leaf _ _ hl] at hd
    rw [hreq] at hreq'
    exact ⟨w', _, _, hw', h.hear hinv hv hlt _ ⟨hd, hreq', fun _ => rfl, fun hne => absurd hl hne⟩, hd⟩
  · obtain ⟨w', hw', hreq', hd⟩ := onRequest_inner P.env (P.parent_ne hv)
      (by rw [hcg]; exact hl) (by rw [hcg]; exact P.width v) (show P.size < 65536 by omega) past tail
    rw [hreq, hcg] at hd
    rw [hreq] at hreq'
    exact ⟨w', _, _, hw', h.hear hinv hv hlt 0
      ⟨hd, hreq', fun hnil => absurd hnil hl, fun _ => rfl⟩, hd⟩

end

end InNetworkAgg
