import InNetworkAgg.Refinement

/-!
# A response is handled (`ReceiveResponseVFrom`)

    Sim ρ w, a response is at the front  →  Sim (ρ.take p v) (onResponse … w)    (onResponse_spec)

The last response of a round ends it (`Finished`), any other is only counted.
-/

namespace InNetworkAgg

open LittleEndian PartialRun SimpleMPI World Rounds

section
variable {P : Plan} {ρ : State Address} {w w' : World} {p v : Address}

/-- Handling part of an answer: `ρ'` differs from `ρ` in the taken part and at most in what `p`
has finished and asked for, and the effects are those of that difference. -/
structure Took (P : Plan) (ρ ρ' : State Address) (w w' : World) (p v : Address)
    (entry : Nat × List UInt8) (s : SimpleMPI) (es : List Effect) : Prop where
  handled : Handled P.env w w' v p entry s es
  requests : w'.requests = w.requests
  entry : (w.link v p).sent[ρ.taken v]? = some entry
  started : ρ'.started = ρ.started
  taken : ρ'.taken = Function.update ρ.taken v (ρ.taken v + 1)
  done : ∀ a, a ≠ p → ρ'.done a = ρ.done a
  done_le : ρ.done p ≤ ρ'.done p
  asked : ∀ a, a ≠ p ∨ a ≠ P.tree.root → ρ'.asked a = ρ.asked a
  node : NodeOk P ρ' p s
  down : ∀ u ∈ P.tree.kids p, DownLog P.size (ρ'.asked p) (ρ.asked u)
    ((w.link p u).sendAll s.curIter (packetsTo u es))
  up : ∀ q, p ∈ P.tree.kids q → UpLog P.parts (P.value · p) (P.parts * ρ'.done p) (ρ.taken p)
    ((w.link p q).sendAll s.curIter (packetsTo q es))
  idle : ∀ b, b ∉ P.tree.kids p → p ∉ P.tree.kids b → packetsTo b es = []
  results : w.results p ++ answersIn es = (List.range (ρ'.done p)).map fun r => P.value (r + 1) p
  stop : stopsIn es ≠ 0 → StopOk P ρ' (p, (Function.update w.node p s P.env.consumer).curIter)

namespace Took

variable {ρ' : State Address} {entry : Nat × List UInt8} {s : SimpleMPI} {es : List Effect}
  (hd : Took P ρ ρ' w w' p v entry s es) (hv : v ∈ P.tree.kids p)

include hd

theorem taken_of_ne {u : Address} (hu : u ≠ v) : ρ'.taken u = ρ.taken u := by
  rw [hd.taken, Function.update_of_ne hu]

/-- No child has been asked. -/
theorem asked_kid {q u : Address} (hu : u ∈ P.tree.kids q) : ρ'.asked u = ρ.asked u :=
  hd.asked u (Or.inr fun hr => P.tree.root_not_kid q (hr ▸ hu))

include hv

/-- What `p` sends it sends in the round it is in. -/
theorem own (y : Address) : w'.link p y = (w.link p y).sendAll s.curIter (packetsTo y es) := by
  rw [hd.handled.own, if_neg]
  rw [hd.node.cGroup]
  exact List.ne_nil_of_mem hv

theorem node_all (h : Sim P ρ w) (a : Address) : NodeOk P ρ' a (w'.node a) := by
  rw [hd.handled.node]
  by_cases hap : a = p
  · subst hap
    rw [Function.update_self]
    exact hd.node
  · rw [Function.update_of_ne hap]
    refine (h.node a).congr (fun _ => hd.started) (fun _ => hd.done a hap)
      (fun _ => hd.asked a (Or.inl hap)) fun u hu => hd.taken_of_ne ?_
    rintro rfl
    exact hap (P.tree.parent_unique _ _ _ hu hv)

theorem down_all (h : Sim P ρ w) {q u : Address} (hu : u ∈ P.tree.kids q) :
    DownLog P.size (ρ'.asked q) (ρ'.asked u) (w'.link q u) := by
  rw [hd.asked_kid hu]
  by_cases hqp : q = p
  · subst hqp
    rw [hd.own hv]
    exact hd.down u hu
  · have hpolled : ¬ (q = v ∧ u = p) := by
      rintro ⟨rfl, rfl⟩
      exact P.tree.asymm _ _ hu hv
    rw [hd.handled.other q u hqp hpolled, hd.asked q (Or.inl hqp)]
    exact h.down q u hu

theorem up_all (h : Sim P ρ w) {q u : Address} (hu : u ∈ P.tree.kids q) :
    UpLog P.parts (P.value · u) (P.parts * ρ'.done u) (ρ'.taken u) (w'.link u q) := by
  by_cases hup : u = p
  · subst hup
    rw [hd.own hv, hd.taken_of_ne (P.parent_ne hv)]
    exact hd.up q hu
  · rw [hd.done u hup]
    by_cases huv : u = v
    · -- the link the part came over
      subst huv
      obtain rfl : q = p := P.tree.parent_unique q p u hu hv
      have hlog := h.up q u hu
      rw [hd.handled.polled, hd.taken, Function.update_self]
      refine ⟨hlog.length, hlog.parts, ?_⟩
      show _ ++ [entry] = _
      rw [hlog.handled, List.take_add_one, hd.entry]
      rfl
    · rw [hd.handled.other u q hup fun e => huv e.1, hd.taken_of_ne huv]
      exact h.up q u hu

end Took

/-- Part of an answer has been handled. -/
theorem Sim.took {ρ' : State Address} (h : Sim P ρ w) (hv : v ∈ P.tree.kids p)
    {entry : Nat × List UInt8} {s : SimpleMPI} {es : List Effect}
    (hd : Took P ρ ρ' w w' p v entry s es) : Sim P ρ' w' := by
  refine ⟨?_, hd.node_all hv h, fun q u hu => ?_, fun q u hu => hd.down_all hv h hu,
    fun q u hu => hd.up_all hv h hu, fun a b hab hba => ?_, fun a ha => ?_, ?_⟩
  · rw [hd.handled.started, hd.started]
    exact h.started
  · rw [hd.requests, hd.asked_kid hu]
    exact h.requests q u hu
  · by_cases hap : a = p
    · subst hap
      rw [hd.own hv, hd.idle b hab hba, Link.sendAll_nil]
      exact h.idle a b hab hba
    · have hpolled : ¬ (a = v ∧ b = p) := fun e => hba (e.1 ▸ e.2 ▸ hv)
      rw [hd.handled.other a b hap hpolled]
      exact h.idle a b hab hba
  · rw [hd.handled.results]
    by_cases hap : a = p
    · subst hap
      rw [Function.update_self]
      exact hd.results
    · rw [Function.update_of_ne hap, hd.done a hap]
      exact h.results a ha
  · intro st hst
    rw [hd.handled.stops, List.mem_append] at hst
    rcases hst with hst | hst
    · refine (h.stops st hst).mono ?_
      by_cases hsp : st.1 = p
      · rw [hsp]
        exact hd.done_le
      · rw [hd.done _ hsp]
    · obtain ⟨hne, rfl⟩ := List.mem_replicate.1 hst
      exact hd.stop hne
end

/-! ## The end of a round -/

section
variable (past : UInt64) (s : SimpleMPI) (avg : List UInt64)

theorem packetsTo_roundEffects (hparent : s.sGroup.length ≤ 1) (hc : s.cGroup.Nodup) (y : Address) :
    packetsTo y (roundEffects past s avg) =
      (if y ∈ s.sGroup then
        (List.range (chunkCount avg.length)).map fun i => responseMessage past avg (i * k) else []) ++
      (if y ∈ s.cGroup ∧ s.curIter + 1 < s.maxIteration then [requestMessage s.vsize] else []) := by
  have hup : packetsTo y (s.sGroup.flatMap fun p => (List.range (chunkCount avg.length)).map fun i =>
      .send p (responseMessage past avg (i * k))) = if y ∈ s.sGroup then
        (List.range (chunkCount avg.length)).map fun i => responseMessage past avg (i * k) else [] := by
    cases hs : s.sGroup with
    | nil => rfl
    | cons p ps =>
      obtain rfl : ps = [] := by
        rw [hs] at hparent
        exact List.length_eq_zero_iff.1 (by simpa using hparent)
      rw [List.flatMap_singleton, packetsTo_responses]
      simp only [List.mem_singleton, eq_comm]
  have hstop : packetsTo y (if s.maxIteration ≤ s.curIter + 1 then [.stop] else []) = [] := by
    split <;> rfl
  have hdown : packetsTo y (if s.curIter + 1 < s.maxIteration then
      .newRequest :: s.cGroup.map fun c => .send c (requestMessage s.vsize) else []) =
      if y ∈ s.cGroup ∧ s.curIter + 1 < s.maxIteration then [requestMessage s.vsize] else [] := by
    by_cases hlt : s.curIter + 1 < s.maxIteration
    · rw [if_pos hlt]
      simp only [hlt, and_true]
      exact packetsTo_requests y s.cGroup hc _
    · rw [if_neg hlt, if_neg fun e => hlt e.2]
      rfl
  rw [roundEffects, packetsTo_append, packetsTo_append, hdown, hstop, List.append_nil]
  exact congrArg (· ++ _) hup

theorem sends_parents : Sends (s.sGroup.flatMap fun p =>
    (List.range (chunkCount avg.length)).map fun i => .send p (responseMessage past avg (i * k))) := by
  intro e he
  obtain ⟨p, -, he⟩ := List.mem_flatMap.1 he
  exact Sends.map _ (fun _ => p) _ e he

theorem answersIn_roundEffects : answersIn (roundEffects past s avg) = [avg] := by
  rw [roundEffects, answersIn_append, answersIn_append]
  have hup := (sends_parents past s avg).answersIn
  have hstop : answersIn (if s.maxIteration ≤ s.curIter + 1 then [.stop] else []) = [] := by
    split <;> rfl
  have hdown : answersIn (if s.curIter + 1 < s.maxIteration then
      .newRequest :: s.cGroup.map fun c => .send c (requestMessage s.vsize) else []) = [] := by
    split
    · exact (Sends.map s.cGroup id _).answersIn
    · rfl
  rw [hstop, hdown, List.append_nil, List.append_nil]
  exact congrArg (avg :: ·) hup

theorem stopsIn_roundEffects :
    stopsIn (roundEffects past s avg) = if s.maxIteration ≤ s.curIter + 1 then 1 else 0 := by
  rw [roundEffects, stopsIn_append, stopsIn_append]
  have hup := (sends_parents past s avg).stopsIn
  have hstop : stopsIn (if s.maxIteration ≤ s.curIter + 1 then [.stop] else []) =
      if s.maxIteration ≤ s.curIter + 1 then 1 else 0 := by
    split <;> rfl
  have hdown : stopsIn (if s.curIter + 1 < s.maxIteration then
      .newRequest :: s.cGroup.map fun c => .send c (requestMessage s.vsize) else []) = 0 := by
    split
    · exact (Sends.map s.cGroup id _).stopsIn
    · rfl
  have hhead : stopsIn (.answer avg :: s.sGroup.flatMap fun p =>
      (List.range (chunkCount avg.length)).map fun i => .send p (responseMessage past avg (i * k))) =
      0 := hup
  rw [hstop, hdown, hhead, Nat.zero_add, Nat.add_zero]

end

section
variable {P : Plan} {ρ : State Address} {w : World} {p v : Address}

/-- A node whose child has answered is in the middle of a round. -/
theorem NodeOk.gathers {s : SimpleMPI} (h : NodeOk P ρ p s) (hinv : Inv P.tree P.parts P.rounds ρ)
    (hv : v ∈ P.tree.kids p) (hlt : ρ.taken v < P.parts * ρ.done v) :
    Gathers P.size (P.value (ρ.done p + 1)) (P.tree.kids p) (ρ.done p) ρ.taken s ∧
      ρ.done p + 1 ≤ ρ.asked p := by
  have he := hinv.edge p v hv
  have hl : P.tree.kids p ≠ [] := List.ne_nil_of_mem hv
  have hasked : ρ.done p + 1 ≤ ρ.asked p := by
    have := (he.part hlt).1
    have := he.done_le_asked
    have := he.asked_le
    omega
  obtain ⟨hsize, havg⟩ := h.sizes (Or.inr (by omega))
  refine ⟨⟨h.cGroup, hsize, havg, h.curIter hl, ?_, h.chunks hl⟩, hasked⟩
  rw [← Bool.not_eq_true, h.asEnd]
  rintro ⟨rfl, hs⟩
  have := (hinv.not_started hs hl).1
  omega

/-- The next message from `v` to `p` is part `i` of the round that `p` is in. -/
structure NextPart (P : Plan) (ρ : State Address) (w : World) (p v : Address) (i : Nat)
    (xs : List UInt64) : Prop where
  index : i < P.parts
  taken : ρ.taken v = P.parts * ρ.done p + i
  chunk : ChunkOf (P.value (ρ.done p + 1) v) i xs
  sent : (w.link v p).sent[ρ.taken v]? = some (ρ.done p + 1, chunkMessage (i * k) xs)
  length_le : xs.length ≤ k
  offset_lt : i * k < P.size

theorem Sim.nextPart (h : Sim P ρ w) (hinv : Inv P.tree P.parts P.rounds ρ)
    (hv : v ∈ P.tree.kids p) (hlt : ρ.taken v < P.parts * ρ.done v) {entry : Nat × List UInt8}
    (hentry : (w.link v p).sent[ρ.taken v]? = some entry) :
    ∃ i xs, NextPart P ρ w p v i xs ∧ entry = (ρ.done p + 1, chunkMessage (i * k) xs) := by
  obtain ⟨-, i, hi, htaken⟩ := (hinv.edge p v hv).part hlt
  obtain ⟨xs, hxs, rfl, hle, hik⟩ := h.part hv hentry
  obtain ⟨hdiv, hmod⟩ := part_div_mod (d := ρ.done p) hi
  rw [htaken, hmod] at hik
  rw [htaken, hdiv, hmod] at hxs
  have hindex : (ρ.taken v / P.parts + 1, chunkMessage (ρ.taken v % P.parts * k) xs) =
      (ρ.done p + 1, chunkMessage (i * k) xs) := by
    rw [htaken, hdiv, hmod]
  exact ⟨i, xs, ⟨hi, htaken, hxs, hentry.trans (congrArg some hindex), hle, hik⟩, hindex⟩

/-- Node `p` has finished its round and is in state `s`. -/
structure Finished (P : Plan) (ρ : State Address) (w : World) (p v : Address) (s : SimpleMPI) :
    Prop where
  gathers : Gathers P.size (P.value (ρ.done p + 1 + 1)) (P.tree.kids p) (ρ.done p + 1)
    (Function.update ρ.taken v (ρ.taken v + 1)) s
  sGroup : s.sGroup = (w.node p).sGroup
  maxIteration : s.maxIteration = (w.node p).maxIteration
  rank : s.rank = (w.node p).rank

/-- The packets of a finished round: the answer to the parent, and the requests of the root. -/
theorem Sim.finish_packets (h : Sim P ρ w) (hl : P.tree.kids p ≠ []) (hsize : (w.node p).vsize = P.size)
    (past : UInt64) (y : Address) :
    packetsTo y (roundEffects past (w.node p) (P.value (ρ.done p + 1) p)) =
      (if p ∈ P.tree.kids y then (List.range P.parts).map fun i =>
        responseMessage past (P.value (ρ.done p + 1) p) (i * k) else []) ++
      (if y ∈ P.tree.kids p ∧ p = P.tree.root ∧ ρ.done p + 1 < P.rounds then
        [requestMessage P.size] else []) := by
  have hn := h.node p
  have hroot : ρ.done p + 1 < (if p = P.tree.root then P.rounds else 0) ↔
      p = P.tree.root ∧ ρ.done p + 1 < P.rounds := by
    split <;> simp [*]
  rw [packetsTo_roundEffects _ _ _ hn.sGroup_length (by rw [hn.cGroup]; exact P.tree.kids_nodup p),
    P.length_value, hsize, hn.cGroup, hn.curIter hl, hn.maxIteration]
  simp only [hn.mem_sGroup, hroot]

/-- The links to the children: the root asks for the next round. -/
theorem Sim.finish_down (h : Sim P ρ w) (hinv : Inv P.tree P.parts P.rounds ρ)
    (hstarted : p = P.tree.root → ρ.started = true) {u : Address} (hu : u ∈ P.tree.kids p)
    (hasked : ρ.done p + 1 ≤ ρ.asked p) (hsize : (w.node p).vsize = P.size) (past : UInt64) :
    DownLog P.size (((ρ.takePart v).finish P.tree P.rounds p).asked p) (ρ.asked u)
      ((w.link p u).sendAll (ρ.done p + 1)
        (packetsTo u (roundEffects past (w.node p) (P.value (ρ.done p + 1) p)))) := by
  have hlog := h.down p u hu
  rw [h.finish_packets (List.ne_nil_of_mem hu) hsize, if_neg (P.tree.asymm p u hu), List.nil_append,
    State.finish_asked]
  show DownLog P.size (if p = p ∧ p = P.tree.root ∧ ρ.done p + 1 < P.rounds then ρ.asked p + 1
    else ρ.asked p) _ _
  by_cases hnext : p = P.tree.root ∧ ρ.done p + 1 < P.rounds
  · have hroot := hinv.root
    rw [hstarted hnext.1, if_pos rfl, ← hnext.1] at hroot
    have hone : ρ.asked p = ρ.done p + 1 := by omega
    rw [if_pos ⟨rfl, hnext⟩, if_pos ⟨hu, hnext⟩, hone]
    rw [hone] at hlog
    exact hlog.sendAll
  · rw [if_neg fun e => hnext e.2, if_neg fun e => hnext e.2, Link.sendAll_nil]
    exact hlog

/-- The link to the parent: one more answer. -/
theorem Sim.finish_up (h : Sim P ρ w) (hinv : Inv P.tree P.parts P.rounds ρ)
    (hl : P.tree.kids p ≠ []) (hsize : (w.node p).vsize = P.size) {q : Address}
    (hq : p ∈ P.tree.kids q) (past : UInt64) :
    UpLog P.parts (P.value · p) (P.parts * (ρ.done p + 1)) (ρ.taken p)
      ((w.link p q).sendAll (ρ.done p + 1)
        (packetsTo q (roundEffects past (w.node p) (P.value (ρ.done p + 1) p)))) := by
  have hkid : q ∉ P.tree.kids p := P.tree.asymm q p hq
  rw [h.finish_packets hl hsize, if_pos hq, if_neg fun e => hkid e.1, List.append_nil]
  exact (h.up q p hq).sendAll (hinv.edge q p hq).taken_le _

theorem finish_done_self :
    ((ρ.takePart v).finish P.tree P.rounds p).done p = ρ.done p + 1 := by
  rw [State.finish_done, if_pos rfl]
  rfl

theorem Finished.node {s : SimpleMPI} (hf : Finished P ρ w p v s) (hn : NodeOk P ρ p (w.node p))
    (hstarted : p = P.tree.root → ρ.started = true) :
    NodeOk P ((ρ.takePart v).finish P.tree P.rounds p) p s where
  cGroup := hf.gathers.cGroup
  sGroup := by
    rw [hf.sGroup]
    exact hn.sGroup
  rank := hf.rank.trans hn.rank
  maxIteration := hf.maxIteration.trans hn.maxIteration
  asEnd := by
    rw [hf.gathers.asEnd]
    refine iff_of_false Bool.false_ne_true fun ⟨hr, hs⟩ => ?_
    exact Bool.false_ne_true (hs.symm.trans (hstarted hr))
  curIter := fun _ => hf.gathers.curIter.trans finish_done_self.symm
  sizes := fun _ => ⟨hf.gathers.vsize, hf.gathers.avg⟩
  chunks := fun _ => by
    rw [finish_done_self]
    exact hf.gathers.chunks

/-- Who stops the simulation with that round. -/
theorem Finished.stop {s : SimpleMPI} (hf : Finished P ρ w p v s) (h : Sim P ρ w)
    (hl : P.tree.kids p ≠ []) (past : UInt64) (avg : List UInt64)
    (hstop : stopsIn (roundEffects past (w.node p) avg) ≠ 0) :
    StopOk P ((ρ.takePart v).finish P.tree P.rounds p)
      (p, (Function.update w.node p s P.env.consumer).curIter) := by
  have hn := h.node p
  rw [stopsIn_roundEffects, hn.maxIteration, hn.curIter hl] at hstop
  by_cases hr : p = P.tree.root
  · rw [if_pos hr] at hstop
    refine Or.inl ⟨hr, ?_⟩
    rw [P.consumer_eq, ← hr, Function.update_self]
    show P.rounds ≤ s.curIter
    rw [hf.gathers.curIter]
    by_contra hcon
    exact hstop (if_neg (by omega))
  · refine Or.inr ⟨hr, hl, ?_⟩
    show 0 < ((ρ.takePart v).finish P.tree P.rounds p).done p
    rw [finish_done_self]
    exact Nat.succ_pos _

section
variable {i : Nat} {xs : List UInt64} (hpart : NextPart P ρ w p v i xs)

include hpart in
/-- What `HandleResponseV` makes of the node, its effects make of the world. -/
theorem NextPart.onResponse (h : Sim P ρ w) (hv : v ∈ P.tree.kids p) (past : Nat → UInt64)
    (tail : List UInt8) {r : SimpleMPI × List Effect}
    (hr : receiveChunk (past (w.link v p).handled.length) (w.node p) (i * k) (pad xs) = some r) :
    ∃ w', onResponse P.env past p v w (chunkMessage (i * k) xs ++ tail) = some w' ∧
      w'.requests = w.requests ∧
      Handled P.env w w' v p (ρ.done p + 1, chunkMessage (i * k) xs) r.1 r.2 := by
  have hsize := P.size_le
  have hd := handled_log P.env w (P.parent_ne hv).symm ((w.node p).curIter + 1)
    (framed_chunkMessage (i * k) xs hpart.length_le) tail w.requests r
  have hiter := (h.node p).curIter (List.ne_nil_of_mem hv)
  rw [hiter] at hd
  have := hpart.offset_lt
  rw [World.onResponse, handleResponseV_spec _ _ _ _ _ (by omega) hpart.length_le,
    show xs ++ zeros (k - xs.length) = pad xs from rfl, hr, hiter]
  exact ⟨_, rfl, by rw [perform_requests]; rfl, hd⟩

include hpart in
/-- A part after which others are missing. -/
theorem NextPart.onResponse_open (h : Sim P ρ w) (hinv : Inv P.tree P.parts P.rounds ρ)
    (hv : v ∈ P.tree.kids p) (hlt : ρ.taken v < P.parts * ρ.done v)
    (hc : ¬ (ρ.takePart v).Complete P.tree P.parts p) (past : Nat → UInt64) (tail : List UInt8) :
    ∃ w' s es, World.onResponse P.env past p v w (chunkMessage (i * k) xs ++ tail) = some w' ∧
      Sim P (ρ.takePart v) w' ∧
      Handled P.env w w' v p (ρ.done p + 1, chunkMessage (i * k) xs) s es := by
  have hn := h.node p
  obtain ⟨hgathers, -⟩ := hn.gathers hinv hv hlt
  obtain ⟨c, hs', hg'⟩ := hgathers.receive_open (past (w.link v p).handled.length)
    (P.tree.kids_nodup p) (P.width p) P.chunks hv hpart.index hpart.taken hpart.chunk
    hpart.length_le hc
  obtain ⟨w', hw', hrequests, hd⟩ := hpart.onResponse h hv past tail hs'
  refine ⟨w', _, _, hw', ?_, hd⟩
  refine h.took hv ⟨hd, hrequests, hpart.sent, rfl, rfl, fun _ _ => rfl, Nat.le_refl _,
    fun _ _ => rfl, ?_, fun u hu => ?_, fun q hq => ?_, fun _ _ _ => rfl, ?_,
    fun hstop => absurd rfl hstop⟩
  · exact ⟨hn.cGroup, hn.sGroup, hn.rank, hn.maxIteration, hn.asEnd, hn.curIter, hn.sizes,
      fun _ => hg'.chunks⟩
  · exact (Link.sendAll_nil _ _).symm ▸ h.down p u hu
  · exact (Link.sendAll_nil _ _).symm ▸ h.up q p hq
  · exact (List.append_nil _).trans (h.results p (List.ne_nil_of_mem hv))

include hpart in
/-- The last part of a round: the node answers its parent, or goes on to the next round. -/
theorem NextPart.onResponse_complete (h : Sim P ρ w) (hinv : Inv P.tree P.parts P.rounds ρ)
    (hv : v ∈ P.tree.kids p) (hlt : ρ.taken v < P.parts * ρ.done v)
    (hc : (ρ.takePart v).Complete P.tree P.parts p) (past : Nat → UInt64) (tail : List UInt8) :
    ∃ w' s es, World.onResponse P.env past p v w (chunkMessage (i * k) xs ++ tail) = some w' ∧
      Sim P ((ρ.takePart v).finish P.tree P.rounds p) w' ∧
      Handled P.env w w' v p (ρ.done p + 1, chunkMessage (i * k) xs) s es := by
  have hn := h.node p
  have hl : P.tree.kids p ≠ [] := List.ne_nil_of_mem hv
  have hinv' := hinv.takePart hlt
  obtain ⟨hgathers, hasked⟩ := hn.gathers hinv hv hlt
  have hsize := hgathers.vsize
  have hstarted : p = P.tree.root → ρ.started = true := by
    intro hr
    by_contra hs
    have hend := hn.asEnd.2 ⟨hr, Bool.eq_false_of_not_eq_true hs⟩
    rw [hgathers.asEnd] at hend
    cases hend
  have hmean : meanVector P.size ((P.tree.kids p).map (P.value (ρ.done p + 1))) =
      P.value (ρ.done p + 1) p := (P.value_inner _ p hl).symm
  obtain ⟨s', hs', hg', hsg, hmax, hrank⟩ := hgathers.receive_complete
    (past (w.link v p).handled.length) (P.tree.kids_nodup p) (P.width p) P.chunks
    (fun u _ => P.length_value _ u)
    (by have := hinv.asked_le p; have := P.rounds_lt; omega) hn.sGroup_length hv hpart.index
    hpart.taken hpart.chunk hpart.length_le hc (fun u hu => (hinv'.edge p u hu).taken_lt)
    (P.value (ρ.done p + 1 + 1))
  rw [hmean] at hs'
  have hf : Finished P ρ w p v s' := ⟨hg', hsg, hmax, hrank⟩
  obtain ⟨w', hw', hrequests, hd⟩ := hpart.onResponse h hv past tail hs'
  refine ⟨w', _, _, hw', ?_, hd⟩
  refine h.took hv ⟨hd, hrequests, hpart.sent, rfl, rfl, fun a ha => ?_, ?_, fun a ha => ?_,
    hf.node hn hstarted, fun u hu => ?_, fun q hq => ?_, fun b hb hb' => ?_, ?_, hf.stop h hl _ _⟩
  · rw [State.finish_done, if_neg ha]
    rfl
  · rw [finish_done_self]
    exact Nat.le_succ _
  · rw [State.finish_asked, if_neg]
    · rfl
    · rintro ⟨rfl, hr, -⟩
      exact ha.elim (fun hne => hne rfl) fun hne => hne hr
  · rw [hg'.curIter]
    exact h.finish_down hinv hstarted hu hasked hsize _
  · rw [hg'.curIter, finish_done_self]
    exact h.finish_up hinv hl hsize hq _
  · rw [h.finish_packets hl hsize, if_neg hb', if_neg fun e => hb e.1]
    rfl
  · rw [answersIn_roundEffects, h.results p hl, finish_done_self, List.range_succ, List.map_append]
    rfl

end

/-- A part of an answer at the front of a link is handled, and that is a step of the protocol. -/
theorem onResponse_spec (h : Sim P ρ w) (hinv : Inv P.tree P.parts P.rounds ρ)
    (hv : v ∈ P.tree.kids p) (hlt : ρ.taken v < P.parts * ρ.done v) {entry : Nat × List UInt8}
    (hentry : (w.link v p).sent[ρ.taken v]? = some entry) (past : Nat → UInt64)
    (tail : List UInt8) :
    ∃ w' s es, onResponse P.env past p v w (entry.2 ++ tail) = some w' ∧
      Sim P (ρ.take P.tree P.parts P.rounds p v) w' ∧ Handled P.env w w' v p entry s es := by
  obtain ⟨i, xs, hpart, rfl⟩ := h.nextPart hinv hv hlt hentry
  unfold State.take
  split
  · exact hpart.onResponse_complete h hinv hv hlt ‹_› past tail
  · exact hpart.onResponse_open h hinv hv hlt ‹_› past tail

end

end InNetworkAgg
