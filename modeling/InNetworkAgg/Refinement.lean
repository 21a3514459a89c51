import InNetworkAgg.Gather
import InNetworkAgg.World
import InNetworkAgg.Lib.Rounds

/-!
# The deployment runs rounds

A `Plan` is a tree of nodes with the vector every node should have in every
round.  `Sim` relates a world to the counters of the abstract protocol in
`Lib/Rounds`: chunk maps, logs and results are determined by how many requests
a node heard, rounds it finished and parts of its answers were taken.

`Handled` is what a message changes, whichever handler it goes to.
-/

namespace InNetworkAgg

open LittleEndian PartialRun SimpleMPI World Rounds

/-! ## Plan -/

/-- A tree of nodes, what they are set up with, and the vector of each in each round. -/
structure Plan where
  tree : Topology Address
  env : Env
  size : Nat
  rounds : Nat
  rank : Address → Nat
  value : Nat → Address → List UInt64
  consumer_eq : env.consumer = tree.root
  root_kids : tree.kids tree.root ≠ []
  width : ∀ p, (tree.kids p).length < 256
  chunks : chunkCount size < 256
  rounds_lt : rounds < 65536
  value_leaf : ∀ r v, tree.kids v = [] → value (r + 1) v = env.vector v r size (rank v)
  value_inner : ∀ r p, tree.kids p ≠ [] → value r p = meanVector size ((tree.kids p).map (value r))

namespace Plan

variable (P : Plan)

/-- The parts of an answer. -/
abbrev parts : Nat := chunkCount P.size

/-- The protocol the plan instantiates. -/
abbrev step : State Address → Rounds.Action Address → Option (State Address) :=
  Rounds.step P.tree P.parts P.rounds

theorem size_le : P.size ≤ 25500 := by
  have hk : k = 100 := rfl
  have := chunkCount_mul_le P.size
  have := P.chunks
  rw [hk] at *
  omega

theorem length_value (r : Nat) (v : Address) : (P.value (r + 1) v).length = P.size := by
  by_cases hv : P.tree.kids v = []
  · rw [P.value_leaf r v hv]
    exact length_genetrateRandomVector _ _ _ _
  · rw [P.value_inner _ v hv]
    exact length_meanVector _ _

theorem parent_ne {p v : Address} (h : v ∈ P.tree.kids p) : p ≠ v :=
  fun e => P.tree.asymm p v h (e ▸ h)

end Plan

/-! ## Links -/

/-- The messages that were sent and not handled. -/
def Link.pending (l : Link) : List (List UInt8) := (l.sent.drop l.handled.length).map Prod.snd

/-- The bytes on the way and in the ring are those of the pending messages. -/
structure Link.Flows (g : Nat) (l : Link) : Prop where
  ring : RingOk g l.chan.ring
  order : l.handled.length ≤ l.sent.length
  bytes : l.chan.ring.contents ++ l.chan.inflight = l.pending.flatten

theorem Link.Flows.sendAll {g : Nat} {l : Link} (h : l.Flows g) (stamp : Nat)
    (packets : List (List UInt8)) : (l.sendAll stamp packets).Flows g where
  ring := h.ring
  order := by
    have := h.order
    simp [Link.sendAll]
    omega
  bytes := by
    have hpending : (l.sendAll stamp packets).pending = l.pending ++ packets := by
      simp [Link.pending, Link.sendAll, List.drop_append_of_le_length h.order, Function.comp_def]
    rw [hpending, List.flatten_append, ← h.bytes, List.append_assoc]
    rfl

/-- `n` requests were sent down, `h` of them handled. -/
structure DownLog (size n h : Nat) (l : Link) : Prop where
  sent : l.sent = (List.range n).map fun j => (j, requestMessage size)
  handled : l.handled = (List.range h).map fun j => (j, requestMessage size)

/-- Part `j` of the answers with the vectors `value`. -/
def IsPart (m : Nat) (value : Nat → List UInt64) (j : Nat) (e : Nat × List UInt8) : Prop :=
  ∃ xs, ChunkOf (value (j / m + 1)) (j % m) xs ∧ e = (j / m + 1, chunkMessage (j % m * k) xs)

/-- `n` parts were sent up, `h` of them handled. -/
structure UpLog (m : Nat) (value : Nat → List UInt64) (n h : Nat) (l : Link) : Prop where
  length : l.sent.length = n
  parts : ∀ j e, l.sent[j]? = some e → IsPart m value j e
  handled : l.handled = l.sent.take h

theorem DownLog.pending {size n h : Nat} {l : Link} (hl : DownLog size n h l) :
    l.pending = List.replicate (n - h) (requestMessage size) := by
  rw [Link.pending, hl.sent, hl.handled, List.length_map, List.length_range, ← List.map_drop,
    List.map_map]
  refine List.eq_replicate_iff.2 ⟨by simp, fun b hb => ?_⟩
  obtain ⟨j, -, rfl⟩ := List.mem_map.1 hb
  rfl

theorem DownLog.sendAll {size n h : Nat} {l : Link} (hl : DownLog size n h l) :
    DownLog size (n + 1) h (l.sendAll n [requestMessage size]) where
  sent := by
    rw [Link.sendAll, hl.sent, List.range_succ, List.map_append]
    rfl
  handled := hl.handled

theorem UpLog.pending {m : Nat} {value : Nat → List UInt64} {n h : Nat} {l : Link}
    (hl : UpLog m value n h l) (hle : h ≤ n) : l.pending = (l.sent.drop h).map Prod.snd := by
  rw [Link.pending, hl.handled, List.length_take, hl.length, Nat.min_eq_left hle]

theorem part_div_mod {m d i : Nat} (hi : i < m) : (m * d + i) / m = d ∧ (m * d + i) % m = i := by
  rw [Nat.mul_add_div (by omega), Nat.div_eq_of_lt hi, Nat.mul_add_mod, Nat.mod_eq_of_lt hi]
  exact ⟨rfl, rfl⟩

/-- The parts of one more answer. -/
theorem UpLog.sendAll {m : Nat} {value : Nat → List UInt64} {d h : Nat} {l : Link}
    (hl : UpLog m value (m * d) h l) (hle : h ≤ m * d) (past : UInt64) :
    UpLog m value (m * (d + 1)) h
      (l.sendAll (d + 1) ((List.range m).map fun i => responseMessage past (value (d + 1)) (i * k))) where
  length := by
    simp [Link.sendAll, hl.length, Nat.mul_succ]
  parts := by
    intro j e he
    simp only [Link.sendAll] at he
    rcases Nat.lt_or_ge j (m * d) with hj | hj
    · rw [List.getElem?_append_left (by rw [hl.length]; exact hj)] at he
      exact hl.parts j e he
    · rw [List.getElem?_append_right (by rw [hl.length]; exact hj), hl.length, List.map_map,
        List.getElem?_map, Option.map_eq_some_iff] at he
      obtain ⟨i, hi, rfl⟩ := he
      obtain ⟨hilt, rfl⟩ := List.getElem?_eq_some_iff.1 hi
      rw [List.getElem_range]
      generalize hji : j - m * d = i at hilt
      obtain rfl : j = m * d + i := by omega
      obtain ⟨hdiv, hmod⟩ := part_div_mod (d := d) (show i < m by simpa using hilt)
      refine ⟨responseElements past (value (d + 1)) (i * k), ?_, ?_⟩
      · rw [hdiv, hmod]
        exact ⟨past, rfl⟩
      · rw [hdiv, hmod]
        rfl
  handled := by
    rw [Link.sendAll, hl.handled, List.take_append_of_le_length (by rw [hl.length]; exact hle)]

/-! ## The relation -/

/-- What the counters say about the node at `a`. -/
structure NodeOk (P : Plan) (ρ : State Address) (a : Address) (s : SimpleMPI) : Prop where
  cGroup : s.cGroup = P.tree.kids a
  sGroup : (∃ p, a ∈ P.tree.kids p ∧ s.sGroup = [p]) ∨ ((∀ p, a ∉ P.tree.kids p) ∧ s.sGroup = [])
  rank : s.rank = P.rank a
  maxIteration : s.maxIteration = if a = P.tree.root then P.rounds else 0
  asEnd : s.asEnd = true ↔ a = P.tree.root ∧ ρ.started = false
  curIter : P.tree.kids a ≠ [] → s.curIter = ρ.done a
  sizes : a = P.tree.root ∨ 0 < ρ.asked a → s.vsize = P.size ∧ s.avg.length = P.size
  chunks : P.tree.kids a ≠ [] →
    ChunksOk P.size (P.value (ρ.done a + 1)) (P.tree.kids a) (ρ.done a) ρ.taken s

/-- A call of `Simulator::Stop` by the root after its last round, or by an inner node that has
finished a round. -/
def StopOk (P : Plan) (ρ : State Address) (st : Address × Nat) : Prop :=
  (st.1 = P.tree.root ∧ P.rounds ≤ st.2) ∨
    (st.1 ≠ P.tree.root ∧ P.tree.kids st.1 ≠ [] ∧ 0 < ρ.done st.1)

structure Sim (P : Plan) (ρ : State Address) (w : World) : Prop where
  started : w.started = ρ.started
  node : ∀ a, NodeOk P ρ a (w.node a)
  requests : ∀ p v, v ∈ P.tree.kids p → w.requests v = ρ.asked v
  down : ∀ p v, v ∈ P.tree.kids p → DownLog P.size (ρ.asked p) (ρ.asked v) (w.link p v)
  up : ∀ p v, v ∈ P.tree.kids p →
    UpLog P.parts (P.value · v) (P.parts * ρ.done v) (ρ.taken v) (w.link v p)
  idle : ∀ a b, b ∉ P.tree.kids a → a ∉ P.tree.kids b → (w.link a b).chan.inflight = []
  results : ∀ a, P.tree.kids a ≠ [] →
    w.results a = (List.range (ρ.done a)).map fun r => P.value (r + 1) a
  stops : ∀ st ∈ w.stops, StopOk P ρ st

/-- A part that was sent, with the bounds its message needs. -/
theorem Sim.part {P : Plan} {ρ : State Address} {w : World} (h : Sim P ρ w) {p v : Address}
    (hv : v ∈ P.tree.kids p) {j : Nat} {e : Nat × List UInt8}
    (he : (w.link v p).sent[j]? = some e) :
    ∃ xs, ChunkOf (P.value (j / P.parts + 1) v) (j % P.parts) xs ∧
      e = (j / P.parts + 1, chunkMessage (j % P.parts * k) xs) ∧ xs.length ≤ k ∧
      j % P.parts * k < P.size := by
  have hup := h.up p v hv
  obtain ⟨xs, hxs, rfl⟩ := hup.parts j e he
  have hlt : j < P.parts * ρ.done v := by
    rw [← hup.length]
    exact (List.getElem?_eq_some_iff.1 he).1
  have hpos : 0 < P.parts := Nat.pos_of_mul_pos_right (Nat.lt_of_le_of_lt (Nat.zero_le _) hlt)
  have hmod := Nat.mod_lt j hpos
  have hlen := P.length_value (j / P.parts) v
  have hsize := P.size_le
  exact ⟨xs, hxs, rfl, hxs.length_le (by rw [hlen]; omega) (by rw [hlen]; exact hmod),
    (lt_chunkCount _ _).1 hmod⟩

theorem ChunksOk.congr {V : Nat} {vec : Address → List UInt64} {cs : List Address} {d : Nat}
    {taken taken' : Address → Nat} {s s' : SimpleMPI} (h : ChunksOk V vec cs d taken s)
    (htaken : ∀ u ∈ cs, taken' u = taken u) (hmap : s'.chunkMap = s.chunkMap) :
    ChunksOk V vec cs d taken' s' := by
  intro i hi
  have hsame : arrived V cs d taken' i = arrived V cs d taken i :=
    List.filter_congr fun u hu => by rw [htaken u hu]
  have hchunk : s'.chunk (i * k) = s.chunk (i * k) := by rw [chunk, chunk, hmap]
  rw [hsame, hchunk]
  exact h i hi

/-- The node looks only at some of the counters. -/
theorem NodeOk.congr {P : Plan} {ρ ρ' : State Address} {a : Address} {s : SimpleMPI}
    (h : NodeOk P ρ a s) (hstarted : a = P.tree.root → ρ'.started = ρ.started)
    (hdone : P.tree.kids a ≠ [] → ρ'.done a = ρ.done a)
    (hasked : a ≠ P.tree.root → ρ'.asked a = ρ.asked a)
    (htaken : ∀ u ∈ P.tree.kids a, ρ'.taken u = ρ.taken u) : NodeOk P ρ' a s where
  cGroup := h.cGroup
  sGroup := h.sGroup
  rank := h.rank
  maxIteration := h.maxIteration
  asEnd := h.asEnd.trans (and_congr_right fun ha => by rw [hstarted ha])
  curIter := fun hk => (h.curIter hk).trans (hdone hk).symm
  sizes := by
    intro ha
    by_cases hr : a = P.tree.root
    · exact h.sizes (Or.inl hr)
    · rw [hasked hr] at ha
      exact h.sizes ha
  chunks := fun hk => by
    rw [hdone hk]
    exact (h.chunks hk).congr htaken rfl

theorem StopOk.mono {P : Plan} {ρ ρ' : State Address} {st : Address × Nat} (h : StopOk P ρ st)
    (hdone : ρ.done st.1 ≤ ρ'.done st.1) : StopOk P ρ' st :=
  h.imp_right fun ⟨hr, hk, hd⟩ => ⟨hr, hk, Nat.lt_of_lt_of_le hd hdone⟩

theorem NodeOk.sGroup_kid {P : Plan} {ρ : State Address} {p v : Address} {s : SimpleMPI}
    (h : NodeOk P ρ v s) (hv : v ∈ P.tree.kids p) : s.sGroup = [p] := by
  rcases h.sGroup with ⟨q, hq, hs⟩ | ⟨hno, -⟩
  · rw [hs, P.tree.parent_unique q p v hq hv]
  · exact absurd hv (hno p)

theorem NodeOk.sGroup_length {P : Plan} {ρ : State Address} {a : Address} {s : SimpleMPI}
    (h : NodeOk P ρ a s) : s.sGroup.length ≤ 1 := by
  rcases h.sGroup with ⟨q, -, hs⟩ | ⟨-, hs⟩ <;> simp [hs]

theorem NodeOk.mem_sGroup {P : Plan} {ρ : State Address} {a p : Address} {s : SimpleMPI}
    (h : NodeOk P ρ a s) : p ∈ s.sGroup ↔ a ∈ P.tree.kids p := by
  constructor
  · intro hp
    rcases h.sGroup with ⟨q, hq, hs⟩ | ⟨-, hs⟩
    · rw [hs, List.mem_singleton] at hp
      rwa [hp]
    · rw [hs] at hp
      cases hp
  · intro ha
    rw [h.sGroup_kid ha]
    exact List.mem_singleton_self p

/-! ## A message is handled -/

/-- From `w` to `w'` node `a` has handled the message `entry` of `peer`, with the state `s` and
the effects `es`. -/
structure Handled (env : Env) (w w' : World) (peer a : Address) (entry : Nat × List UInt8)
    (s : SimpleMPI) (es : List Effect) : Prop where
  started : w'.started = w.started
  node : w'.node = Function.update w.node a s
  own : ∀ y, w'.link a y =
    (w.link a y).sendAll (if s.cGroup = [] then w'.requests a else s.curIter) (packetsTo y es)
  polled : w'.link peer a =
    { w.link peer a with handled := (w.link peer a).handled ++ [entry] }
  other : ∀ x y, x ≠ a → ¬ (x = peer ∧ y = a) → w'.link x y = w.link x y
  results : w'.results = Function.update w.results a (w.results a ++ answersIn es)
  stops : w'.stops = w.stops ++
    List.replicate (stopsIn es) (a, (Function.update w.node a s env.consumer).curIter)

theorem handled_log (env : Env) (w : World) {peer a : Address} (hne : peer ≠ a) (round : Nat)
    {g : Nat} {msg : List UInt8} (hmsg : Framed g msg) (tail : List UInt8)
    (requests : Address → Nat) (r : SimpleMPI × List Effect) :
    Handled env w ({ w.log peer a round (msg ++ tail) with requests := requests }.perform env a r)
      peer a (round, msg) r.1 r.2 where
  started := by rw [perform_started]; rfl
  node := by rw [perform_node]; rfl
  own := by
    intro y
    rw [perform_link_self, perform_requests]
    show ((w.log peer a round (msg ++ tail)).link a y).sendAll _ _ = _
    rw [World.log, setLink_of_ne _ _ _ _ fun h => hne h.1.symm]
  polled := by
    rw [perform_link_of_ne _ _ _ _ _ hne]
    show (w.log peer a round (msg ++ tail)).link peer a = _
    rw [World.log, setLink_self, hmsg.front]
  other := by
    intro x y hx hxy
    rw [perform_link_of_ne _ _ _ _ _ hx]
    show (w.log peer a round (msg ++ tail)).link x y = _
    rw [World.log, setLink_of_ne _ _ _ _ hxy]
  results := by rw [perform_results]; rfl
  stops := by rw [perform_stops]; rfl

/-- What is left to handle after it. -/
theorem Handled.pending {env : Env} {w w' : World} {peer a : Address} {entry : Nat × List UInt8}
    {s : SimpleMPI} {es : List Effect} (h : Handled env w w' peer a entry s es) :
    (w'.link peer a).pending = (w.link peer a).pending.tail := by
  rw [h.polled, Link.pending, Link.pending, List.length_append, List.length_singleton,
    ← List.map_tail, List.tail_drop]

end InNetworkAgg
