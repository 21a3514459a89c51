import InNetworkAgg.Responses

/-!
# One round, in any order of arrival

The `n` children of a node each send the `m` chunks of their vector, and the
messages reach `HandleResponseV` in any order.  After the messages `done`,
chunk `i` holds the parts `partsAt x i done` (`Collects`); the last message
completes every chunk at once:

    messages done handled, some left      →  nothing sent, nothing written   (Collects.receive_open)
    all messages handled                  →  avg[i * k + l] = (Σ x[j][i][l] mod 2 ^ 64) / n
                                                                   (round_any_order)

`SendResponseVToP` counts the parents in a `uint8_t` and never returns with 256 of
them, so the node has at most 255 (`RoundStart.parents`); every caller in the
repository gives it at most one.
-/

namespace InNetworkAgg

open PartialRun SimpleMPI World

/-! ## Messages -/

/-- Which message it is: chunk `.2` of child `.1`. -/
abbrev Part := Nat × Nat

/-- The message with part `p`, and what lies behind it in the buffer. -/
def partMessage (x : Nat → Nat → List UInt64) (tail : Part → List UInt8) (p : Part) : List UInt8 :=
  chunkMessage (p.2 * k) (x p.1 p.2) ++ tail p

/-- One message handled; the effects are collected. -/
def handle (past : UInt64) (st : SimpleMPI × List Effect) (buffer : List UInt8) :
    Option (SimpleMPI × List Effect) :=
  (handleResponseV past st.1 buffer).map fun r => (r.1, st.2 ++ r.2)

/-- The vectors for chunk `i` among the messages, in order. -/
def partsAt (x : Nat → Nat → List UInt64) (i : Nat) (done : List Part) : List (List UInt64) :=
  (done.filter (·.2 = i)).map fun p => x p.1 p.2

theorem partsAt_append (x : Nat → Nat → List UInt64) (i : Nat) (ps qs : List Part) :
    partsAt x i (ps ++ qs) = partsAt x i ps ++ partsAt x i qs := by
  simp [partsAt]

theorem partsAt_singleton (x : Nat → Nat → List UInt64) (i : Nat) (p : Part) :
    partsAt x i [p] = if p.2 = i then [x p.1 p.2] else [] := by
  by_cases h : p.2 = i <;> simp [partsAt, h]

theorem partsAt_perm (x : Nat → Nat → List UInt64) (i : Nat) {ps qs : List Part}
    (h : ps.Perm qs) : (partsAt x i ps).Perm (partsAt x i qs) := (h.filter _).map _

/-- Of all parts, chunk `i` gets one from each child. -/
theorem partsAt_product (x : Nat → Nat → List UInt64) {i m : Nat} (hi : i < m) (js : List Nat) :
    partsAt x i (js ×ˢ List.range m) = js.map fun j => x j i := by
  have hrange : (List.range m).filter (· = i) = [i] := by
    rw [List.filter_eq, List.count_eq_one_of_mem List.nodup_range (List.mem_range.2 hi)]
    rfl
  induction js with
  | nil => rfl
  | cons j js ih =>
    have hhead : partsAt x i ((List.range m).map (Prod.mk j)) = [x j i] := by
      rw [partsAt, List.filter_map]
      show (((List.range m).filter (· = i)).map (Prod.mk j)).map _ = _
      rw [hrange]
      rfl
    rw [List.product_cons, partsAt_append, hhead, ih]
    rfl

/-! ## In the middle of the round -/

/-- The node of the round and the parts it waits for. -/
structure RoundStart (s : SimpleMPI) (n m : Nat) (x : Nat → Nat → List UInt64) : Prop where
  children : s.cGroup.length = n
  n_pos : 1 ≤ n
  n_le : n ≤ 255
  vsize : s.vsize = m * k
  m_pos : 1 ≤ m
  m_le : m ≤ 255
  avg : s.avg.length = s.vsize
  asEnd : s.asEnd = false
  curIter : s.curIter < 65535
  chunkMap : ∀ o c, s.chunkMap o = some c → c = .new
  parents : s.sGroup.length < 256
  payload : ∀ j < n, ∀ i < m, (x j i).length = k

/-- The node after the messages `done`: each chunk holds the parts that came. -/
structure Collects (s : SimpleMPI) (n m : Nat) (x : Nat → Nat → List UInt64) (done : List Part)
    (u : SimpleMPI) : Prop where
  frame : { u with chunkMap := s.chunkMap } = s
  chunks : ∀ i < m, ChunkHolds n (partsAt x i done) (u.chunk (i * k))

section
variable {s : SimpleMPI} {n m : Nat} {x : Nat → Nat → List UInt64} {done : List Part}
  {u : SimpleMPI}

theorem RoundStart.collects (h : RoundStart s n m x) : Collects s n m x [] s where
  frame := rfl
  chunks := by
    intro i _
    have hchunk : s.chunk (i * k) = .new := by
      rw [chunk]
      cases hc : s.chunkMap (i * k) with
      | none => rfl
      | some c => exact h.chunkMap _ c hc
    rw [hchunk]
    exact ChunkHolds.new h.n_pos

theorem Collects.avg (h : Collects s n m x done u) : u.avg = s.avg := by rw [← h.frame]
theorem Collects.vsize (h : Collects s n m x done u) : u.vsize = s.vsize := by rw [← h.frame]
theorem Collects.asEnd (h : Collects s n m x done u) : u.asEnd = s.asEnd := by rw [← h.frame]
theorem Collects.curIter (h : Collects s n m x done u) : u.curIter = s.curIter := by rw [← h.frame]
theorem Collects.cGroup (h : Collects s n m x done u) : u.cGroup = s.cGroup := by rw [← h.frame]
theorem Collects.sGroup (h : Collects s n m x done u) : u.sGroup = s.sGroup := by rw [← h.frame]

/-- A part that is still missing is added to its chunk. -/
theorem Collects.add (hs : RoundStart s n m x) (h : Collects s n m x done u) {p : Part}
    (hp1 : p.1 < n) (hp2 : p.2 < m) (hmore : (partsAt x p.2 done).length < n) :
    ∃ c, u.addChunk (p.2 * k) (x p.1 p.2) = some (u.setChunk (p.2 * k) c) ∧
      Collects s n m x (done ++ [p]) (u.setChunk (p.2 * k) c) := by
  have hk : k = 100 := rfl
  have hgroup : u.cGroup.length = n := by rw [h.cGroup, hs.children]
  have hle := hs.n_le
  obtain ⟨c, hadd, hc⟩ := addChunk_spec u (p.2 * k) (partsAt x p.2 done) (x p.1 p.2)
    (by omega) (by omega) (hs.payload _ hp1 _ hp2) (by rw [hgroup]; exact h.chunks p.2 hp2)
  refine ⟨c, hadd, ⟨h.frame, fun i hi => ?_⟩⟩
  rw [partsAt_append, partsAt_singleton]
  by_cases hpi : p.2 = i
  · subst hpi
    rw [if_pos rfl, chunk_setChunk_self, ← hgroup]
    exact hc.perm (List.perm_append_singleton _ _).symm
  · rw [if_neg hpi, List.append_nil, chunk_setChunk_of_ne _ _ _ _ (by rw [hk]; omega)]
    exact h.chunks i hi

/-- The test of `AvgEnd` holds when every chunk got all its parts. -/
theorem Collects.roundComplete_iff (hs : RoundStart s n m x) (h : Collects s n m x done u) :
    u.roundComplete u.vsize = true ↔ ∀ i < m, (partsAt x i done).length = n := by
  have hgroup : u.cGroup.length = n := by rw [h.cGroup, hs.children]
  have hrange : range u.vsize = m := by
    rw [h.vsize, hs.vsize, range, chunkCount_mul]
    exact Nat.mod_eq_of_lt (by have := hs.m_le; omega)
  have hn := hs.n_pos
  have hle := hs.n_le
  rw [SimpleMPI.roundComplete_iff u (by omega) (by omega), hrange, hgroup]
  constructor
  · intro hall i hi
    rw [← hall i hi, (h.chunks i hi).count]
  · intro hall i hi
    rw [(h.chunks i hi).count, hall i hi]

/-- Handling a message is receiving its chunk. -/
theorem RoundStart.handleResponseV_part (hs : RoundStart s n m x) (past : UInt64) (u : SimpleMPI)
    (tail : Part → List UInt8) {p : Part} (hp1 : p.1 < n) (hp2 : p.2 < m) :
    handleResponseV past u (partMessage x tail p) =
      receiveChunk past u (p.2 * k) (x p.1 p.2) := by
  have hk : k = 100 := rfl
  have hlen := hs.payload _ hp1 _ hp2
  have hm := hs.m_le
  have hz : zeros (k - (x p.1 p.2).length) = [] := by
    rw [hlen, Nat.sub_self]
    rfl
  rw [partMessage, handleResponseV_spec past u _ _ _ (by rw [hk]; omega) (by omega), hz,
    List.append_nil]

/-- A message after which parts are missing sends and writes nothing. -/
theorem Collects.receive_open (hs : RoundStart s n m x) (h : Collects s n m x done u) (past : UInt64)
    (tail : Part → List UInt8) {p : Part} (hp1 : p.1 < n) (hp2 : p.2 < m)
    (hmore : (partsAt x p.2 done).length < n)
    (hopen : ∃ i < m, (partsAt x i (done ++ [p])).length < n) :
    ∃ u', handleResponseV past u (partMessage x tail p) = some (u', []) ∧
      Collects s n m x (done ++ [p]) u' := by
  obtain ⟨c, hadd, hc⟩ := h.add hs hp1 hp2 hmore
  refine ⟨_, ?_, hc⟩
  rw [hs.handleResponseV_part past u tail hp1 hp2]
  refine receiveChunk_open past u _ _ _ hadd (by rw [hc.asEnd, hs.asEnd]) ?_
  rw [← Bool.not_eq_true, hc.roundComplete_iff hs]
  intro hall
  obtain ⟨i, hi, hlt⟩ := hopen
  have := hall i hi
  omega

/-- What the completion branch writes: the mean of the parts, chunk by chunk. -/
theorem Collects.roundAvg (hs : RoundStart s n m x) (h : Collects s n m x done u)
    (hall : ∀ i < m, (partsAt x i done).Perm ((List.range n).map fun j => x j i))
    {i l : Nat} (hi : i < m) (hl : l < k) :
    u.roundAvg[i * k + l]? = some (UInt64.ofNat
      (((List.range n).map fun j => ((x j i).getD l 0).toNat).sum % 2 ^ 64 / n)) := by
  have hk : k = 100 := rfl
  have hle := hs.n_le
  have hvsize : u.vsize = m * k := by rw [h.vsize, hs.vsize]
  have hcount : chunkCount u.vsize = m := by rw [hvsize, chunkCount_mul]
  have hlen : ((List.range n).map fun j => x j i).length = n := by simp
  have hdata : (u.chunk (i * k)).data = chunkAvg ((List.range n).map fun j => x j i) := by
    rw [((h.chunks i hi).perm (hall i hi)).data, hlen, if_pos rfl]
  have hin : i * k + l < u.vsize := by
    rw [hvsize]
    have := Nat.mul_le_mul_right k (Nat.succ_le_of_lt hi)
    rw [Nat.succ_mul] at this
    omega
  have hdiv : (i * k + l) / k = i := by rw [hk]; omega
  have hmod : (i * k + l) % k = l := by rw [hk]; omega
  rw [getElem?_roundAvg u (by rw [hcount]; have := hs.m_le; omega) (by rw [h.avg, hs.avg, h.vsize])
    (fun i' hi' => (h.chunks i' (by rw [hcount] at hi'; exact hi')).length_data), if_pos hin, hdiv, hmod,
    hdata, List.getElem?_eq_getElem (by simpa using hl)]
  congr 1
  apply UInt64.toNat_inj.1
  rw [getElem_chunkAvg_toNat _ _ (by simpa using hl) (by rw [hlen]; omega), hlen, List.map_map]
  have hlt := Nat.mod_lt (((List.range n).map fun j => ((x j i).getD l 0).toNat).sum)
    (show 0 < 2 ^ 64 by decide)
  rw [UInt64.toNat_ofNat', Nat.mod_eq_of_lt (Nat.lt_of_le_of_lt (Nat.div_le_self _ _) hlt)]
  rfl

/-- The message after which no part is missing completes the round. -/
theorem Collects.receive_complete (hs : RoundStart s n m x) (h : Collects s n m x done u)
    (past : UInt64) (tail : Part → List UInt8) {p : Part} (hp1 : p.1 < n) (hp2 : p.2 < m)
    (hmore : (partsAt x p.2 done).length < n)
    (hall : ∀ i < m, (partsAt x i (done ++ [p])).length = n) :
    ∃ u', Collects s n m x (done ++ [p]) u' ∧
      handleResponseV past u (partMessage x tail p) =
        some (u'.finishRound, roundEffects past s u'.roundAvg) := by
  have hk : k = 100 := rfl
  obtain ⟨c, hadd, hc⟩ := h.add hs hp1 hp2 hmore
  have hle := hs.n_le
  have hm := hs.m_le
  have hfull : ((u.setChunk (p.2 * k) c).chunk (p.2 * k)).count =
      (u.setChunk (p.2 * k) c).cGroup.length := by
    rw [(hc.chunks p.2 hp2).count, hall p.2 hp2, hc.cGroup, hs.children]
  refine ⟨_, hc, ?_⟩
  rw [hs.handleResponseV_part past u tail hp1 hp2, receiveChunk_complete past u _ _ _ hadd hfull,
    avgEnd_complete_eq past _ ((hc.roundComplete_iff hs).2 hall)
      (by rw [hc.curIter]; exact hs.curIter) (by rw [hc.cGroup, hs.children]; omega)
      (by rw [hc.sGroup]; exact hs.parents) (by rw [hc.avg, hs.avg, hs.vsize, hk]; omega)]
  -- the effects only depend on what the round leaves alone
  conv => rhs; rw [← hc.frame]
  rfl

/-! ## The whole round -/

/-- Every pair of a child and a chunk, once each. -/
def EachOnce (n m : Nat) (order : List Part) : Prop :=
  order.Perm (List.range n ×ˢ List.range m)

theorem EachOnce.partsAt {order : List Part} (h : EachOnce n m order) {i : Nat} (hi : i < m) :
    (partsAt x i order).Perm ((List.range n).map fun j => x j i) := by
  rw [← partsAt_product x hi (List.range n)]
  exact partsAt_perm x i h

theorem EachOnce.mem {order : List Part} (h : EachOnce n m order) {p : Part} (hp : p ∈ order) :
    p.1 < n ∧ p.2 < m := by
  have hp' := List.pair_mem_product.1 (h.subset hp)
  exact ⟨List.mem_range.1 hp'.1, List.mem_range.1 hp'.2⟩

/-- Before a message its chunk has a part less. -/
theorem EachOnce.missing {before after : List Part} {p : Part}
    (h : EachOnce n m (before ++ p :: after)) : (InNetworkAgg.partsAt x p.2 before).length < n := by
  have hp := h.mem (p := p) (by simp)
  have hlen := (h.partsAt (x := x) hp.2).length_eq
  rw [List.append_cons, partsAt_append, partsAt_append, partsAt_singleton, if_pos rfl] at hlen
  simp at hlen
  omega

/-- Up to the last message nothing is sent. -/
theorem Collects.runs (hs : RoundStart s n m x) (past : UInt64) (tail : Part → List UInt8)
    {order : List Part} (h : EachOnce n m order) (before : List Part) :
    ∀ p after, order = before ++ p :: after →
      ∃ u, PartialRun.runs (handle past) (s, []) (before.map (partMessage x tail)) = some (u, []) ∧
        Collects s n m x before u := by
  induction before using List.reverseRecOn with
  | nil => exact fun _ _ _ => ⟨s, rfl, hs.collects⟩
  | append_singleton before q ih =>
    intro p after horder
    rw [List.append_assoc, List.singleton_append] at horder
    subst horder
    obtain ⟨u, hu, hc⟩ := ih q _ rfl
    have hq := h.mem (p := q) (by simp)
    have hp := h.mem (p := p) (by simp)
    have hopen : (InNetworkAgg.partsAt x p.2 (before ++ [q])).length < n := by
      rw [List.append_cons] at h
      exact h.missing
    obtain ⟨u', hu', hc'⟩ := hc.receive_open hs past tail hq.1 hq.2 h.missing ⟨p.2, hp.2, hopen⟩
    refine ⟨u', ?_, hc'⟩
    rw [List.map_append, runs_append, hu, Option.bind_some, List.map_singleton, runs_cons, handle, hu']
    rfl

/-- What a round is, for its messages in one order. -/
structure RoundRun (s : SimpleMPI) (n m : Nat) (x : Nat → Nat → List UInt64) (past : UInt64)
    (messages : List (List UInt8)) : Prop where
  /-- before the last message is handled, nothing is sent and nothing written -/
  quiet : ∀ before last after, messages = before ++ last :: after →
    ∃ u, PartialRun.runs (handle past) (s, []) before = some (u, []) ∧
      u.avg = s.avg ∧ u.curIter = s.curIter
  /-- afterwards the completion branch has run once, and the node is ready for the next round -/
  complete : ∃ t es, PartialRun.runs (handle past) (s, []) messages = some (t, es) ∧
    answersIn es = [t.avg] ∧
    (∀ i < m, ∀ l < k, t.avg[i * k + l]? = some (UInt64.ofNat
      (((List.range n).map fun j => ((x j i).getD l 0).toNat).sum % 2 ^ 64 / n))) ∧
    t.curIter = s.curIter + 1 ∧ t.asEnd = false ∧
    ∀ o c, t.chunkMap o = some c → c = .new

/-- **One round at one node** with at most 255 parents, whatever the order in which the messages
arrive. -/
theorem round_any_order (hs : RoundStart s n m x) (past : UInt64) (tail : Part → List UInt8)
    (order : List Part) (h : EachOnce n m order) :
    RoundRun s n m x past (order.map (partMessage x tail)) := by
  have hne : order ≠ [] := by
    rintro rfl
    have hlen := List.Perm.length_eq h
    rw [List.length_product, List.length_range, List.length_range, List.length_nil] at hlen
    have := Nat.mul_pos hs.n_pos hs.m_pos
    omega
  refine ⟨fun before last after hsplit => ?_, ?_⟩
  · obtain ⟨done, rest, rfl, rfl, hrest⟩ := List.map_eq_append_iff.1 hsplit
    obtain ⟨p, after', rfl, -, -⟩ := List.map_eq_cons_iff.1 hrest
    obtain ⟨u, hu, hc⟩ := Collects.runs hs past tail h done p after' rfl
    exact ⟨u, hu, hc.avg, hc.curIter⟩
  · obtain ⟨done, p, rfl⟩ := List.eq_nil_or_concat order |>.resolve_left hne
    rw [List.concat_eq_append] at h ⊢
    obtain ⟨u, hu, hc⟩ := Collects.runs hs past tail h done p [] rfl
    have hp := h.mem (p := p) (by simp)
    have hall : ∀ i < m, (InNetworkAgg.partsAt x i (done ++ [p])).length = n := by
      intro i hi
      rw [(h.partsAt (x := x) hi).length_eq]
      simp
    obtain ⟨t, ht, hlast⟩ := hc.receive_complete hs past tail hp.1 hp.2 h.missing hall
    refine ⟨t.finishRound, roundEffects past s t.roundAvg, ?_, answersIn_roundEffects _ _ _,
      fun i hi l hl => ht.roundAvg hs (fun i hi => h.partsAt hi) hi hl, ?_, rfl,
      finishRound_chunkMap t⟩
    · rw [List.map_append, runs_append, hu, Option.bind_some, List.map_singleton, runs_cons, handle,
        hlast]
      rfl
    · rw [finishRound_curIter, ht.curIter]

end

/-- A parent of two nodes at the start of a round of two chunks. -/
def twoChildren : SimpleMPI :=
  { SimpleMPI.fresh (2 * k) with cGroup := [1, 2], avg := zeros (2 * k), maxIteration := 1 }

/-- Both children send ones. -/
def ones (_j _i : Nat) : List UInt64 := List.replicate k 1

theorem twoChildren_start : RoundStart twoChildren 2 2 ones where
  children := rfl
  n_pos := by decide
  n_le := by decide
  vsize := rfl
  m_pos := by decide
  m_le := by decide
  avg := length_zeros _
  asEnd := rfl
  curIter := by decide
  chunkMap := nofun
  parents := by decide
  payload := fun _ _ _ _ => List.length_replicate

theorem round_any_order_two : RoundRun twoChildren 2 2 ones 0
    ([(1, 1), (0, 0), (0, 1), (1, 0)].map (partMessage ones fun _ => [])) :=
  round_any_order twoChildren_start 0 (fun _ => []) [(1, 1), (0, 0), (0, 1), (1, 0)]
    (by decide : List.Perm _ _)

end InNetworkAgg
