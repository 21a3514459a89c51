import InNetworkAgg.Untrusted

/-!
# Groups an 8-bit counter covers (`SendRequestVToAll`, `HandleResponseV`)

`DeepVectorCopy` installs groups of up to 65535 children.  The loop that sends
them the request has a `uint8_t` index, and the chunk that collects their
responses a `uint8_t` count, so both are right up to 255 children and no
further:

    one request to each child          ↔  at most 255 children     (sendsToEach_iff)
    the n-th response fires the test   ↔  at most 255 children     (firesWithLast_iff)

Behind the second is a tally of the responses for each offset since the chunk map
was cleared: the chunk counts it modulo 256 (`Tallied`).
-/

namespace InNetworkAgg

open PartialRun World

namespace SimpleMPI

/-! ## The requests -/

/-- `SendRequestVToAll` ends, and what it has sent is one request to each child. -/
def SendsToEach (s : SimpleMPI) : Prop :=
  ∀ size, s.sendRequestVToAll size = some (s.cGroup.map fun c => .send c (requestMessage size))

theorem sendsToEach_iff (s : SimpleMPI) : SendsToEach s ↔ s.cGroup.length ≤ 255 := by
  constructor
  · intro h
    have hends : (s.sendRequestVToAll 0).isSome = true := by
      rw [h 0]
      rfl
    have := (isSome_sendRequestVToAll_iff s 0).1 hends
    omega
  · intro h size
    exact sendRequestVToAll_eq s size (by omega)

/-! ## The responses -/

/-- A response in the message buffer of the receiver, which is longer than the message. -/
structure Response where
  offset : Nat
  elements : List UInt64
  rest : List UInt8
  /-- what the memory behind `avg` holds when the response is handled -/
  past : UInt64
  offset_lt : offset < 65536
  elements_le : elements.length ≤ k

def Response.buffer (r : Response) : List UInt8 := chunkMessage r.offset r.elements ++ r.rest

/-- What `PraseVector` makes of it. -/
def Response.vec (r : Response) : List UInt64 := r.elements ++ zeros (k - r.elements.length)

theorem Response.length_vec (r : Response) : r.vec.length = k := by
  have hle := r.elements_le
  simp only [vec, List.length_append, length_zeros]
  omega

/-- The test `chunkMap[offset].count == cGroup.size()`, made when `r` has been counted. -/
def Fires (s : SimpleMPI) (r : Response) : Prop :=
  ∃ t, s.addChunk r.offset r.vec = some t ∧ (t.chunk r.offset).count = t.cGroup.length

theorem handleResponseV_eq (s : SimpleMPI) (r : Response) :
    handleResponseV r.past s r.buffer = (s.addChunk r.offset r.vec).bind fun t =>
      if (t.chunk r.offset).count = t.cGroup.length then t.avgEnd r.past t.vsize
      else some (t, []) := by
  rw [Response.buffer, handleResponseV_spec _ s _ _ _ r.offset_lt r.elements_le]
  rfl

/-- The handler, with a tally of the responses for each offset beside the object.  The
tally starts anew when a round ends, as the chunk map does. -/
def tallyStep (st : SimpleMPI × (Nat → Nat)) (r : Response) : Option (SimpleMPI × (Nat → Nat)) :=
  (handleResponseV r.past st.1 r.buffer).map fun (t, es) =>
    (t, if answersIn es = [] then Function.update st.2 r.offset (st.2 r.offset + 1) else fun _ => 0)

/-- However the responses come in, at most one from each child for an offset of a
round: the test fires for an offset exactly with the last of its responses. -/
def FiresWithLast (s : SimpleMPI) : Prop :=
  ∀ rs st, runs tallyStep (s, fun _ => 0) rs = some st →
    Guarded tallyStep (fun st r => st.2 r.offset < s.cGroup.length) (s, fun _ => 0) rs →
    ∀ r : Response, st.2 r.offset < s.cGroup.length →
      (Fires st.1 r ↔ st.2 r.offset + 1 = s.cGroup.length)

/-! ## What the end of a round does to the chunks -/

theorem clearChunkMap_chunk (s : SimpleMPI) (o : Nat) : s.clearChunkMap.chunk o = .new := by
  simp only [clearChunkMap, chunk]
  cases s.chunkMap o <;> rfl

/-- The chunks stay as they are, or a vector is written and all of them are new. -/
structure RoundEnd (s : SimpleMPI) (r : SimpleMPI × List Effect) : Prop where
  cGroup : r.1.cGroup = s.cGroup
  stays : answersIn r.2 = [] → ∀ o, r.1.chunk o = s.chunk o
  cleared : answersIn r.2 ≠ [] → ∀ o, r.1.chunk o = .new

theorem doAVG_roundEnd {past : UInt64} {s : SimpleMPI} {r : SimpleMPI × List Effect}
    (h : s.doAVG past = some r) : RoundEnd s r := by
  rcases doAVG_cases h with ⟨-, rfl⟩ | ⟨-, u, answers, requests, hturn, hreq, rfl⟩
  · exact ⟨rfl, fun _ _ => rfl, fun hne => absurd rfl hne⟩
  · have hstop : answersIn (if u.maxIteration ≤ u.curIter then [Effect.stop] else []) = [] := by
      split <;> rfl
    have hans : answersIn (answers ++ (if u.maxIteration ≤ u.curIter then [Effect.stop] else []) ++
        requests) = answersIn answers := by
      rw [answersIn_append, answersIn_append, hstop, hreq.answersIn, List.append_nil,
        List.append_nil]
    cases hturn with
    | first => exact ⟨rfl, fun _ _ => rfl, fun hne => absurd hans hne⟩
    | later avg hsends =>
      refine ⟨rfl, fun hnil => ?_, fun _ => clearChunkMap_chunk _⟩
      rw [hans] at hnil
      cases hnil

/-! ## The tally -/

/-- The chunk of each offset counts the responses of the tally, as far as it can. -/
structure Tallied (n : Nat) (st : SimpleMPI × (Nat → Nat)) : Prop where
  group : st.1.cGroup.length = n
  count : ∀ o, (st.1.chunk o).count = st.2 o % 256
  length_data : ∀ o, (st.1.chunk o).data.length = k

theorem tallied_clear (s : SimpleMPI) (hclear : ∀ o, s.chunk o = .new) :
    Tallied s.cGroup.length (s, fun _ => 0) where
  group := rfl
  count o := by
    rw [hclear o]
    rfl
  length_data o := by
    rw [hclear o]
    exact length_zeros k

theorem fresh_chunk (vsize : Nat) (cGroup : List Address) (o : Nat) :
    ({ fresh vsize with cGroup := cGroup } : SimpleMPI).chunk o = .new := by
  unfold chunk fresh
  exact Option.getD_none

variable {n : Nat} {st : SimpleMPI × (Nat → Nat)}

/-- The response is counted; its chunk is as long as before. -/
theorem Tallied.addChunk (h : Tallied n st) (hn : 0 < n) (r : Response) :
    ∃ c, st.1.addChunk r.offset r.vec = some (st.1.setChunk r.offset c) ∧
      c.count = (st.2 r.offset + 1) % 256 ∧ c.data.length = k := by
  have hk : k = 100 := rfl
  have hgroup := h.group
  unfold SimpleMPI.addChunk
  dsimp only
  rw [if_pos ((h.length_data r.offset).trans r.length_vec.symm), h.count r.offset, Nat.mod_add_mod]
  split
  · rename_i hfull
    rw [avgVector_eq _ _ (by rw [length_sumVector, h.length_data]; omega) (by omega)]
    refine ⟨_, rfl, rfl, ?_⟩
    rw [List.length_map, length_sumVector, h.length_data]
  · refine ⟨_, rfl, rfl, ?_⟩
    rw [length_sumVector, h.length_data]

theorem Tallied.fires_iff (h : Tallied n st) (hn : 0 < n) (r : Response) :
    Fires st.1 r ↔ (st.2 r.offset + 1) % 256 = n := by
  obtain ⟨c, hadd, hcount, -⟩ := h.addChunk hn r
  unfold Fires
  rw [hadd]
  constructor
  · rintro ⟨t, ht, hfull⟩
    cases ht
    rwa [chunk_setChunk_self, hcount, setChunk_cGroup, h.group] at hfull
  · intro hfull
    refine ⟨_, rfl, ?_⟩
    rwa [chunk_setChunk_self, hcount, setChunk_cGroup, h.group]

/-- The counted response, when the chunks stay. -/
theorem Tallied.setChunk (h : Tallied n st) {offset : Nat} {c : MyChunk} {t : SimpleMPI}
    (hcount : c.count = (st.2 offset + 1) % 256) (hdata : c.data.length = k)
    (hgroup : t.cGroup = st.1.cGroup) (hchunk : ∀ o, t.chunk o = (st.1.setChunk offset c).chunk o) :
    Tallied n (t, Function.update st.2 offset (st.2 offset + 1)) := by
  refine ⟨by rw [hgroup, h.group], fun o => ?_, fun o => ?_⟩
  · show (t.chunk o).count = Function.update st.2 offset (st.2 offset + 1) o % 256
    rw [hchunk o]
    by_cases ho : o = offset
    · rw [ho, chunk_setChunk_self, Function.update_self, hcount]
    · rw [chunk_setChunk_of_ne _ _ _ _ ho, Function.update_of_ne ho, h.count]
  · rw [hchunk o]
    by_cases ho : o = offset
    · rw [ho, chunk_setChunk_self, hdata]
    · rw [chunk_setChunk_of_ne _ _ _ _ ho, h.length_data]

theorem Tallied.step (h : Tallied n st) (hn : 0 < n) {r : Response}
    {st' : SimpleMPI × (Nat → Nat)} (hstep : tallyStep st r = some st') : Tallied n st' := by
  obtain ⟨c, hadd, hcount, hdata⟩ := h.addChunk hn r
  obtain ⟨⟨t, es⟩, hr, rfl⟩ := Option.map_eq_some_iff.1 hstep
  rw [handleResponseV_eq, hadd, Option.bind_some] at hr
  dsimp only
  split at hr
  · have hend := doAVG_roundEnd hr
    split
    · rename_i hans
      exact h.setChunk hcount hdata hend.cGroup (hend.stays hans)
    · rename_i hans
      refine ⟨(congrArg List.length hend.cGroup).trans h.group, fun o => ?_, fun o => ?_⟩ <;>
        rw [hend.cleared hans o]
      · rfl
      · exact length_zeros k
  · cases hr
    exact h.setChunk hcount hdata rfl fun _ => rfl

/-- While the test does not fire a response is only counted. -/
theorem Tallied.tallyStep_eq (h : Tallied n st) (hn : 0 < n) {r : Response}
    (hfires : ¬ Fires st.1 r) :
    ∃ t, tallyStep st r = some (t, Function.update st.2 r.offset (st.2 r.offset + 1)) := by
  obtain ⟨c, hadd, -, -⟩ := h.addChunk hn r
  have hnot : ¬ ((st.1.setChunk r.offset c).chunk r.offset).count =
      (st.1.setChunk r.offset c).cGroup.length := fun hfull => hfires ⟨_, hadd, hfull⟩
  refine ⟨st.1.setChunk r.offset c, ?_⟩
  rw [tallyStep, handleResponseV_eq, hadd, Option.bind_some, if_neg hnot]
  rfl

/-- In a group the count cannot reach, any number of responses is taken without the test
firing. -/
theorem Tallied.runs_replicate (hn : 255 < n) (r : Response) (m : Nat) :
    ∀ st, Tallied n st → st.2 r.offset + m ≤ n →
      ∃ st', runs tallyStep st (List.replicate m r) = some st' ∧ Tallied n st' ∧
        st'.2 r.offset = st.2 r.offset + m ∧
        Guarded tallyStep (fun st r => st.2 r.offset < n) st (List.replicate m r) := by
  induction m with
  | zero => exact fun st h _ => ⟨st, rfl, h, rfl, trivial⟩
  | succ m ih =>
    intro st h hle
    have hnot : ¬ Fires st.1 r := by
      rw [h.fires_iff (by omega)]
      omega
    obtain ⟨t, ht⟩ := h.tallyStep_eq (by omega) hnot
    have hnext : (t, Function.update st.2 r.offset (st.2 r.offset + 1)).2 r.offset =
        st.2 r.offset + 1 := Function.update_self _ _ _
    obtain ⟨st', hruns, hst', htally, hguard⟩ := ih _ (h.step (by omega) ht) (by rw [hnext]; omega)
    refine ⟨st', ?_, hst', ?_, ?_⟩
    · rw [List.replicate_succ, runs_cons, ht]
      exact hruns
    · rw [htally, hnext]
      omega
    · rw [List.replicate_succ]
      refine ⟨by omega, fun u hu => ?_⟩
      rw [ht] at hu
      cases hu
      exact hguard

/-- An empty response for the first chunk. -/
def Response.zero : Response where
  offset := 0
  elements := []
  rest := []
  past := 0
  offset_lt := by decide
  elements_le := Nat.zero_le _

theorem firesWithLast_iff (s : SimpleMPI) (hpos : 0 < s.cGroup.length)
    (hclear : ∀ o, s.chunk o = .new) : FiresWithLast s ↔ s.cGroup.length ≤ 255 := by
  have hstart := tallied_clear s hclear
  constructor
  · intro h
    by_contra hlarge
    -- all responses but the last one are in
    obtain ⟨st, hruns, hst, htally, hguard⟩ := Tallied.runs_replicate (by omega) Response.zero
      (s.cGroup.length - 1) _ hstart (by dsimp only; omega)
    have htally : st.2 Response.zero.offset = s.cGroup.length - 1 := htally.trans (Nat.zero_add _)
    have hlast := (h _ st hruns hguard Response.zero (by omega)).2 (by omega)
    rw [hst.fires_iff hpos] at hlast
    omega
  · intro hle rs st hruns _ r htally
    have hst : Tallied s.cGroup.length st :=
      runs_invariant (I := Tallied s.cGroup.length) (fun _ _ _ h hs => h.step hpos hs) hstart hruns
    rw [hst.fires_iff hpos, Nat.mod_eq_of_lt (by omega)]

/-- Fan-out and fan-in of any group `DeepVectorCopy` installs, from a clear chunk map on. -/
theorem group_served_iff (s : SimpleMPI) (cGroup : List Address)
    (hgroup : s.cGroup = deepVectorCopy [] cGroup) (hpos : 1 ≤ cGroup.length)
    (hlen : cGroup.length ≤ 65535) (hclear : ∀ o, s.chunk o = .new) :
    (SendsToEach s ↔ cGroup.length ≤ 255) ∧ (FiresWithLast s ↔ cGroup.length ≤ 255) := by
  rw [deepVectorCopy_nil cGroup (by omega)] at hgroup
  constructor
  · rw [sendsToEach_iff, hgroup]
  · rw [firesWithLast_iff s (by rw [hgroup]; exact hpos) hclear, hgroup]

theorem group_served_iff_two :
    (SendsToEach { fresh 0 with cGroup := [7, 9] } ↔ 2 ≤ 255) ∧
      (FiresWithLast { fresh 0 with cGroup := [7, 9] } ↔ 2 ≤ 255) :=
  group_served_iff { fresh 0 with cGroup := [7, 9] } [7, 9] (by decide) (by decide) (by decide)
    (fresh_chunk 0 [7, 9])

/-- With 256 children the index and the count have wrapped before they get there. -/
theorem group_served_not_256 :
    ¬ SendsToEach { fresh 0 with cGroup := List.range 256 } ∧
      ¬ FiresWithLast { fresh 0 with cGroup := List.range 256 } := by
  have hlen : ({ fresh 0 with cGroup := List.range 256 } : SimpleMPI).cGroup.length = 256 := by
    simp only [List.length_range]
  rw [sendsToEach_iff, firesWithLast_iff _ (by omega) (fresh_chunk 0 _), hlen]
  omega

end SimpleMPI

end InNetworkAgg
