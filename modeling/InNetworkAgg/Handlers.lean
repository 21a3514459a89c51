import InNetworkAgg.SimpleMPI

/-!
# The handlers on the messages the senders build

`requestMessage` and `responseMessage` are the packets of `SendRequestVTo` and
`SendResponseVTo`.  On them the handlers do what their names say:

    handleRequestV … (requestMessage size ++ _) = forward the request, or answer it   (handleRequestV_spec)
    handleResponseV … (chunkMessage o xs ++ _) = receiveChunk … o (xs padded to k)     (handleResponseV_spec)

and `receiveChunk` either leaves the round open (`receiveChunk_open`) or
completes it (`receiveChunk_complete`).
-/

namespace InNetworkAgg

open LittleEndian

/-! ## Chunk offsets -/

theorem chunkCount_eq (n : Nat) : chunkCount n = n / 100 + if n % 100 ≠ 0 then 1 else 0 := rfl

theorem lt_chunkCount (i n : Nat) : i < chunkCount n ↔ i * k < n := by
  have hk : k = 100 := rfl
  rw [chunkCount_eq, hk]
  split <;> omega

theorem chunkCount_mul_le (n : Nat) : n ≤ chunkCount n * k := by
  have hk : k = 100 := rfl
  rw [chunkCount_eq, hk]
  split <;> omega

@[simp] theorem chunkCount_mul (m : Nat) : chunkCount (m * k) = m := by
  have hk : k = 100 := rfl
  rw [chunkCount_eq, hk]
  split <;> omega

/-- Up to 25500 elements the number of chunks fits its `uint8_t`. -/
theorem SimpleMPI.range_eq {size : Nat} (h : size ≤ 25500) : range size = chunkCount size := by
  have hk : k = 100 := rfl
  refine Nat.mod_eq_of_lt ?_
  by_contra hge
  have := (lt_chunkCount 255 size).1 (by omega)
  omega

/-! ## Messages -/

def requestMessage (size : Nat) : List UInt8 :=
  messageOf (commands .REQUESTV) 0 (leBytes 2 size)

def chunkMessage (offset : Nat) (xs : List UInt64) : List UInt8 :=
  messageOf (commands .RESPONSEV) offset (elementBytes xs)

def responseMessage (past : UInt64) (vec : List UInt64) (pos : Nat) : List UInt8 :=
  chunkMessage pos (responseElements past vec pos)

@[simp] theorem length_requestMessage (size : Nat) : (requestMessage size).length = 15 := by
  simp [requestMessage, length_commands_REQUESTV]

@[simp] theorem length_chunkMessage (offset : Nat) (xs : List UInt64) :
    (chunkMessage offset xs).length = 14 + 8 * xs.length := by
  simp [chunkMessage, length_commands_RESPONSEV]

theorem praseHeader_chunkMessage (offset : Nat) (xs : List UInt64) (tail : List UInt8)
    (hoff : offset < 65536) (hxs : xs.length ≤ k) :
    praseHeader (chunkMessage offset xs ++ tail) =
      some { key := commands .RESPONSEV, dataLen := 14 + 8 * xs.length, offset := offset
             cursor := 14 } := by
  have hk : k = 100 := rfl
  have h := praseHeader_messageOf (commands .RESPONSEV) offset (elementBytes xs) tail
    (colon_not_mem_commands _) (by rw [length_commands_RESPONSEV, length_elementBytes]; omega) hoff
  rw [length_commands_RESPONSEV, length_elementBytes] at h
  exact h

theorem offset_chunkMessage (offset : Nat) (xs : List UInt64) (hoff : offset < 65536)
    (hxs : xs.length ≤ k) : (praseHeader (chunkMessage offset xs)).map (·.offset) = some offset := by
  have h := praseHeader_chunkMessage offset xs [] hoff hxs
  rw [List.append_nil] at h
  rw [h]
  rfl

/-- A position inside the vector gives at least one and at most `k` elements. -/
theorem responseCount_bounds (n pos : Nat) (hpos : pos < n) (hn : n < 65536) :
    0 < responseCount n pos ∧ responseCount n pos ≤ k := by
  have hk : k = 100 := rfl
  rcases Nat.lt_or_ge n (pos + k) with h | h
  · rw [responseCount_short n pos h]
    omega
  · rw [responseCount_full n pos h hn]
    omega

theorem length_responseElements_le (past : UInt64) (vec : List UInt64) (pos : Nat)
    (hpos : pos < vec.length % 65536) : (responseElements past vec pos).length ≤ k := by
  have hb := responseCount_bounds _ pos hpos (Nat.mod_lt _ (by decide))
  rw [length_responseElements]
  omega

namespace SimpleMPI

theorem sendRequestVTo_eq (toStr : Address) (size : Nat) :
    sendRequestVTo toStr size = .send toStr (requestMessage size) := by
  have h := createRequestV_eq (commands .REQUESTV) size (by rw [length_commands_REQUESTV]; decide)
  simp only [sendRequestVTo, h]
  rw [List.take_of_length_le (by simp [length_commands_REQUESTV])]
  rfl

theorem sendRequestVToAll_eq (s : SimpleMPI) (size : Nat) (h : s.cGroup.length < 256) :
    s.sendRequestVToAll size =
      some (s.cGroup.map fun c => .send c (requestMessage size)) := by
  simp only [sendRequestVToAll, Counter.passes_one 256 _ h, Option.bind_eq_bind, Option.bind_some,
    sendRequestVTo_eq]
  congr 1
  apply List.ext_getElem
  · simp
  · intro i h1 h2
    have hi : i < s.cGroup.length := by simpa using h1
    simp [List.getElem?_eq_getElem hi]

theorem responsePacket_eq (past : UInt64) (vec : List UInt64) (pos : Nat)
    (hpos : pos < vec.length % 65536) :
    responsePacket past vec pos = some (responseMessage past vec pos) := by
  have hk : k = 100 := rfl
  have hb := responseCount_bounds _ pos hpos (Nat.mod_lt _ (by decide))
  have hl := length_responseElements_le past vec pos hpos
  have h := creatResponseV_eq past (commands .RESPONSEV) vec pos (by omega)
    (by rw [length_commands_RESPONSEV]; omega)
  simp only [responsePacket, h]
  rw [if_pos (by omega), List.take_left' (by simp)]
  rfl

theorem mapM_some {α β : Type} (f : α → Option β) (g : α → β) (l : List α)
    (h : ∀ a ∈ l, f a = some (g a)) : l.mapM f = some (l.map g) := by
  induction l with
  | nil => rfl
  | cons a l ih =>
    rw [List.mapM_cons, h a List.mem_cons_self, ih fun b hb => h b (List.mem_cons_of_mem _ hb)]
    rfl

/-- One packet for each value of the position, if the loop ends. -/
theorem sendResponseVTo_eq_passes (past : UInt64) (toStr : Address) (vec : List UInt64) :
    sendResponseVTo past toStr vec =
      (Counter.passes 65536 k (vec.length % 65536)).map fun positions =>
        positions.map fun pos => .send toStr (responseMessage past vec pos) := by
  cases hpasses : Counter.passes 65536 k (vec.length % 65536) with
  | none => simp [sendResponseVTo, hpasses]
  | some positions =>
    have hpackets := mapM_some (responsePacket past vec) (responseMessage past vec) positions
      fun pos hpos => responsePacket_eq past vec pos (Counter.lt_of_mem_passes hpasses hpos)
    simp [sendResponseVTo, hpasses, hpackets]

/-- The packets of a vector: one for each chunk, in order. -/
theorem sendResponseVTo_eq (past : UInt64) (toStr : Address) (vec : List UInt64)
    (hn : vec.length ≤ 65500) :
    sendResponseVTo past toStr vec = some ((List.range (chunkCount vec.length)).map fun i =>
      .send toStr (responseMessage past vec (i * k))) := by
  have hk : k = 100 := rfl
  have hcount : chunkCount vec.length ≤ 655 := by
    by_contra hlt
    have := (lt_chunkCount 655 vec.length).1 (by omega)
    omega
  have hpasses : Counter.passes 65536 k (vec.length % 65536) =
      some ((List.range (chunkCount vec.length)).map (· * k)) := by
    rw [Nat.mod_eq_of_lt (by omega)]
    exact Counter.passes_eq _ _ _ _ (by rw [hk]; omega) (chunkCount_mul_le _)
      (fun i hi => (lt_chunkCount i _).1 hi) (by omega)
  rw [sendResponseVTo_eq_passes, hpasses]
  simp [Function.comp_def]

/-- Every parent of a node gets the packets of `avg`; the root has nobody to answer. -/
theorem sendResponseVToP_eq (past : UInt64) (s : SimpleMPI) (hs : s.sGroup.length < 256)
    (hn : s.avg.length ≤ 65500) :
    sendResponseVToP past s = some (s.sGroup.flatMap fun p =>
      (List.range (chunkCount s.avg.length)).map fun i =>
        .send p (responseMessage past s.avg (i * k))) := by
  have hsends := mapM_some (fun i => sendResponseVTo past (s.sGroup.getD i 0) s.avg)
    (fun i => (List.range (chunkCount s.avg.length)).map fun j =>
      Effect.send (s.sGroup.getD i 0) (responseMessage past s.avg (j * k)))
    (List.range s.sGroup.length) (fun i _ => sendResponseVTo_eq past _ s.avg hn)
  have hgroup : (List.range s.sGroup.length).map (s.sGroup.getD · 0) = s.sGroup := by
    apply List.ext_getElem
    · simp
    · intro i h1 h2
      simp [List.getElem?_eq_getElem h2]
  simp only [sendResponseVToP, Counter.passes_one 256 _ hs, hsends, Option.bind_eq_bind,
    Option.bind_some]
  conv => rhs; rw [← hgroup]
  rw [List.flatMap_map]
  rfl

/-! ## The two handlers -/

theorem handleRequestV_spec (past : UInt64) (randVec : Nat → List UInt64) (s : SimpleMPI)
    (fromStr : Address) (size : Nat) (tail : List UInt8) (hsize : size < 65536)
    (hgroup : s.cGroup.length < 256) :
    handleRequestV past randVec s fromStr (requestMessage size ++ tail) =
      if s.cGroup = [] then
        (sendResponseVTo past fromStr (randVec size)).map fun answers =>
          ({ s with vsize := size, avg := zeros size }, answers)
      else
        some ({ s with vsize := size, avg := zeros size },
          s.cGroup.map fun c => .send c (requestMessage size)) := by
  have hhead := praseHeader_messageOf (commands .REQUESTV) 0 (leBytes 2 size) tail
    (colon_not_mem_commands _) (by simp [length_commands_REQUESTV]) (by decide)
  have hdrop : (requestMessage size ++ tail).drop ((commands .REQUESTV).length + 5) =
      leBytes 2 size ++ tail := drop_messageOf _ _ _ _
  have hreq := sendRequestVToAll_eq { s with vsize := size, avg := zeros size } size hgroup
  rw [handleRequestV, requestMessage, hhead, Option.bind_eq_bind, Option.bind_some]
  simp only
  rw [← requestMessage, hdrop, praseInt16_leBytes size hsize tail]
  simp only [Option.bind_eq_bind, Option.bind_some, hreq]
  by_cases hc : s.cGroup = []
  · rw [if_pos (by simp [hc]), if_pos hc]
    cases sendResponseVTo past fromStr (randVec size) with
    | none => rfl
    | some answers => simp [hc]
  · rw [if_neg (by simpa using hc), if_neg hc]
    simp

theorem handleResponseV_spec (past : UInt64) (s : SimpleMPI) (offset : Nat) (xs : List UInt64)
    (tail : List UInt8) (hoff : offset < 65536) (hxs : xs.length ≤ k) :
    handleResponseV past s (chunkMessage offset xs ++ tail) =
      receiveChunk past s offset (xs ++ zeros (k - xs.length)) := by
  have hk : k = 100 := rfl
  have hdrop : (chunkMessage offset xs ++ tail).drop 14 = elementBytes xs ++ tail :=
    drop_messageOf (commands .RESPONSEV) _ _ _
  have hvec := praseVector_elementBytes xs tail (zeros k) (by simpa using hxs) (by omega)
  have hlen : (14 + 8 * xs.length + 65536 - 14) % 65536 = 8 * xs.length := by omega
  rw [handleResponseV, praseHeader_chunkMessage offset xs tail hoff hxs, Option.bind_eq_bind,
    Option.bind_some]
  simp only
  rw [if_pos (by omega), hdrop, hlen, hvec, Option.bind_eq_bind, Option.bind_some, drop_zeros]

/-! ## A chunk that holds the vectors `vs` out of `n` -/

/-- Entry `c` counts the vectors `vs`; it is their sum, divided once all `n` are in. -/
structure ChunkHolds (n : Nat) (vs : List (List UInt64)) (c : MyChunk) : Prop where
  count : c.count = vs.length
  data : c.data = if vs.length = n then chunkAvg vs else chunkSum vs

theorem ChunkHolds.new {n : Nat} (hn : 0 < n) : ChunkHolds n [] .new where
  count := rfl
  data := by
    rw [if_neg (by simp; omega), chunkSum_nil]
    rfl

theorem ChunkHolds.length_data {n : Nat} {vs : List (List UInt64)} {c : MyChunk}
    (h : ChunkHolds n vs c) : c.data.length = k := by
  rw [h.data]
  split <;> simp

theorem ChunkHolds.perm {n : Nat} {vs ws : List (List UInt64)} {c : MyChunk}
    (h : ChunkHolds n vs c) (hp : vs.Perm ws) : ChunkHolds n ws c where
  count := by rw [h.count, hp.length_eq]
  data := by rw [h.data, hp.length_eq, chunkSum_perm hp, chunkAvg_perm hp]

/-- One more response for the offset. -/
theorem addChunk_spec (s : SimpleMPI) (offset : Nat) (vs : List (List UInt64)) (v : List UInt64)
    (hgroup : s.cGroup.length < 256) (hvs : vs.length < s.cGroup.length) (hv : v.length = k)
    (hc : ChunkHolds s.cGroup.length vs (s.chunk offset)) :
    ∃ c, s.addChunk offset v = some (s.setChunk offset c) ∧
      ChunkHolds s.cGroup.length (v :: vs) c := by
  have hk : k = 100 := rfl
  have hdata : (s.chunk offset).data = chunkSum vs := by rw [hc.data, if_neg (by omega)]
  have hcount : ((s.chunk offset).count + 1) % 256 = vs.length + 1 := by
    rw [hc.count, Nat.mod_eq_of_lt (by omega)]
  have hsum : sumVector (s.chunk offset).data (s.chunk offset).data v = chunkSum (v :: vs) := by
    rw [hdata, sumVector_chunkSum vs v]
  simp only [addChunk, hc.length_data, hv, if_true, hcount, hsum]
  by_cases hfull : vs.length + 1 = s.cGroup.length
  · rw [if_pos hfull, avgVector_eq _ _ (by rw [length_chunkSum]; omega) (by omega)]
    refine ⟨_, rfl, ?_, ?_⟩
    · rw [List.length_cons]
    · rw [List.length_cons, if_pos hfull]
      rfl
  · rw [if_neg hfull]
    refine ⟨_, rfl, ?_, ?_⟩
    · rw [List.length_cons]
    · rw [List.length_cons, if_neg hfull]

@[simp] theorem setChunk_cGroup (s : SimpleMPI) (o : Nat) (c : MyChunk) :
    (s.setChunk o c).cGroup = s.cGroup := rfl

@[simp] theorem chunk_setChunk_self (s : SimpleMPI) (o : Nat) (c : MyChunk) :
    (s.setChunk o c).chunk o = c := by
  simp [chunk, setChunk]

theorem chunk_setChunk_of_ne (s : SimpleMPI) (o o' : Nat) (c : MyChunk) (h : o' ≠ o) :
    (s.setChunk o c).chunk o' = s.chunk o' := by
  simp [chunk, setChunk, Function.update_of_ne h]

/-! ## `AvgEnd` and `AVG` -/

/-- The round is complete when every chunk of the vector counts the group. -/
theorem roundComplete_iff (s : SimpleMPI) (hgroup : s.cGroup.length < 256)
    (hpos : 0 < s.cGroup.length) (size : Nat) :
    s.roundComplete size = true ↔ ∀ i, i < range size → (s.chunk (i * k)).count = s.cGroup.length := by
  simp only [roundComplete, List.all_eq_true, List.mem_range, Nat.mod_eq_of_lt hgroup]
  constructor
  · intro h i hi
    have hi := h i hi
    cases hc : s.chunkMap (i * k) with
    | none => simp [hc] at hi
    | some c =>
      rw [hc] at hi
      simpa [chunk, hc] using hi
  · intro h i hi
    have hi := h i hi
    cases hc : s.chunkMap (i * k) with
    | none =>
      rw [chunk, hc] at hi
      simp [MyChunk.new] at hi
      omega
    | some c => simpa [chunk, hc] using hi

/-- An incomplete round only clears `asEnd`. -/
theorem avgEnd_open (past : UInt64) (s : SimpleMPI) (size : Nat)
    (h : s.roundComplete size = false) :
    s.avgEnd past size = some ({ s with asEnd := false }, []) := by
  simp [avgEnd, doAVG, h]

/-- What the completion branch writes to `avg`. -/
def roundAvg (s : SimpleMPI) : List UInt64 := (s.writeChunk2Vec s.vsize).avg

/-- The object after the completion branch. -/
def finishRound (s : SimpleMPI) : SimpleMPI :=
  { ({ s with asEnd := false, curIter := s.curIter + 1 }.writeChunk2Vec s.vsize).clearChunkMap with
    avg := s.roundAvg }

@[simp] theorem finishRound_avg (s : SimpleMPI) : s.finishRound.avg = s.roundAvg := rfl
@[simp] theorem finishRound_curIter (s : SimpleMPI) : s.finishRound.curIter = s.curIter + 1 := rfl
@[simp] theorem finishRound_cGroup (s : SimpleMPI) : s.finishRound.cGroup = s.cGroup := rfl
@[simp] theorem finishRound_sGroup (s : SimpleMPI) : s.finishRound.sGroup = s.sGroup := rfl

/-- Every entry of the map is a new chunk again. -/
theorem finishRound_chunk (s : SimpleMPI) (o : Nat) : s.finishRound.chunk o = .new := by
  simp only [finishRound, clearChunkMap, chunk]
  cases (({ s with asEnd := false, curIter := s.curIter + 1 }.writeChunk2Vec s.vsize).chunkMap o) <;>
    rfl

theorem finishRound_chunkMap (s : SimpleMPI) (o : Nat) (c : MyChunk)
    (h : s.finishRound.chunkMap o = some c) : c = .new := by
  simp only [finishRound, clearChunkMap, Option.map_eq_some_iff] at h
  obtain ⟨-, -, rfl⟩ := h
  rfl

/-- A complete round: the answer goes up, then the run ends or the next round starts. -/
theorem avgEnd_complete (past : UInt64) (s : SimpleMPI) (h : s.roundComplete s.vsize = true)
    (hiter : s.curIter < 65535) :
    s.avgEnd past s.vsize =
      (sendResponseVToP past s.finishRound).bind fun sends =>
        (if s.curIter + 1 < s.maxIteration then
          (s.finishRound.sendRequestVToAll s.vsize).map (.newRequest :: ·)
        else some []).bind fun requests =>
          some (s.finishRound, .answer s.roundAvg :: sends ++
            (if s.maxIteration ≤ s.curIter + 1 then [.stop] else []) ++ requests) := by
  have hmod : (s.curIter + 1) % 65536 = s.curIter + 1 := Nat.mod_eq_of_lt (by omega)
  simp only [avgEnd, h, if_true, hmod, doAVG]
  rw [if_pos (Nat.succ_pos _)]
  simp only [Option.bind_eq_bind, Option.bind_some]
  refine congrArg (Option.bind _) (funext fun sends => ?_)
  by_cases hlt : s.curIter + 1 < s.maxIteration
  · rw [if_pos hlt]
    exact if_pos hlt
  · rw [if_neg hlt]
    exact if_neg hlt

/-- A run of stores to consecutive indices. -/
theorem foldl_set_block (xs : List UInt64) (a : Nat) (vec : List UInt64) (i : Nat) :
    ((xs.mapIdx fun j x => (a + j, x)).foldl (fun vec st => vec.set st.1 st.2) vec)[i]? =
      if a ≤ i ∧ i < a + xs.length ∧ i < vec.length then xs[i - a]? else vec[i]? := by
  induction xs generalizing a vec with
  | nil => rw [if_neg (by simp; omega)]; rfl
  | cons x xs ih =>
    have hshift : (xs.mapIdx fun j y => (a + (j + 1), y)) = xs.mapIdx fun j y => (a + 1 + j, y) := by
      congr 1
      funext j y
      rw [show a + (j + 1) = a + 1 + j by omega]
    rw [List.mapIdx_cons, List.foldl_cons, hshift, ih, List.length_set, List.length_cons,
      List.getElem?_set]
    simp only [Nat.add_zero]
    by_cases hai : a = i
    · subst hai
      rw [if_neg (by omega), if_pos rfl]
      by_cases hlen : a < vec.length
      · rw [if_pos hlen, if_pos ⟨Nat.le_refl _, by omega, hlen⟩, Nat.sub_self]
        rfl
      · rw [if_neg hlen, if_neg (by omega), List.getElem?_eq_none (by omega)]
    · rw [if_neg hai]
      by_cases hin : a + 1 ≤ i ∧ i < a + 1 + xs.length ∧ i < vec.length
      · rw [if_pos hin, if_pos (by omega), show i - a = i - (a + 1) + 1 by omega,
          List.getElem?_cons_succ]
      · rw [if_neg hin, if_neg (by omega)]

/-- The stores of the first `n` chunks. -/
theorem foldl_set_chunks (s : SimpleMPI) (n : Nat) (hdata : ∀ i, i < n → (s.chunk (i * k)).data.length = k)
    (vec : List UInt64) (i : Nat) :
    (((List.range n).flatMap fun i => (s.chunk (i * k)).data.mapIdx fun j x => (i * k + j, x)).foldl
      (fun vec st => vec.set st.1 st.2) vec)[i]? =
      if i < n * k ∧ i < vec.length then (s.chunk (i / k * k)).data[i % k]? else vec[i]? := by
  have hk : k = 100 := rfl
  have hlen : ∀ (l : List (Nat × UInt64)) (vec : List UInt64),
      (l.foldl (fun vec st => vec.set st.1 st.2) vec).length = vec.length := by
    intro l
    induction l with
    | nil => intro vec; rfl
    | cons st l ih => intro vec; rw [List.foldl_cons, ih, List.length_set]
  induction n with
  | zero => rw [if_neg (by omega)]; rfl
  | succ n ih =>
    rw [List.range_succ, List.flatMap_append, List.foldl_append, List.flatMap_singleton,
      foldl_set_block, ih (fun i hi => hdata i (by omega)), hdata n (by omega), hlen]
    rw [hk] at *
    by_cases hin : n * 100 ≤ i ∧ i < n * 100 + 100 ∧ i < vec.length
    · -- the last chunk
      have hdiv : i / 100 = n := by omega
      rw [if_pos hin, if_pos (by omega), hdiv, show i - n * 100 = i % 100 by omega]
    · rw [if_neg hin]
      by_cases hold : i < n * 100 ∧ i < vec.length
      · rw [if_pos hold, if_pos (by omega)]
      · rw [if_neg hold, if_neg (by omega)]

/-- The element of `avg` at `i` is element `i % k` of its chunk. -/
theorem getElem?_roundAvg (s : SimpleMPI) (hrange : chunkCount s.vsize < 256)
    (havg : s.avg.length = s.vsize)
    (hdata : ∀ i, i < chunkCount s.vsize → (s.chunk (i * k)).data.length = k) (i : Nat) :
    s.roundAvg[i]? = if i < s.vsize then (s.chunk (i / k * k)).data[i % k]? else none := by
  have hr : range s.vsize = chunkCount s.vsize := Nat.mod_eq_of_lt hrange
  have hle := chunkCount_mul_le s.vsize
  simp only [roundAvg, writeChunk2Vec, chunkStores, hr]
  rw [foldl_set_chunks s _ hdata, havg]
  by_cases hi : i < s.vsize
  · rw [if_pos ⟨by omega, hi⟩, if_pos hi]
  · rw [if_neg (by omega), if_neg hi, List.getElem?_eq_none (by omega)]

theorem length_roundAvg (s : SimpleMPI) : s.roundAvg.length = s.avg.length := by
  simp only [roundAvg, writeChunk2Vec]
  generalize s.chunkStores s.vsize = l
  generalize s.avg = vec
  induction l generalizing vec with
  | nil => rfl
  | cons st l ih => rw [List.foldl_cons, ih, List.length_set]

/-! ## A response for an open round -/

/-- The response does not complete the round. -/
theorem receiveChunk_open (past : UInt64) (s t : SimpleMPI) (offset : Nat) (v : List UInt64)
    (hadd : s.addChunk offset v = some t) (hend : t.asEnd = false)
    (h : t.roundComplete t.vsize = false) : receiveChunk past s offset v = some (t, []) := by
  have ht : { t with asEnd := false } = t := by
    cases t
    simp only at hend
    rw [hend]
  rw [receiveChunk, hadd, Option.bind_eq_bind, Option.bind_some]
  split
  · rw [avgEnd_open past t t.vsize h, ht]
  · rfl

/-- The response completes the round. -/
theorem receiveChunk_complete (past : UInt64) (s t : SimpleMPI) (offset : Nat) (v : List UInt64)
    (hadd : s.addChunk offset v = some t) (hfull : (t.chunk offset).count = t.cGroup.length) :
    receiveChunk past s offset v = t.avgEnd past t.vsize := by
  rw [receiveChunk, hadd, Option.bind_eq_bind, Option.bind_some, if_pos hfull]

end SimpleMPI

end InNetworkAgg
