import InNetworkAgg.Handlers

/-!
# Sending under back-pressure

The path of a response chunk from `SimpleMPI::SendResponseVTo` down to
`Ns3TransportStream::Write` (quic/model).  A refusal comes back up as a length of
zero and is dropped by the loop, which is `void`:

    NoSilentDrop past vec sockets ↔
      vec.length ≤ 65500 ∧ every Send of the call is accepted        (sendResponse_noSilentDrop)
-/

namespace InNetworkAgg

open SimpleMPI

/-! ## The layers -/

/-- What a call of `Write` meets: `CanWriteNewData`, `write_side_closed` and the
`bytes_consumed` that `WriteMemSlices` returns. -/
structure TransportStream where
  canWriteNewData : Bool
  writeSideClosed : Bool
  bytesConsumed : Nat

def TransportStream.canWrite (stream : TransportStream) : Bool :=
  stream.canWriteNewData && !stream.writeSideClosed

/-- `Ns3TransportStream::Write` on a non-null pointer.  A part that was consumed is an
unrecoverable error of the connection and a refusal too. -/
def TransportStream.write (stream : TransportStream) (data : List UInt8) : Bool :=
  if !stream.canWrite then false
  else stream.bytesConsumed == data.length

/-- `MyChannel::Send`: the `bool` becomes a `size_t`. -/
def myChannelSend (stream : TransportStream) (buffer : List UInt8) : Nat :=
  (stream.write buffer).toNat

/-- `MyClientEndpoint::Send` and `MyServerEndpoint::Send`; the channel may be null. -/
def endpointSend (channel : Option TransportStream) (buffer : List UInt8) : Nat :=
  match channel with
  | some stream => myChannelSend stream buffer
  | none => 0

/-- `MyQuicClient::Send` and `MyQuicServer::Send`; the endpoint may be null. -/
def socketSend (endpoint : Option (Option TransportStream)) (buffer : List UInt8) : Nat :=
  match endpoint with
  | some channel => endpointSend channel buffer
  | none => 0

/-- One `Send` of the loop of `SendResponseVTo`. -/
structure Attempt where
  offset : Nat
  packet : List UInt8
  wlen : Nat

def Attempt.accepted (a : Attempt) : Bool := a.wlen != 0

/-- The first `fuel` passes of the loop of `SendResponseVTo` from `pos` on; `sockets i`
is what the next `Send` but `i` meets.  The loop leaves `wlen` where it is. -/
def sendLoop (past : UInt64) (vec : List UInt64) :
    Nat → Nat → (Nat → Option (Option TransportStream)) → List Attempt
  | 0, _, _ => []
  | fuel + 1, pos, sockets =>
    if pos < vec.length % 65536 then
      match responsePacket past vec pos with
      | some packet =>
        { offset := pos, packet := packet, wlen := socketSend (sockets 0) packet } ::
          sendLoop past vec fuel ((pos + k) % 65536) fun i => sockets (i + 1)
      | none => []
    else []

section
variable (past : UInt64) (vec : List UInt64) (sockets : Nat → Option (Option TransportStream))

/-- Attempt `i` of the call, if it gets there. -/
def attempt (i : Nat) : Option Attempt := (sendLoop past vec (i + 1) 0 sockets)[i]?

/-- The offsets accepted in the first `n` attempts. -/
def acceptedOffsets (n : Nat) : List Nat :=
  ((sendLoop past vec n 0 sockets).filter (·.accepted)).map (·.offset)

/-- What the caller of `SendResponseVTo` gets after these attempts: nothing. -/
def returned (_attempts : List Attempt) : Unit := ()

/-- The caller can tell the first `n` attempts from the ones of an accepting stream. -/
def Reported (n : Nat) : Prop :=
  returned (sendLoop past vec n 0 sockets) ≠
    returned ((sendLoop past vec n 0 sockets).map fun a => { a with wlen := 1 })

/-- The offsets of the chunks of a vector. -/
def chunkOffsets : List Nat := (List.range (chunkCount vec.length)).map (· * k)

/-- No chunk is dropped silently: a refused chunk is sent again before any later one,
or it is the last one tried and the caller is told; what is accepted is a prefix
of the chunks and the caller is told of a shorter one. -/
structure NoSilentDrop : Prop where
  refused : ∀ i a, attempt past vec sockets i = some a → a.accepted = false →
    (∃ j b, i < j ∧ attempt past vec sockets j = some b ∧ b.offset = a.offset ∧
      ∀ l c, i < l → l < j → attempt past vec sockets l = some c → c.offset ≤ a.offset) ∨
    (attempt past vec sockets (i + 1) = none ∧ Reported past vec sockets (i + 1))
  inOrder : ∀ n, acceptedOffsets past vec sockets n <+: chunkOffsets vec
  complete : ∀ n, attempt past vec sockets n = none →
    acceptedOffsets past vec sockets n = chunkOffsets vec ∨ Reported past vec sockets n

end

/-! ## The attempts of a call -/

/-- The attempts go through the values of the counter, whatever the answers are. -/
theorem sendLoop_eq (past : UInt64) (vec : List UInt64) (fuel pos : Nat)
    (sockets : Nat → Option (Option TransportStream)) :
    sendLoop past vec fuel pos sockets =
      (Counter.values 65536 k (vec.length % 65536) fuel pos).mapIdx fun i p =>
        { offset := p, packet := responseMessage past vec p
          wlen := socketSend (sockets i) (responseMessage past vec p) } := by
  induction fuel generalizing pos sockets with
  | zero => rfl
  | succ fuel ih =>
    rw [sendLoop, Counter.values]
    by_cases hpos : pos < vec.length % 65536
    · rw [if_pos hpos, if_pos hpos, responsePacket_eq past vec pos hpos, List.mapIdx_cons]
      simp only [ih]
    · rw [if_neg hpos, if_neg hpos]
      rfl

section
variable (past : UInt64) (vec : List UInt64) (sockets : Nat → Option (Option TransportStream))

theorem not_reported (n : Nat) : ¬ Reported past vec sockets n := fun h => h rfl

theorem getElem?_sendLoop {n i : Nat} (h : i < n) :
    (sendLoop past vec n 0 sockets)[i]? = attempt past vec sockets i := by
  rw [attempt, sendLoop_eq, sendLoop_eq, List.getElem?_mapIdx, List.getElem?_mapIdx,
    ← Counter.take_values 65536 k _ (i + 1) n 0 (by omega), List.getElem?_take,
    if_pos (Nat.lt_succ_self i)]

/-- Attempt `i` is made while the counter stays below the end of the vector. -/
theorem attempt_eq {i : Nat} (h : ∀ j ≤ i, j * k % 65536 < vec.length % 65536) :
    attempt past vec sockets i =
      some { offset := i * k % 65536, packet := responseMessage past vec (i * k % 65536)
             wlen := socketSend (sockets i) (responseMessage past vec (i * k % 65536)) } := by
  have hv := Counter.getElem?_values 65536 k (vec.length % 65536) i (i + 1) (Nat.lt_succ_self i) 0
    (by decide) (by simpa using h)
  rw [Nat.zero_add] at hv
  rw [attempt, sendLoop_eq, List.getElem?_mapIdx, hv]
  rfl

/-- A vector whose size as a `uint16_t` does not make `pos` wrap: one attempt for each
of the chunks that size gives, in order. -/
theorem sendLoop_short (hlen : vec.length % 65536 ≤ 65500) (n : Nat) :
    sendLoop past vec n 0 sockets =
      (((List.range (chunkCount (vec.length % 65536))).map (· * k)).take n).mapIdx fun i p =>
        { offset := p, packet := responseMessage past vec p
          wlen := socketSend (sockets i) (responseMessage past vec p) } := by
  have hk : k = 100 := rfl
  have hcount : chunkCount (vec.length % 65536) ≤ 655 := by
    by_contra hlt
    have := (lt_chunkCount 655 (vec.length % 65536)).1 (by omega)
    omega
  have hv := Counter.values_eq 65536 k (vec.length % 65536) (chunkCount (vec.length % 65536))
    (by rw [hk]; omega) (chunkCount_mul_le _) (fun i hi => (lt_chunkCount i _).1 hi) n 0
    (Nat.zero_le _)
  rw [Nat.zero_mul] at hv
  rw [sendLoop_eq, hv]
  simp

theorem attempt_short (hlen : vec.length % 65536 ≤ 65500) (i : Nat) :
    attempt past vec sockets i =
      if i < chunkCount (vec.length % 65536) then
        some { offset := i * k, packet := responseMessage past vec (i * k)
               wlen := socketSend (sockets i) (responseMessage past vec (i * k)) }
      else none := by
  rw [attempt, sendLoop_short past vec sockets hlen, List.getElem?_mapIdx, List.getElem?_take,
    if_pos (Nat.lt_succ_self i), List.getElem?_map]
  split
  · rw [List.getElem?_range ‹_›]
    rfl
  · rw [List.getElem?_eq_none (by simp; omega)]
    rfl

/-- When every attempt is accepted, the accepted offsets are those of the attempts. -/
theorem acceptedOffsets_short (hlen : vec.length % 65536 ≤ 65500)
    (hall : ∀ i < chunkCount (vec.length % 65536),
      socketSend (sockets i) (responseMessage past vec (i * k)) ≠ 0) (n : Nat) :
    acceptedOffsets past vec sockets n =
      ((List.range (chunkCount (vec.length % 65536))).map (· * k)).take n := by
  rw [acceptedOffsets, List.filter_eq_self.2, sendLoop_short past vec sockets hlen]
  · apply List.ext_getElem
    · simp
    · intro i h1 h2
      simp
  · intro a ha
    obtain ⟨i, hi, rfl⟩ := List.getElem_of_mem ha
    have hget := List.getElem?_eq_getElem hi
    have hin : i < n := by
      rw [sendLoop_short past vec sockets hlen] at hi
      simp at hi
      exact hi.1
    rw [getElem?_sendLoop past vec sockets hin, attempt_short past vec sockets hlen] at hget
    split at hget
    · rw [← Option.some.inj hget]
      simpa [Attempt.accepted] using hall i ‹_›
    · cases hget

/-- On a vector that makes `pos` wrap, the second lap starts at offset 64, and
whatever the answer is there, the call fails to be what it should. -/
theorem not_noSilentDrop_of_wrap (h : 65500 < vec.length % 65536) :
    ¬ NoSilentDrop past vec sockets := by
  intro hns
  have hk : k = 100 := rfl
  have hlap : ∀ j ≤ 657, j * k % 65536 < vec.length % 65536 := by
    intro j hj
    rw [hk]
    rcases Nat.lt_or_ge j 656 with h' | h'
    · rw [Nat.mod_eq_of_lt (by omega)]
      omega
    · obtain rfl | rfl : j = 656 ∨ j = 657 := by omega
      · omega
      · omega
  have h656 := attempt_eq past vec sockets (i := 656) fun j hj => hlap j (by omega)
  have h657 := attempt_eq past vec sockets (i := 657) fun j hj => hlap j (by omega)
  rw [show 656 * k % 65536 = 64 from rfl] at h656
  rw [show 657 * k % 65536 = 164 from rfl] at h657
  generalize ha : ({ offset := 64, packet := _, wlen := _ } : Attempt) = a at h656
  generalize hb : ({ offset := 164, packet := _, wlen := _ } : Attempt) = b at h657
  have haoff : a.offset = 64 := by rw [← ha]
  have hboff : b.offset = 164 := by rw [← hb]
  cases hacc : a.accepted with
  | true =>
    -- accepted: 64 is no chunk offset
    have hmem : 64 ∈ acceptedOffsets past vec sockets 657 := by
      refine List.mem_map.2 ⟨a, List.mem_filter.2 ⟨?_, hacc⟩, haoff⟩
      refine List.mem_of_getElem? (i := 656) ?_
      rw [getElem?_sendLoop past vec sockets (by decide), h656]
    have hsub := (hns.inOrder 657).subset hmem
    obtain ⟨i, -, hi⟩ := List.mem_map.1 hsub
    simp only [hk] at hi
    omega
  | false =>
    -- refused: offset 164 is tried before 64 is again
    rcases hns.refused 656 a h656 hacc with ⟨j, c, hj, hjc, hoff, hbetween⟩ | ⟨hnone, -⟩
    · rcases Nat.lt_or_ge 657 j with h' | h'
      · have := hbetween 657 b (by decide) h' h657
        omega
      · obtain rfl : j = 657 := by omega
        rw [h657] at hjc
        cases hjc
        omega
    · rw [h657] at hnone
      cases hnone

/-- No write is refused: what is refused is not tried again. -/
theorem NoSilentDrop.accepts (hns : NoSilentDrop past vec sockets)
    (hlen : vec.length % 65536 ≤ 65500) : ∀ i < chunkCount (vec.length % 65536),
      socketSend (sockets i) (responseMessage past vec (i * k)) ≠ 0 := by
  have hk : k = 100 := rfl
  intro i hi hzero
  have hi' := attempt_short past vec sockets hlen i
  rw [if_pos hi] at hi'
  rcases hns.refused i _ hi' (by simp [Attempt.accepted, hzero]) with ⟨j, b, hj, hjb, hoff, -⟩ | h
  · rw [attempt_short past vec sockets hlen j] at hjb
    split at hjb
    · rw [← Option.some.inj hjb] at hoff
      simp only [hk] at hoff
      omega
    · cases hjb
  · exact not_reported past vec sockets _ h.2

/-- The length is not cut: the chunks behind the first 65536 elements would be missing. -/
theorem NoSilentDrop.length_lt (hns : NoSilentDrop past vec sockets)
    (hlen : vec.length % 65536 ≤ 65500) : vec.length < 65536 := by
  have hk : k = 100 := rfl
  have hend : attempt past vec sockets (chunkCount (vec.length % 65536)) = none := by
    rw [attempt_short past vec sockets hlen, if_neg (Nat.lt_irrefl _)]
  have hsame : chunkCount (vec.length % 65536) = chunkCount vec.length := by
    rcases hns.complete _ hend with h | h
    · rw [acceptedOffsets_short past vec sockets hlen (hns.accepts past vec sockets hlen)] at h
      simpa [chunkOffsets] using congrArg List.length h
    · exact absurd h (not_reported past vec sockets _)
  by_contra hlt
  have h1 := (lt_chunkCount 655 vec.length).2 (by rw [hk]; omega)
  rw [← hsame, lt_chunkCount, hk] at h1
  omega

theorem noSilentDrop_of_accepts (hlen : vec.length ≤ 65500)
    (hall : ∀ i < chunkCount vec.length,
      socketSend (sockets i) (responseMessage past vec (i * k)) ≠ 0) :
    NoSilentDrop past vec sockets := by
  have hmod : vec.length % 65536 = vec.length := Nat.mod_eq_of_lt (by omega)
  have hlen' : vec.length % 65536 ≤ 65500 := by rwa [hmod]
  rw [← hmod] at hall
  have hacc := acceptedOffsets_short past vec sockets hlen' hall
  refine ⟨fun i a ha hno => ?_, fun n => ?_, fun n hn => Or.inl ?_⟩
  · rw [attempt_short past vec sockets hlen'] at ha
    split at ha
    · rw [← Option.some.inj ha] at hno
      exact absurd hno (by simpa [Attempt.accepted] using hall i ‹_›)
    · cases ha
  · rw [hacc, hmod]
    exact List.take_prefix _ _
  · rw [attempt_short past vec sockets hlen'] at hn
    split at hn
    · cases hn
    · rw [hacc, hmod] at *
      rw [List.take_of_length_le (by simp; omega)]
      rfl

/-- **No chunk is dropped silently** exactly when none is dropped at all: the vector
is short enough for the 16-bit position and the stream accepts every write. -/
theorem sendResponse_noSilentDrop :
    NoSilentDrop past vec sockets ↔ vec.length ≤ 65500 ∧
      ∀ i < chunkCount vec.length, socketSend (sockets i) (responseMessage past vec (i * k)) ≠ 0 := by
  constructor
  · intro hns
    have hlen : vec.length % 65536 ≤ 65500 := by
      by_contra hwrap
      exact not_noSilentDrop_of_wrap past vec sockets (by omega) hns
    have hall := hns.accepts past vec sockets hlen
    have hmod := Nat.mod_eq_of_lt (hns.length_lt past vec sockets hlen)
    rw [hmod] at hlen hall
    exact ⟨hlen, hall⟩
  · rintro ⟨hlen, hall⟩
    exact noSilentDrop_of_accepts past vec sockets hlen hall

end

/-- A stream whose send buffer is full. -/
def blocked : TransportStream := { canWriteNewData := false, writeSideClosed := false, bytesConsumed := 0 }

/-- A stream that takes a full chunk. -/
def writable : TransportStream :=
  { canWriteNewData := true, writeSideClosed := false, bytesConsumed := 814 }

/-- Two chunks, the first refused: the second is accepted, and the call ends as if
nothing had happened. -/
theorem sendResponse_drops : ¬ NoSilentDrop 0 (zeros 200)
    fun i => some (some (if i = 0 then blocked else writable)) := by
  intro hns
  have haccepted : acceptedOffsets 0 (zeros 200)
      (fun i => some (some (if i = 0 then blocked else writable))) 2 = [100] := by decide +kernel
  have hprefix := hns.inOrder 2
  have hchunks : chunkOffsets (zeros 200) = [0, 100] := by
    rw [chunkOffsets, length_zeros]
    rfl
  rw [haccepted, hchunks] at hprefix
  exact absurd hprefix (by decide)

end InNetworkAgg
