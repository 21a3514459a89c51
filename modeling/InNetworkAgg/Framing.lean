import InNetworkAgg.CircularBuffer
import InNetworkAgg.Handlers
import InNetworkAgg.Lib.PartialRun

/-!
# Framing (`SimpleMPI::ReceiveDataFrom`, `MyChannel::OnCanRead`)

`receiveDataFrom` cuts the bytes of a ring into messages by their length words
and hands each to the function registered for its command.  On a stream of
`Framed` messages it hands over exactly the messages that are completely
stored, in order (`receiveDataFrom_spec`).  The length word is read without
wrapping, so the messages must keep the read position away from the last cell:
their lengths share a divisor `g ≥ 2` with the capacity (5 for requests, 2 for
responses).
-/

namespace InNetworkAgg

open LittleEndian PartialRun

variable {σ : Type}

/-! ## Algorithm -/

/-- `func_map`: what is called for a command. -/
abbrev FuncMap (σ : Type) := Key → Option (σ → List UInt8 → Option σ)

/-- Parse the header of `buffer` and call the function of its command, if there is one. -/
def dispatch (funcMap : FuncMap σ) (s : σ) (buffer : List UInt8) : Option σ := do
  let h ← praseHeader buffer
  match funcMap h.key with
  | some f => f s buffer
  | none => some s

/-- The loop of `ReceiveDataFrom`.  `heap n` is what the memory of a new message
buffer holds in the pass with `n` left; a pass takes at least one byte out of
the ring, so there are never more passes than bytes. -/
def receiveLoop (funcMap : FuncMap σ) (heap : Nat → Nat → UInt8) :
    Nat → Nat → Nat → CircularBuffer → σ → Option (CircularBuffer × σ)
  | 0, _, _, _, _ => none
  | fuel + 1, dataLen, bufferSize, ring, s =>
    if dataLen ≤ bufferSize ∧ 0 < dataLen then do
      let bs := if BASESIZE * 2 < dataLen then dataLen else BASESIZE * 2
      let (bytes, ring) := ring.read dataLen
      let buffer := bytes ++ (List.range (bs - bytes.length)).map (heap fuel)
      let s ← dispatch funcMap s buffer
      let bufferSize := ring.getSize % 65536
      if bufferSize ≤ 2 then some (ring, s)
      else do
        let dataLen ← ring.getHeadUint16
        receiveLoop funcMap heap fuel dataLen bufferSize ring s
    else some (ring, s)

def receiveDataFrom (funcMap : FuncMap σ) (heap : Nat → Nat → UInt8) (ring : CircularBuffer)
    (s : σ) : Option (CircularBuffer × σ) := do
  let bufferSize := ring.getSize % 65536
  let dataLen ← if 2 < bufferSize then ring.getHeadUint16 else some 0
  receiveLoop funcMap heap (bufferSize + 1) dataLen bufferSize ring s

/-- One direction of a connection: the bytes the sender has written and the
receiver has not read, and the ring of the receiver's `MyChannel`. -/
structure Channel where
  inflight : List UInt8
  ring : CircularBuffer

/-- `OnCanRead` when `n` bytes can be read: at most `1024 * 8` at a time. -/
def Channel.onCanRead (c : Channel) (n : Nat) : Option Channel :=
  if 0 < n ∧ n ≤ 1024 * 8 ∧ n ≤ c.inflight.length then
    (c.ring.write (c.inflight.take n)).map fun ring =>
      { inflight := c.inflight.drop n, ring := ring }
  else none

/-- What every call through `func_map` keeps, `ReceiveDataFrom` keeps, whatever is in the ring. -/
theorem receiveLoop_invariant (funcMap : FuncMap σ) (heap : Nat → Nat → UInt8) {I : σ → Prop}
    (hcall : ∀ key f, funcMap key = some f → ∀ s buffer s', I s → f s buffer = some s' → I s')
    (fuel : Nat) : ∀ (dataLen bufferSize : Nat) (ring : CircularBuffer) (s : σ) {r : CircularBuffer × σ},
      I s → receiveLoop funcMap heap fuel dataLen bufferSize ring s = some r → I r.2 := by
  have hdispatch : ∀ s buffer s', I s → dispatch funcMap s buffer = some s' → I s' := by
    intro s buffer s' hs hd
    obtain ⟨h, -, hd⟩ := Option.bind_eq_some_iff.1 hd
    cases hf : funcMap h.key with
    | none =>
      rw [hf] at hd
      cases hd
      exact hs
    | some f =>
      rw [hf] at hd
      exact hcall _ f hf s buffer s' hs hd
  induction fuel with
  | zero =>
    intro dataLen bufferSize ring s r hs h
    cases h
  | succ fuel ih =>
    intro dataLen bufferSize ring s r hs h
    rw [receiveLoop] at h
    split at h
    · generalize ring.read dataLen = read at h
      obtain ⟨bytes, ring'⟩ := read
      obtain ⟨s', hd, h⟩ := Option.bind_eq_some_iff.1 h
      have hs' := hdispatch _ _ _ hs hd
      dsimp only at h
      split at h
      · cases h
        exact hs'
      · obtain ⟨dataLen', -, h⟩ := Option.bind_eq_some_iff.1 h
        exact ih _ _ _ _ hs' h
    · cases h
      exact hs

theorem receiveDataFrom_invariant (funcMap : FuncMap σ) (heap : Nat → Nat → UInt8) {I : σ → Prop}
    (hcall : ∀ key f, funcMap key = some f → ∀ s buffer s', I s → f s buffer = some s' → I s')
    (ring : CircularBuffer) (s : σ) {r : CircularBuffer × σ} (hs : I s)
    (h : receiveDataFrom funcMap heap ring s = some r) : I r.2 := by
  rw [receiveDataFrom] at h
  split at h
  all_goals
    obtain ⟨dataLen, -, h⟩ := Option.bind_eq_some_iff.1 h
    exact receiveLoop_invariant funcMap heap hcall _ _ _ _ _ hs h

/-! ## Messages that keep their stream in frame -/

structure Framed (g : Nat) (msg : List UInt8) : Prop where
  long : 2 < msg.length
  fits : msg.length ≤ 10240
  head : leValue (msg.take 2) = msg.length
  aligned : g ∣ msg.length

/-- The length word cuts the message out of what follows it. -/
theorem Framed.front {g : Nat} {msg : List UInt8} (h : Framed g msg) (tail : List UInt8) :
    (msg ++ tail).take (leValue ((msg ++ tail).take 2)) = msg := by
  have h2 : (msg ++ tail).take 2 = msg.take 2 :=
    List.take_append_of_le_length (by have := h.long; omega)
  rw [h2, h.head, List.take_left]

/-- A ring that is read in steps of `g`. -/
structure RingOk (g : Nat) (ring : CircularBuffer) : Prop where
  wf : ring.WF
  cap : ring.capacity = 10240
  two : 2 ≤ g
  dvd_cap : g ∣ 10240
  dvd_pos : g ∣ ring.readPos

theorem RingOk.new (heap : Nat → UInt8) {g : Nat} (hg : 2 ≤ g) (hd : g ∣ 10240) :
    RingOk g (.new heap) :=
  ⟨CircularBuffer.new_wf heap, rfl, hg, hd, Nat.dvd_zero g⟩

/-- The peek never meets the end of the ring. -/
theorem RingOk.pos_lt {g : Nat} {ring : CircularBuffer} (h : RingOk g ring) :
    ring.readPos + 1 < ring.capacity := by
  obtain ⟨a, ha⟩ := h.dvd_pos
  obtain ⟨b, hb⟩ := h.dvd_cap
  have hlt := h.wf.read_lt
  have htwo := h.two
  rw [h.cap] at hlt ⊢
  have hab : a + 1 ≤ b := by
    by_contra hcon
    have := Nat.mul_le_mul_left g (show b ≤ a by omega)
    omega
  have := Nat.mul_le_mul_left g hab
  rw [Nat.mul_add] at this
  omega

theorem RingOk.write {g : Nat} {ring : CircularBuffer} (h : RingOk g ring) (data : List UInt8)
    {ring' : CircularBuffer} (hw : ring.write data = some ring') :
    RingOk g ring' ∧ ring'.contents = ring.contents ++ data := by
  obtain ⟨hwf, hcont, hpos, hcap⟩ := ring.write_inv h.wf hw
  exact ⟨⟨hwf, hcap ▸ h.cap, h.two, h.dvd_cap, hpos ▸ h.dvd_pos⟩, hcont⟩

theorem RingOk.read {g n : Nat} {ring : CircularBuffer} (h : RingOk g ring) (hn : g ∣ n)
    (hle : n ≤ ring.size) : RingOk g (ring.read n).2 := by
  obtain ⟨-, hwf, -, hpos, hcap⟩ := ring.read_spec n h.wf
  refine ⟨hwf, hcap.trans h.cap, h.two, h.dvd_cap, ?_⟩
  rw [hpos, h.cap, Nat.min_eq_left hle]
  exact (Nat.dvd_mod_iff h.dvd_cap).2 (Nat.dvd_add h.dvd_pos hn)

/-- With more than two bytes stored of a framed stream, the peek is the length
of the next message. -/
theorem RingOk.head {g : Nat} {ring : CircularBuffer} (h : RingOk g ring) {rest msg : List UInt8}
    {ms : List (List UInt8)} (hstream : ring.contents ++ rest = (msg :: ms).flatten)
    (hmsg : Framed g msg) (hsize : 2 < ring.size) :
    ring.getHeadUint16 = some msg.length := by
  have htake : ring.contents.take 2 = msg.take 2 := by
    have h1 : (ring.contents ++ rest).take 2 = ring.contents.take 2 :=
      List.take_append_of_le_length (by simp; omega)
    have h2 : (msg ++ ms.flatten).take 2 = msg.take 2 :=
      List.take_append_of_le_length (by have := hmsg.long; omega)
    rw [← h1, hstream, List.flatten_cons, h2]
  have hhead := ring.getHeadUint16_spec (by omega) h.pos_lt
    (by rw [htake, hmsg.head, h.cap]; exact hmsg.fits)
  rw [hhead, htake, hmsg.head]

/-- A message that is completely stored is read off the front. -/
theorem RingOk.readMessage {g : Nat} {ring : CircularBuffer} (h : RingOk g ring)
    {rest msg : List UInt8} {ms : List (List UInt8)}
    (hstream : ring.contents ++ rest = (msg :: ms).flatten) (hmsg : Framed g msg)
    (hwhole : msg.length ≤ ring.size) :
    (ring.read msg.length).1 = msg ∧ RingOk g (ring.read msg.length).2 ∧
      (ring.read msg.length).2.contents ++ rest = ms.flatten ∧
      (ring.read msg.length).2.size = ring.size - msg.length := by
  obtain ⟨hbytes, -, hcont, -, -⟩ := ring.read_spec msg.length h.wf
  refine ⟨?_, h.read hmsg.aligned hwhole, ?_, by simpa using congrArg List.length hcont⟩
  · have htake := congrArg (List.take msg.length) hstream
    rw [List.flatten_cons, List.take_left,
      List.take_append_of_le_length (by simpa using hwhole)] at htake
    rw [hbytes, htake]
  · have hdrop := congrArg (List.drop msg.length) hstream
    rw [List.flatten_cons, List.drop_left,
      List.drop_append_of_le_length (by simpa using hwhole)] at hdrop
    rw [hcont, hdrop]

/-- What the loop takes for the next length: with at most two bytes left it is not read. -/
def NextLen (ring : CircularBuffer) (dataLen : Nat) : Prop :=
  (2 < ring.size → ring.getHeadUint16 = some dataLen) ∧ (ring.size ≤ 2 → dataLen = 0)

theorem RingOk.exists_nextLen {g : Nat} {ring : CircularBuffer} (h : RingOk g ring)
    {rest : List UInt8} {ms : List (List UInt8)} (hstream : ring.contents ++ rest = ms.flatten)
    (hframe : ∀ msg ∈ ms, Framed g msg) : ∃ dataLen, NextLen ring dataLen := by
  rcases Nat.lt_or_ge 2 ring.size with hsize | hsize
  · cases ms with
    | nil =>
      have := congrArg List.length hstream
      simp at this
      omega
    | cons msg ms =>
      exact ⟨msg.length, fun _ => h.head hstream (hframe msg List.mem_cons_self) hsize,
        fun _ => by omega⟩
  · exact ⟨0, fun _ => by omega, fun _ => rfl⟩

theorem RingOk.size_mod {g : Nat} {ring : CircularBuffer} (h : RingOk g ring) :
    ring.getSize % 65536 = ring.size := by
  have := h.wf.size_le
  rw [h.cap] at this
  exact Nat.mod_eq_of_lt (show ring.size < 65536 by omega)

/-! ## The loop hands over the stored messages -/

section
variable (funcMap : FuncMap σ) (heap : Nat → Nat → UInt8)

/-- A pass that takes a message is followed by the loop again, from the rest of the ring. -/
theorem receiveLoop_pass {g fuel dataLen : Nat} {ring : CircularBuffer} {msg : List UInt8} {s s' : σ}
    (hwhole : msg.length ≤ ring.size) (hpos : 0 < msg.length) (hread : (ring.read msg.length).1 = msg)
    (hrest : RingOk g (ring.read msg.length).2) (hfuel : (ring.read msg.length).2.size < fuel)
    (hcall : dispatch funcMap s (msg ++ (List.range ((if BASESIZE * 2 < msg.length then msg.length
      else BASESIZE * 2) - msg.length)).map (heap fuel)) = some s')
    (hnext : NextLen (ring.read msg.length).2 dataLen) :
    receiveLoop funcMap heap (fuel + 1) msg.length ring.size ring s =
      receiveLoop funcMap heap fuel dataLen (ring.read msg.length).2.size
        (ring.read msg.length).2 s' := by
  rw [receiveLoop, if_pos ⟨hwhole, hpos⟩]
  simp only [hread, hcall, Option.bind_eq_bind, Option.bind_some, hrest.size_mod]
  split
  · obtain ⟨f, rfl⟩ : ∃ f, fuel = f + 1 := ⟨fuel - 1, by omega⟩
    rw [receiveLoop, if_neg (by have := hnext.2 ‹_›; omega)]
  · rw [hnext.1 (by omega), Option.bind_some]

variable (g : Nat) (J : σ → List (List UInt8) → Prop)
  (hframe : ∀ s ms, J s ms → ∀ msg ∈ ms, Framed g msg)
  (hcall : ∀ s msg ms tail, J s (msg :: ms) →
    ∃ s', dispatch funcMap s (msg ++ tail) = some s' ∧ J s' ms)

include hframe hcall

/-- `J s ms` says that `ms` are the messages still to be handed over in state `s`.
Induction on the fuel; the ring gets shorter in every pass. -/
theorem receiveLoop_spec (fuel : Nat) :
    ∀ (dataLen : Nat) (ring : CircularBuffer) (s : σ) (ms : List (List UInt8)) (rest : List UInt8),
      RingOk g ring → ring.contents ++ rest = ms.flatten → J s ms → ring.size < fuel →
      NextLen ring dataLen →
      ∃ ring' s' done ms', receiveLoop funcMap heap fuel dataLen ring.size ring s =
          some (ring', s') ∧
        ms = done ++ ms' ∧ J s' ms' ∧ RingOk g ring' ∧ ring'.contents ++ rest = ms'.flatten ∧
        ∀ msg ∈ ms'.head?, ring'.size < msg.length := by
  induction fuel with
  | zero =>
    intro _ ring _ _ _ _ _ _ hfuel
    omega
  | succ fuel ih =>
    intro dataLen ring s ms rest hring hstream hJ hfuel hlen
    rcases Nat.lt_or_ge 2 ring.size with hsize | hsize
    swap
    · -- at most two bytes: the loop is not entered
      refine ⟨ring, s, [], ms, ?_, rfl, hJ, hring, hstream, ?_⟩
      · rw [receiveLoop, if_neg (by have := hlen.2 hsize; omega)]
      · intro msg hmsg
        have := (hframe s ms hJ msg (List.mem_of_mem_head? hmsg)).long
        omega
    · cases ms with
      | nil =>
        have := congrArg List.length hstream
        simp at this
        omega
      | cons msg ms =>
        have hmsg := hframe s _ hJ msg List.mem_cons_self
        have hlong := hmsg.long
        obtain rfl : dataLen = msg.length := by
          have hhead := hlen.1 hsize
          rw [hring.head hstream hmsg hsize] at hhead
          exact (Option.some.inj hhead).symm
        rcases Nat.lt_or_ge ring.size msg.length with hpart | hwhole
        · -- the message is not complete
          refine ⟨ring, s, [], msg :: ms, ?_, rfl, hJ, hring, hstream, ?_⟩
          · rw [receiveLoop, if_neg (by omega)]
          · intro m hm
            cases hm
            exact hpart
        · obtain ⟨hread, hring', hstream', hsize'⟩ := hring.readMessage hstream hmsg hwhole
          obtain ⟨s', hs', hJ'⟩ := hcall s msg ms _ hJ
          obtain ⟨d, hd⟩ := hring'.exists_nextLen hstream' (hframe s' ms hJ')
          obtain ⟨ring', t, done, ms', hrun, hms, hrest⟩ :=
            ih d _ s' ms rest hring' hstream' hJ' (by omega) hd
          refine ⟨ring', t, msg :: done, ms', ?_, by rw [hms, List.cons_append], hrest⟩
          rw [receiveLoop_pass funcMap heap hwhole (by omega) hread hring' (by omega) hs' hd, hrun]

/-- **One call of `ReceiveDataFrom`** hands over exactly the messages that are
completely stored; what stays is less than the next message. -/
theorem receiveDataFrom_spec (ring : CircularBuffer) (s : σ) (ms : List (List UInt8))
    (rest : List UInt8) (hring : RingOk g ring) (hstream : ring.contents ++ rest = ms.flatten)
    (hJ : J s ms) :
    ∃ ring' s' done ms', receiveDataFrom funcMap heap ring s = some (ring', s') ∧
      ms = done ++ ms' ∧ J s' ms' ∧ RingOk g ring' ∧ ring'.contents ++ rest = ms'.flatten ∧
      ∀ msg ∈ ms'.head?, ring'.size < msg.length := by
  obtain ⟨dataLen, hlen⟩ := hring.exists_nextLen hstream (hframe s ms hJ)
  have hspec := receiveLoop_spec funcMap heap g J hframe hcall _ dataLen ring s ms rest hring hstream
    hJ (Nat.lt_succ_self _) hlen
  rw [receiveDataFrom]
  simp only [hring.size_mod, Option.bind_eq_bind]
  split
  · rw [hlen.1 ‹_›]
    exact hspec
  · obtain rfl := hlen.2 (by omega)
    exact hspec

end

/-! ## The messages of the two senders are framed -/

theorem framed_messageOf {g : Nat} (key : Key) (offset : Nat) (value : List UInt8)
    (hfits : key.length + 5 + value.length ≤ 10240) (hdvd : g ∣ key.length + 5 + value.length) :
    Framed g (messageOf key offset value) where
  long := by
    rw [length_messageOf]
    omega
  fits := by rwa [length_messageOf]
  head := by
    rw [messageOf, List.take_left' (length_leBytes 2 _), leValue_leBytes,
      Nat.mod_eq_of_lt (by omega)]
    simp
    omega
  aligned := by rwa [length_messageOf]

/-- Requests are 15 bytes long. -/
theorem framed_requestMessage (size : Nat) : Framed 5 (requestMessage size) :=
  framed_messageOf _ _ _ (by simp [length_commands_REQUESTV])
    (by simp [length_commands_REQUESTV])

/-- The length of a response is even. -/
theorem framed_chunkMessage (offset : Nat) (xs : List UInt64) (hxs : xs.length ≤ k) :
    Framed 2 (chunkMessage offset xs) := by
  have hk : k = 100 := rfl
  apply framed_messageOf <;> rw [length_commands_RESPONSEV, length_elementBytes] <;> omega

theorem dispatch_messageOf (funcMap : FuncMap σ) (s : σ) (key : Key) (offset : Nat)
    (value tail : List UInt8) (hkey : colon ∉ key) (hlen : key.length + 5 + value.length < 65536)
    (hoff : offset < 65536) (f : σ → List UInt8 → Option σ) (hf : funcMap key = some f) :
    dispatch funcMap s (messageOf key offset value ++ tail) =
      f s (messageOf key offset value ++ tail) := by
  rw [dispatch, praseHeader_messageOf key offset value tail hkey hlen hoff, Option.bind_eq_bind,
    Option.bind_some]
  simp only [hf]

theorem dispatch_requestMessage (funcMap : FuncMap σ) (s : σ) (size : Nat) (tail : List UInt8)
    (f : σ → List UInt8 → Option σ) (hf : funcMap (commands .REQUESTV) = some f) :
    dispatch funcMap s (requestMessage size ++ tail) = f s (requestMessage size ++ tail) :=
  dispatch_messageOf funcMap s _ _ _ tail (colon_not_mem_commands _)
    (by simp [length_commands_REQUESTV]) (by decide) f hf

theorem dispatch_chunkMessage (funcMap : FuncMap σ) (s : σ) (offset : Nat) (xs : List UInt64)
    (tail : List UInt8) (hoff : offset < 65536) (hxs : xs.length ≤ k)
    (f : σ → List UInt8 → Option σ) (hf : funcMap (commands .RESPONSEV) = some f) :
    dispatch funcMap s (chunkMessage offset xs ++ tail) = f s (chunkMessage offset xs ++ tail) := by
  have hk : k = 100 := rfl
  exact dispatch_messageOf funcMap s _ _ _ tail (colon_not_mem_commands _)
    (by rw [length_commands_RESPONSEV, length_elementBytes]; omega) hoff f hf

/-! ## Framing is lossless -/

/-- A handler that records the message at the front of its buffer. -/
def record (log : List (List UInt8)) (buffer : List UInt8) : Option (List (List UInt8)) :=
  some (log ++ [buffer.take (leValue (buffer.take 2))])

/-- `func_map` as `SetupMPI` fills it, with recording handlers. -/
def recordMap : FuncMap (List (List UInt8)) := fun key =>
  if key = commands .REQUESTV ∨ key = commands .RESPONSEV then some record else none

/-- What happens at the receiving end of a stream. -/
inductive StreamOp where
  | canRead (n : Nat)
  | receive (heap : Nat → Nat → UInt8)

/-- The channel and the messages handed over so far. -/
def streamStep (st : Channel × List (List UInt8)) : StreamOp → Option (Channel × List (List UInt8))
  | .canRead n => (st.1.onCanRead n).map fun c => (c, st.2)
  | .receive heap =>
    (receiveDataFrom recordMap heap st.1.ring st.2).map fun r =>
      ({ st.1 with ring := r.1 }, r.2)

/-- A packet of `SendRequestVTo`. -/
def IsRequest (msg : List UInt8) : Prop :=
  ∃ size, msg = (createRequestV (commands .REQUESTV) size).1.take
    (createRequestV (commands .REQUESTV) size).2

/-- A packet of `SendResponseVTo` with a full chunk. -/
def IsResponse (msg : List UInt8) : Prop :=
  ∃ past vec offset, offset + k ≤ vec.length % 65536 ∧
    msg = (creatResponseV past (commands .RESPONSEV) vec offset).1.take
      (creatResponseV past (commands .RESPONSEV) vec offset).2

theorem isRequest_eq {msg : List UInt8} (h : IsRequest msg) : ∃ size, msg = requestMessage size := by
  obtain ⟨size, rfl⟩ := h
  refine ⟨size, ?_⟩
  rw [createRequestV_eq _ _ (by rw [length_commands_REQUESTV]; decide)]
  exact List.take_of_length_le (by simp [length_commands_REQUESTV])

theorem isResponse_eq {msg : List UInt8} (h : IsResponse msg) :
    ∃ offset xs, offset < 65536 ∧ xs.length ≤ k ∧ msg = chunkMessage offset xs := by
  have hk : k = 100 := rfl
  obtain ⟨past, vec, offset, hoff, rfl⟩ := h
  have hcount := responseCount_full (vec.length % 65536) offset hoff (Nat.mod_lt _ (by decide))
  have hl : (responseElements past vec offset).length = k := by
    rw [length_responseElements, hcount]
    rfl
  refine ⟨offset, responseElements past vec offset, by omega, by omega, ?_⟩
  rw [creatResponseV_eq past _ vec offset (by omega)
    (by rw [length_commands_RESPONSEV, hl]; decide)]
  exact List.take_of_length_le (by simp [length_commands_RESPONSEV])

/-- Either kind of message is framed and reaches a recording handler. -/
theorem record_message (g : Nat) (msg : List UInt8) (hf : Framed g msg)
    (hmsg : IsRequest msg ∨ IsResponse msg) (log : List (List UInt8)) (tail : List UInt8) :
    dispatch recordMap log (msg ++ tail) = some (log ++ [msg]) := by
  have hrec : record log (msg ++ tail) = some (log ++ [msg]) := by rw [record, hf.front]
  rcases hmsg with h | h
  · obtain ⟨size, rfl⟩ := isRequest_eq h
    rw [dispatch_requestMessage recordMap log size tail record (if_pos (Or.inl rfl)), hrec]
  · obtain ⟨offset, xs, hoff, hxs, rfl⟩ := isResponse_eq h
    rw [dispatch_chunkMessage recordMap log offset xs tail hoff hxs record (if_pos (Or.inr rfl)),
      hrec]

/-- What the receiving end keeps: the bytes not handed over are the messages
not handed over. -/
structure StreamOk (g : Nat) (msgs : List (List UInt8)) (st : Channel × List (List UInt8)) :
    Prop where
  ring : RingOk g st.1.ring
  bytes : ∃ rest, msgs = st.2 ++ rest ∧ st.1.ring.contents ++ st.1.inflight = rest.flatten

/-- One call of `ReceiveDataFrom` on a stream of recorded messages. -/
theorem receive_recorded {g : Nat} {msgs : List (List UInt8)} (hframed : ∀ m ∈ msgs, Framed g m)
    (hkind : ∀ m ∈ msgs, IsRequest m ∨ IsResponse m) (st : Channel × List (List UInt8))
    (hst : StreamOk g msgs st) (heap : Nat → Nat → UInt8) :
    ∃ st', streamStep st (.receive heap) = some st' ∧ StreamOk g msgs st' ∧
      st'.1.inflight = st.1.inflight ∧
      ∀ msg ∈ (msgs.drop st'.2.length).head?, st'.1.ring.size < msg.length := by
  obtain ⟨rest, hrest, hbytes⟩ := hst.bytes
  have hspec := receiveDataFrom_spec recordMap heap g
    (fun log ms => msgs = log ++ ms)
    (fun log ms h m hm => hframed m (by rw [h]; exact List.mem_append_right _ hm))
    (fun log m ms tail h => ⟨log ++ [m],
      record_message g m (hframed m (by rw [h]; simp)) (hkind m (by rw [h]; simp)) log tail,
      by rw [h]; simp⟩)
    st.1.ring st.2 rest st.1.inflight hst.ring hbytes hrest
  obtain ⟨ring', log', done, rest', hrun, -, hlog, hring, hbytes', hhead⟩ := hspec
  refine ⟨({ st.1 with ring := ring' }, log'), ?_, ⟨hring, rest', hlog, hbytes'⟩, rfl, ?_⟩
  · rw [streamStep, hrun]
    rfl
  · rw [hlog, List.drop_left]
    exact hhead

theorem streamStep_ok {g : Nat} {msgs : List (List UInt8)} (hframed : ∀ m ∈ msgs, Framed g m)
    (hkind : ∀ m ∈ msgs, IsRequest m ∨ IsResponse m) (st : Channel × List (List UInt8))
    (op : StreamOp) (st' : Channel × List (List UInt8)) (hst : StreamOk g msgs st)
    (h : streamStep st op = some st') : StreamOk g msgs st' := by
  cases op with
  | canRead n =>
    rw [streamStep, Option.map_eq_some_iff] at h
    obtain ⟨c, hc, rfl⟩ := h
    rw [Channel.onCanRead] at hc
    split at hc
    · rw [Option.map_eq_some_iff] at hc
      obtain ⟨ring', hw, rfl⟩ := hc
      obtain ⟨hring, hcont⟩ := hst.ring.write _ hw
      obtain ⟨rest, hrest, hbytes⟩ := hst.bytes
      refine ⟨hring, rest, hrest, ?_⟩
      show ring'.contents ++ st.1.inflight.drop n = _
      rw [hcont, List.append_assoc, List.take_append_drop, hbytes]
    · cases hc
  | receive heap =>
    obtain ⟨st'', h', hok, -, -⟩ := receive_recorded hframed hkind st hst heap
    rw [h] at h'
    cases h'
    exact hok

/-- **Framing is lossless.**  For a stream of requests or of full-chunk
responses, cut in any way and polled at any moments: what was handed to the
handlers is always a prefix of what was sent, `ReceiveDataFrom` always returns,
and after it every message whose last byte is in the ring was handed over. -/
theorem framing_lossless (heap₀ : Nat → UInt8) (msgs : List (List UInt8))
    (hmsgs : (∀ m ∈ msgs, IsRequest m) ∨ (∀ m ∈ msgs, IsResponse m)) (ops : List StreamOp)
    (st : Channel × List (List UInt8))
    (hrun : runs streamStep ({ inflight := msgs.flatten, ring := .new heap₀ }, []) ops = some st) :
    st.2 <+: msgs ∧
    ∀ heap, ∃ st', streamStep st (.receive heap) = some st' ∧ st'.2 <+: msgs ∧
      ∀ j, j ≤ msgs.length →
        (msgs.take j).flatten.length + st'.1.inflight.length ≤ msgs.flatten.length →
        j ≤ st'.2.length := by
  obtain ⟨g, hg, hd, hframed, hkind⟩ : ∃ g, 2 ≤ g ∧ g ∣ 10240 ∧ (∀ m ∈ msgs, Framed g m) ∧
      ∀ m ∈ msgs, IsRequest m ∨ IsResponse m := by
    rcases hmsgs with h | h
    · refine ⟨5, by decide, by decide, fun m hm => ?_, fun m hm => Or.inl (h m hm)⟩
      obtain ⟨size, rfl⟩ := isRequest_eq (h m hm)
      exact framed_requestMessage size
    · refine ⟨2, by decide, by decide, fun m hm => ?_, fun m hm => Or.inr (h m hm)⟩
      obtain ⟨offset, xs, -, hxs, rfl⟩ := isResponse_eq (h m hm)
      exact framed_chunkMessage offset xs hxs
  have hok : StreamOk g msgs st :=
    runs_invariant (fun s op t hs h => streamStep_ok hframed hkind s op t hs h)
      ⟨RingOk.new heap₀ hg hd, msgs, rfl, by simp⟩ hrun
  obtain ⟨rest, hrest, -⟩ := hok.bytes
  refine ⟨⟨rest, hrest.symm⟩, fun heap => ?_⟩
  obtain ⟨st', hstep, hok', -, hhead⟩ := receive_recorded hframed hkind st hok heap
  obtain ⟨rest', hrest', hbytes'⟩ := hok'.bytes
  refine ⟨st', hstep, ⟨rest', hrest'.symm⟩, fun j hj hwritten => ?_⟩
  -- the first message not handed over would be complete in the ring
  by_contra hlt
  cases rest' with
  | nil =>
    rw [List.append_nil] at hrest'
    rw [← hrest'] at hlt
    omega
  | cons m rest' =>
    have hm := hhead m (by rw [hrest', List.drop_left]; rfl)
    have htake : msgs.take j = st'.2 ++ (m :: rest').take (j - st'.2.length) := by
      rw [hrest', List.take_append, List.take_of_length_le (by omega)]
    obtain ⟨r, hr⟩ : ∃ r, j - st'.2.length = r + 1 := ⟨j - st'.2.length - 1, by omega⟩
    have hlen := congrArg List.length hbytes'
    rw [htake, hr, List.take_succ_cons] at hwritten
    rw [hrest'] at hwritten
    simp only [List.flatten_append, List.flatten_cons, List.length_append,
      CircularBuffer.length_contents] at hwritten hlen
    omega

theorem isRequest_requestMessage (size : Nat) : IsRequest (requestMessage size) := by
  refine ⟨size, ?_⟩
  rw [createRequestV_eq _ _ (by rw [length_commands_REQUESTV]; decide)]
  exact (List.take_of_length_le (by simp [length_commands_REQUESTV])).symm

/-- Two requests, the second cut in its middle. -/
def twoRequests : List (List UInt8) := [requestMessage 100, requestMessage 200]

def twoRequestsOps : List StreamOp :=
  [.canRead 20, .receive fun _ _ => 0, .canRead 10, .receive fun _ _ => 0]

theorem framing_lossless_two_requests : ∃ st,
    runs streamStep ({ inflight := twoRequests.flatten, ring := .new fun _ => 0 }, [])
      twoRequestsOps = some st ∧ st.2 <+: twoRequests := by
  have hsome : (runs streamStep ({ inflight := twoRequests.flatten, ring := .new fun _ => 0 }, [])
      twoRequestsOps).isSome = true := by decide +kernel
  obtain ⟨st, hst⟩ := Option.isSome_iff_exists.1 hsome
  refine ⟨st, hst, (framing_lossless (fun _ => 0) twoRequests (Or.inl ?_) twoRequestsOps st hst).1⟩
  intro m hm
  rcases List.mem_pair.1 hm with rfl | rfl
  · exact isRequest_requestMessage 100
  · exact isRequest_requestMessage 200

end InNetworkAgg
