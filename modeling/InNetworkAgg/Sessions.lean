import InNetworkAgg.Lib.Outcome

/-!
# Sessions, endpoints and channels

(ns3-quic-client-session.cc, ns3-quic-server-session.cc, ns3-quic-backend.cc,
ns3-quic-channel.cc, ns3-transport-stream.cc)

A session owns its endpoint and its streams, a stream owns its channel
(`visitor_`).  The endpoint points to a channel (`channel_`), a channel to the
endpoint (`notifier_`); the destructors keep the two in step, for one channel:

    no step of a session touches what was deleted                        (session_memory)
    its destructor does  ↔  a channel is alive that `channel_` does not point to
    it never does  ↔  the endpoint opens one stream at a time         (session_destroy_iff)
-/

namespace InNetworkAgg

open Outcome PartialRun

/-! ## State -/

inductive Perspective where
  | client
  | server
deriving DecidableEq, Repr

/-- The endpoints of ns3-quic-backend.cc. -/
inductive EndpointKind where
  | helloClient (bidiChannel : Bool)
  | echoServer
  | bandwidthClient
  | bandwidthServer
  | myClient
  | myServer
deriving DecidableEq, Repr

structure Endpoint where
  ready : Bool
  /-- `channel_`: the number of the channel's stream -/
  channel : Option Nat
deriving DecidableEq, Repr

/-- A channel; its `notifier_` is the endpoint of the session or null. -/
structure Visitor where
  notifier : Bool
deriving DecidableEq, Repr

structure Stream where
  number : Nat
  visitor : Option Visitor
deriving DecidableEq, Repr

structure Session where
  ready : Bool
  endpoint : Option Endpoint
  /-- the streams that are alive -/
  streams : List Stream
  /-- how many streams there have been -/
  next : Nat
deriving DecidableEq, Repr

inductive MemoryFault where
  | nullPointer
  | useAfterFree
deriving DecidableEq, Repr

namespace Session

/-- The constructors: a client creates its endpoint, a server waits for a stream. -/
def new : Perspective → Session
  | .client =>
    { ready := false, endpoint := some { ready := false, channel := none }, streams := [], next := 0 }
  | .server => { ready := false, endpoint := none, streams := [], next := 0 }

/-! ## Streams and channels -/

/-- `CreateStream`, then a new channel for the stream: `channel_` points to it and its
`notifier_` is the endpoint `e`. -/
def attach (s : Session) (e : Endpoint) : Session :=
  { s with
    endpoint := some { e with channel := some s.next }
    streams := s.streams ++ [{ number := s.next, visitor := some { notifier := true } }]
    next := s.next + 1 }

/-- `CreateStream` for a stream that the endpoint leaves alone. -/
def createStream (s : Session) : Session :=
  { s with streams := s.streams ++ [{ number := s.next, visitor := none }], next := s.next + 1 }

/-- `OpenOutgoingBidirectionalStream` or `OpenOutgoingUnidirectionalStream` for a new channel.
They return null when the peer allows no more streams, and `set_visitor` is called on that. -/
def openOutgoing (s : Session) (e : Endpoint) (canOpen : Bool) : Except MemoryFault Session :=
  if canOpen then .ok (s.attach e) else .error .nullPointer

/-- `OnSessionReady` -/
def onSessionReady (kind : EndpointKind) (s : Session) (e : Endpoint) (canOpen : Bool) :
    Except MemoryFault Session :=
  let e := { e with ready := true }
  match kind with
  | .helloClient _ => s.openOutgoing e canOpen
  | .bandwidthClient => s.openOutgoing e canOpen
  | .myClient =>
    if e.channel = none then s.openOutgoing e canOpen else .ok { s with endpoint := some e }
  | .echoServer => .ok { s with endpoint := some e }
  | .bandwidthServer => .ok { s with endpoint := some e }
  | .myServer => .ok { s with endpoint := some e }

/-- `OnIncomingBidirectionalStream` (`bidirectional`) and `OnIncomingUnidirectionalStream` -/
def onIncomingStream (kind : EndpointKind) (s : Session) (e : Endpoint) (bidirectional : Bool) :
    Session :=
  match kind with
  | .helloClient _ => s.createStream
  | .bandwidthClient => s.createStream
  | .myClient => s.createStream
  | .echoServer => s.attach e
  | .bandwidthServer => if bidirectional then s.createStream else s.attach e
  | .myServer => if bidirectional then s.attach e else s.createStream

/-- The first lines of the server's `CreateIncomingStream`: the endpoint is created for the
first stream. -/
def ensureEndpoint (side : Perspective) (kind : EndpointKind) (s : Session) (canOpen : Bool) :
    Except MemoryFault Session :=
  if side = .server ∧ s.ready = false ∧ s.endpoint = none then
    onSessionReady kind { s with ready := true } { ready := false, channel := none } canOpen
  else .ok s

/-- `CreateIncomingStream` -/
def createIncomingStream (side : Perspective) (kind : EndpointKind) (s : Session)
    (bidirectional canOpen : Bool) : Except MemoryFault Session := do
  let s ← s.ensureEndpoint side kind canOpen
  match s.endpoint with
  | some e => .ok (onIncomingStream kind s e bidirectional)
  | none => .error .nullPointer

/-- `SetDefaultEncryptionLevel (ENCRYPTION_FORWARD_SECURE)` and `OnTlsHandshakeComplete`, which
only the client overrides. -/
def becomesReady (side : Perspective) (kind : EndpointKind) (s : Session) (canOpen : Bool) :
    Except MemoryFault Session :=
  match side with
  | .client =>
    match s.endpoint with
    | some e => onSessionReady kind { s with ready := true } e canOpen
    | none => .error .nullPointer
  | .server => .ok s

/-- `~Ns3TransportStream`: the channel's `OnDestroy`, which calls `OnChannelDestroy`. -/
def deleteStream (s : Session) (st : Stream) : Except MemoryFault Session :=
  if st.visitor = some { notifier := true } then
    match s.endpoint with
    | some e => .ok { s with endpoint := some { e with channel := none } }
    | none => .error .useAfterFree
  else .ok s

inductive Op where
  /-- one of the two calls that make a client ready; `canOpen` is what
  `CanOpenNextOutgoing…Stream` answers -/
  | becomesReady (canOpen : Bool)
  /-- a stream of the peer -/
  | incoming (bidirectional canOpen : Bool)
  /-- a stream has ended in both directions -/
  | close (number : Nat)
deriving DecidableEq, Repr

def step (side : Perspective) (kind : EndpointKind) (s : Session) :
    Op → Except MemoryFault Session
  | .becomesReady canOpen => s.becomesReady side kind canOpen
  | .incoming bidirectional canOpen => s.createIncomingStream side kind bidirectional canOpen
  | .close number =>
    match s.streams.find? fun st => st.number = number with
    | some st =>
      (s.deleteStream st).map fun s => { s with streams := s.streams.filter (·.number ≠ number) }
    | none => .ok s

/-- The stream is alive and has a channel. -/
def hasChannel (s : Session) (number : Nat) : Bool :=
  s.streams.any fun st => st.number = number && st.visitor.isSome

/-- `channel_` -/
def current (s : Session) : Option Nat := s.endpoint.bind (·.channel)

/-! ## What the endpoint is used for -/

/-- `Send`: whether the bytes get to a stream. -/
def send (s : Session) : Except MemoryFault Bool :=
  match s.current with
  | some number => if s.hasChannel number then .ok true else .error .useAfterFree
  | none => .ok false

/-- `GetBuffer`: the channel whose buffer it is. -/
def getBuffer (s : Session) : Except MemoryFault Nat :=
  match s.current with
  | some number => if s.hasChannel number then .ok number else .error .useAfterFree
  | none => .error .nullPointer

/-- The destructor of the endpoint: `set_notifier (nullptr)` for `channel_`. -/
def deleteEndpoint (s : Session) : Except MemoryFault Session :=
  match s.current with
  | some number =>
    if s.hasChannel number then
      .ok { s with
        endpoint := none
        streams := s.streams.map fun st =>
          if st.number = number then { st with visitor := some { notifier := false } } else st }
    else .error .useAfterFree
  | none => .ok { s with endpoint := none }

/-- The destructor of the session: the members of the derived class go before the streams. -/
def destroy (s : Session) : Except MemoryFault Session := do
  let s ← s.deleteEndpoint
  s.streams.foldlM deleteStream s

end Session

/-! ## Kinds of endpoints -/

/-- `OnSessionReady` opens a stream, given `channel_`. -/
def EndpointKind.opens (kind : EndpointKind) (channel : Option Nat) : Bool :=
  match kind with
  | .helloClient _ => true
  | .bandwidthClient => true
  | .myClient => channel.isNone
  | .echoServer => false
  | .bandwidthServer => false
  | .myServer => false

/-- A stream of the peer gets a channel. -/
def EndpointKind.accepts (kind : EndpointKind) (bidirectional : Bool) : Bool :=
  match kind with
  | .helloClient _ => false
  | .bandwidthClient => false
  | .myClient => false
  | .echoServer => true
  | .bandwidthServer => !bidirectional
  | .myServer => bidirectional

namespace Session

variable {side : Perspective} {kind : EndpointKind} {s t : Session} {e : Endpoint}

theorem onSessionReady_eq (s : Session) (e : Endpoint) (canOpen : Bool) :
    onSessionReady kind s e canOpen =
      if kind.opens e.channel then s.openOutgoing { e with ready := true } canOpen
      else .ok { s with endpoint := some { e with ready := true } } := by
  cases kind with
  | helloClient bidiChannel => rfl
  | echoServer => rfl
  | bandwidthClient => rfl
  | bandwidthServer => rfl
  | myServer => rfl
  | myClient =>
    unfold onSessionReady EndpointKind.opens
    cases e.channel <;> rfl

theorem onIncomingStream_eq (s : Session) (e : Endpoint) (bidirectional : Bool) :
    onIncomingStream kind s e bidirectional =
      if kind.accepts bidirectional then s.attach e else s.createStream := by
  cases kind <;> cases bidirectional <;> rfl

/-- The operation opens a stream, and the peer allows no more. -/
def Refused (side : Perspective) (kind : EndpointKind) (s : Session) : Op → Prop
  | .becomesReady canOpen => side = .client ∧ kind.opens s.current = true ∧ canOpen = false
  | .incoming _ canOpen =>
    side = .server ∧ s.endpoint = none ∧ kind.opens none = true ∧ canOpen = false
  | .close _ => False

/-! ## Invariant -/

theorem hasChannel_iff {n : Nat} :
    s.hasChannel n = true ↔ ∃ st ∈ s.streams, st.number = n ∧ st.visitor.isSome = true := by
  unfold hasChannel
  rw [List.any_eq_true]
  simp only [Bool.and_eq_true, decide_eq_true_eq]

structure Inv (side : Perspective) (s : Session) : Prop where
  notified : ∀ st ∈ s.streams, st.visitor = none ∨
    st.visitor = some { notifier := true } ∧ s.endpoint ≠ none
  current : ∀ n, s.current = some n → s.hasChannel n = true
  numbers : ∀ st ∈ s.streams, st.number < s.next
  nodup : (s.streams.map (·.number)).Nodup
  waiting : s.endpoint = none → side = .server ∧ s.ready = false ∧ s.streams = []

theorem Inv.new (side : Perspective) : Inv side (Session.new side) where
  notified st hst := by
    cases side <;> exact absurd hst List.not_mem_nil
  current n hn := by
    cases side <;> cases hn
  numbers st hst := by
    cases side <;> exact absurd hst List.not_mem_nil
  nodup := by
    cases side <;> exact List.nodup_nil
  waiting hnone := by
    cases side with
    | client => cases hnone
    | server => exact ⟨rfl, rfl, rfl⟩

/-- A new stream, with its channel or without. -/
theorem nodup_create (hnumbers : ∀ st ∈ s.streams, st.number < s.next)
    (hnodup : (s.streams.map (·.number)).Nodup) (visitor : Option Visitor) :
    (∀ st ∈ s.streams ++ [Stream.mk s.next visitor], st.number < s.next + 1) ∧
      ((s.streams ++ [Stream.mk s.next visitor]).map (·.number)).Nodup := by
  constructor
  · intro st hst
    rcases List.mem_append.1 hst with hst | hst
    · exact Nat.lt_succ_of_lt (hnumbers st hst)
    · rw [List.mem_singleton.1 hst]
      exact Nat.lt_succ_self _
  · rw [List.map_append, List.nodup_append]
    refine ⟨hnodup, List.nodup_singleton _, ?_⟩
    rintro n hn m hm rfl
    obtain ⟨st, hst, rfl⟩ := List.mem_map.1 hn
    have hlt := hnumbers st hst
    have heq : st.number = s.next := by simpa using hm
    omega

theorem hasChannel_attach {n : Nat} :
    (s.attach e).hasChannel n = true ↔ s.hasChannel n = true ∨ n = s.next := by
  unfold hasChannel attach
  rw [List.any_append, Bool.or_eq_true]
  refine or_congr Iff.rfl ?_
  simp [eq_comm]

theorem hasChannel_createStream {n : Nat} : s.createStream.hasChannel n = s.hasChannel n := by
  unfold hasChannel createStream
  simp [List.any_append]

/-- The endpoint sets its flag, or is new. -/
theorem Inv.setEndpoint (h : Inv side s) (e : Endpoint) (he : e.channel = s.current)
    (ready : Bool) : Inv side { s with ready := ready, endpoint := some e } where
  notified st hst := (h.notified st hst).imp_right fun hv => ⟨hv.1, by simp⟩
  current n hn := h.current n (he ▸ hn)
  numbers := h.numbers
  nodup := h.nodup
  waiting hnone := by cases hnone

theorem Inv.attach (h : Inv side s) (e : Endpoint) : Inv side (s.attach e) where
  notified st hst := by
    rcases List.mem_append.1 hst with hst | hst
    · exact (h.notified st hst).imp_right fun hv => ⟨hv.1, by simp [Session.attach]⟩
    · rw [List.mem_singleton.1 hst]
      exact .inr ⟨rfl, by simp [Session.attach]⟩
  current n hn := by
    have hn : some s.next = some n := hn
    cases hn
    exact hasChannel_attach.2 (.inr rfl)
  numbers := (nodup_create h.numbers h.nodup _).1
  nodup := (nodup_create h.numbers h.nodup _).2
  waiting hnone := by cases hnone

theorem Inv.createStream (h : Inv side s) (he : s.endpoint ≠ none) :
    Inv side s.createStream where
  notified st hst := by
    rcases List.mem_append.1 hst with hst | hst
    · exact h.notified st hst
    · rw [List.mem_singleton.1 hst]
      exact .inl rfl
  current n hn := by
    rw [hasChannel_createStream]
    exact h.current n hn
  numbers := (nodup_create h.numbers h.nodup _).1
  nodup := (nodup_create h.numbers h.nodup _).2
  waiting hnone := absurd hnone he

theorem Inv.onSessionReady (h : Inv side s) (he : e.channel = s.current) (canOpen ready : Bool) :
    Ends (fun t => Inv side t ∧ t.endpoint ≠ none)
      (fun f => f = .nullPointer ∧ kind.opens e.channel = true ∧ canOpen = false)
      (onSessionReady kind { s with ready := ready } e canOpen) := by
  have hset := h.setEndpoint { e with ready := true } he ready
  rw [onSessionReady_eq]
  split
  · rename_i hopens
    unfold Session.openOutgoing
    cases canOpen with
    | true => exact ⟨hset.attach { e with ready := true }, by simp [Session.attach]⟩
    | false => exact ⟨rfl, hopens, rfl⟩
  · exact ⟨hset, by simp⟩

theorem Inv.onIncomingStream (h : Inv side s) (he : s.endpoint = some e) (bidirectional : Bool) :
    Inv side (onIncomingStream kind s e bidirectional) := by
  rw [onIncomingStream_eq]
  split
  · exact h.attach e
  · exact h.createStream (by simp [he])

theorem hasChannel_filter {n m : Nat} :
    ({ s with streams := s.streams.filter (·.number ≠ n) } : Session).hasChannel m = true ↔
      s.hasChannel m = true ∧ m ≠ n := by
  rw [hasChannel_iff, hasChannel_iff]
  constructor
  · rintro ⟨st, hst, rfl, hv⟩
    obtain ⟨hst, hne⟩ := List.mem_filter.1 hst
    exact ⟨⟨st, hst, rfl, hv⟩, of_decide_eq_true hne⟩
  · rintro ⟨⟨st, hst, rfl, hv⟩, hne⟩
    exact ⟨st, List.mem_filter.2 ⟨hst, decide_eq_true hne⟩, rfl, hv⟩

/-- The end of a stream: its channel goes, and `channel_` is reset when there was one, even if
it points to another channel. -/
theorem Inv.close (kind : EndpointKind) (h : Inv side s) (n : Nat) :
    ∃ t, step side kind s (.close n) = .ok t ∧ Inv side t ∧
      (∀ m, t.hasChannel m = true ↔ s.hasChannel m = true ∧ m ≠ n) ∧
      (t.endpoint = none ↔ s.endpoint = none) ∧
      t.current = if s.hasChannel n then none else s.current := by
  unfold Session.step
  dsimp only
  cases hfind : s.streams.find? fun st => decide (st.number = n) with
  | none =>
    have hno : ¬s.hasChannel n = true := by
      intro hn
      obtain ⟨st, hst, hnumber, -⟩ := hasChannel_iff.1 hn
      exact absurd (decide_eq_true hnumber) (List.find?_eq_none.1 hfind st hst)
    refine ⟨s, rfl, h, fun m => ⟨fun hm => ⟨hm, ?_⟩, fun hm => hm.1⟩, Iff.rfl, (if_neg hno).symm⟩
    rintro rfl
    exact hno hm
  | some st =>
    have hst := List.mem_of_find?_eq_some hfind
    have hnumber : st.number = n := by simpa using List.find?_some hfind
    have hsub : ∀ st' ∈ s.streams.filter (·.number ≠ n), st' ∈ s.streams :=
      fun st' hst' => (List.mem_filter.1 hst').1
    have hnodup : ((s.streams.filter (·.number ≠ n)).map (·.number)).Nodup :=
      h.nodup.sublist (List.filter_sublist.map _)
    dsimp only
    rcases h.notified st hst with hv | ⟨hv, hendpoint⟩
    · -- a stream without a channel
      have hno : ¬s.hasChannel n = true := by
        intro hn
        obtain ⟨st', hst', hnumber', hv'⟩ := hasChannel_iff.1 hn
        obtain rfl := List.inj_on_of_nodup_map h.nodup hst' hst (hnumber'.trans hnumber.symm)
        rw [hv] at hv'
        cases hv'
      have hdelete : s.deleteStream st = .ok s := by
        rw [deleteStream, if_neg (by rw [hv]; simp)]
      rw [hdelete]
      refine ⟨_, rfl, ?_, fun m => hasChannel_filter, Iff.rfl, (if_neg hno).symm⟩
      refine ⟨fun st' hst' => h.notified st' (hsub st' hst'), fun m hm => ?_,
        fun st' hst' => h.numbers st' (hsub st' hst'), hnodup, fun hnone => ?_⟩
      · refine hasChannel_filter.2 ⟨h.current m hm, ?_⟩
        rintro rfl
        exact hno (h.current m hm)
      · rw [(h.waiting hnone).2.2] at hst
        cases hst
    · have hchannel : s.hasChannel n = true :=
        hasChannel_iff.2 ⟨st, hst, hnumber, by rw [hv]; rfl⟩
      obtain ⟨e, he⟩ := Option.ne_none_iff_exists'.1 hendpoint
      have hdelete : s.deleteStream st =
          .ok { s with endpoint := some { e with channel := none } } := by
        rw [deleteStream, if_pos hv, he]
      rw [hdelete]
      refine ⟨_, rfl, ?_, fun m => hasChannel_filter, by simp [he], (if_pos hchannel).symm⟩
      refine ⟨fun st' hst' => ?_, fun m hm => ?_,
        fun st' hst' => h.numbers st' (hsub st' hst'), hnodup, fun hnone => ?_⟩
      · exact (h.notified st' (hsub st' hst')).imp_right fun hv' => ⟨hv'.1, by simp⟩
      · cases hm
      · cases hnone

theorem Inv.endpoint_of_client (h : Inv .client s) : ∃ e, s.endpoint = some e := by
  cases he : s.endpoint with
  | some e => exact ⟨e, rfl⟩
  | none => cases (h.waiting he).1

/-- A client has its endpoint from the start. -/
theorem step_becomesReady (he : s.endpoint = some e) (canOpen : Bool) :
    step .client kind s (.becomesReady canOpen) =
      onSessionReady kind { s with ready := true } e canOpen := by
  unfold step becomesReady
  dsimp only
  rw [he]

theorem Inv.step (kind : EndpointKind) (h : Inv side s) (op : Op) :
    Ends (Inv side) (fun f => f = .nullPointer ∧ Refused side kind s op)
      (step side kind s op) := by
  cases op with
  | becomesReady canOpen =>
    cases side with
    | server => exact h
    | client =>
      obtain ⟨e, he⟩ := h.endpoint_of_client
      have hcurrent : s.current = e.channel := by
        unfold Session.current
        rw [he]
        rfl
      rw [step_becomesReady he]
      refine (h.onSessionReady hcurrent.symm canOpen true).mono (fun t ht => ht.1) ?_
      rintro f ⟨rfl, hopens, hno⟩
      exact ⟨rfl, rfl, hcurrent ▸ hopens, hno⟩
  | incoming bidirectional canOpen =>
    unfold Session.step createIncomingStream
    dsimp only
    refine Ends.bind (P := fun t => Inv side t ∧ t.endpoint ≠ none) ?_ fun t ht => ?_
    · unfold ensureEndpoint
      split
      · rename_i hfirst
        refine (h.onSessionReady ?_ canOpen true).mono (fun t ht => ht) ?_
        · unfold Session.current
          rw [hfirst.2.2]
          rfl
        · rintro f ⟨rfl, hopens, hno⟩
          exact ⟨rfl, hfirst.1, hfirst.2.2, hopens, hno⟩
      · rename_i hlater
        refine ⟨h, fun hnone => hlater ?_⟩
        exact ⟨(h.waiting hnone).1, (h.waiting hnone).2.1, hnone⟩
    · obtain ⟨e, he⟩ := Option.ne_none_iff_exists'.1 ht.2
      rw [he]
      exact ht.1.onIncomingStream he bidirectional
  | close number =>
    obtain ⟨t, hstep, ht, -⟩ := h.close kind number
    rw [hstep]
    exact ht

/-- A stream that the peer does not allow. -/
theorem Inv.refused (h : Inv side s) {op : Op} (href : Refused side kind s op) :
    Session.step side kind s op = .error .nullPointer := by
  cases op with
  | becomesReady canOpen =>
    obtain ⟨rfl, hopens, rfl⟩ := href
    obtain ⟨e, he⟩ := h.endpoint_of_client
    have hcurrent : s.current = e.channel := by
      unfold Session.current
      rw [he]
      rfl
    rw [step_becomesReady he, onSessionReady_eq, if_pos (hcurrent ▸ hopens)]
    rfl
  | incoming bidirectional canOpen =>
    obtain ⟨rfl, hnone, hopens, rfl⟩ := href
    unfold Session.step createIncomingStream ensureEndpoint
    dsimp only
    rw [if_pos ⟨rfl, (h.waiting hnone).2.1, hnone⟩, onSessionReady_eq, if_pos hopens]
    rfl
  | close number => exact href.elim

/-! ## The destructor -/

theorem deleteStreams_eq (hs : s.endpoint = none) (sts : List Stream) :
    sts.foldlM deleteStream s =
      if ∃ st ∈ sts, st.visitor = some { notifier := true } then .error .useAfterFree
      else .ok s := by
  induction sts with
  | nil => rfl
  | cons st sts ih =>
    rw [List.foldlM_cons]
    by_cases hv : st.visitor = some { notifier := true }
    · rw [if_pos ⟨st, List.mem_cons_self, hv⟩, deleteStream, if_pos hv, hs]
      rfl
    · have hok : s.deleteStream st = .ok s := by rw [deleteStream, if_neg hv]
      have hrest : (∃ st' ∈ st :: sts, st'.visitor = some { notifier := true }) ↔
          ∃ st' ∈ sts, st'.visitor = some { notifier := true } := by
        rw [List.exists_mem_cons_iff]
        exact or_iff_right hv
      rw [hok]
      simp only [hrest]
      exact ih

/-- The channels that are alive have `channel_` pointing to them. -/
def Alone (s : Session) : Prop := ∀ n, s.hasChannel n = true → s.current = some n

/-- The streams when the endpoint is gone. -/
def released (s : Session) : List Stream :=
  s.streams.map fun st =>
    if s.current = some st.number then { st with visitor := some { notifier := false } } else st

theorem Inv.deleteEndpoint (h : Inv side s) :
    s.deleteEndpoint = .ok { s with endpoint := none, streams := s.released } := by
  unfold Session.deleteEndpoint released
  cases hcurrent : s.current with
  | none => simp
  | some n =>
    dsimp only
    rw [if_pos (h.current n hcurrent)]
    simp only [Option.some.injEq, eq_comm]

/-- Some channel still has its notifier. -/
theorem Inv.released_iff (h : Inv side s) :
    (∃ st ∈ s.released, st.visitor = some { notifier := true }) ↔ ¬Alone s := by
  constructor
  · rintro ⟨st, hst, hv⟩ halone
    obtain ⟨st', hst', rfl⟩ := List.mem_map.1 hst
    split at hv
    · cases hv
    · rename_i hother
      exact hother (halone _ (hasChannel_iff.2 ⟨st', hst', rfl, by rw [hv]; rfl⟩))
  · intro hnot
    obtain ⟨n, hn⟩ := not_forall.1 hnot
    obtain ⟨hn, hother⟩ := Classical.not_imp.1 hn
    obtain ⟨st, hst, rfl, hv⟩ := hasChannel_iff.1 hn
    refine ⟨st, List.mem_map.2 ⟨st, hst, if_neg hother⟩, ?_⟩
    rcases h.notified st hst with hnone | ⟨hsome, -⟩
    · rw [hnone] at hv
      cases hv
    · exact hsome

theorem Inv.destroy (h : Inv side s) :
    (Alone s → ∃ t, s.destroy = .ok t) ∧ (¬Alone s → s.destroy = .error .useAfterFree) := by
  have hdestroy : s.destroy =
      if ∃ st ∈ s.released, st.visitor = some { notifier := true } then .error .useAfterFree
      else .ok { s with endpoint := none, streams := s.released } := by
    unfold Session.destroy
    rw [h.deleteEndpoint]
    exact deleteStreams_eq rfl s.released
  constructor
  · intro halone
    rw [hdestroy, if_neg fun hex => h.released_iff.1 hex halone]
    exact ⟨_, rfl⟩
  · intro hnot
    rw [hdestroy, if_pos (h.released_iff.2 hnot)]

theorem inv_of_runs {ops : List Op}
    (hrun : runs (returning (step side kind)) (new side) ops = some s) : Inv side s :=
  runs_ends (G := fun _ => True) (Q := fun _ => True)
    (fun _ op hu _ => (hu.step kind op).mono (fun _ ht => ht) fun _ _ => trivial) ops _ s
    (Inv.new side) (fun _ _ => trivial) hrun

/-- **What a session touches**, in every run: an operation fails exactly when it opens a stream
that the peer does not allow, `Send` and `GetBuffer` never reach a deleted channel, and the
destructor reaches a deleted endpoint exactly when a channel is alive that `channel_` does not
point to. -/
theorem session_memory (side : Perspective) (kind : EndpointKind) (ops : List Op) (s : Session)
    (hrun : runs (returning (step side kind)) (new side) ops = some s) :
    (∀ op f, step side kind s op = .error f ↔ f = .nullPointer ∧ Refused side kind s op) ∧
      s.send = .ok s.current.isSome ∧
      s.getBuffer = s.current.elim (.error .nullPointer) .ok ∧
      (s.destroy = .error .useAfterFree ↔
        ∃ n, s.hasChannel n = true ∧ s.current ≠ some n) ∧
      s.destroy ≠ .error .nullPointer := by
  have h := inv_of_runs hrun
  have halone : ¬Alone s ↔ ∃ n, s.hasChannel n = true ∧ s.current ≠ some n := by
    unfold Alone
    simp only [not_forall, exists_prop, ne_eq]
  refine ⟨fun op f => ⟨fun herr => (h.step kind op).of_error herr, ?_⟩, ?_, ?_, ?_, ?_⟩
  · rintro ⟨rfl, href⟩
    exact h.refused href
  · unfold send
    cases hcurrent : s.current with
    | none => rfl
    | some n => exact if_pos (h.current n hcurrent)
  · unfold getBuffer
    cases hcurrent : s.current with
    | none => rfl
    | some n => exact if_pos (h.current n hcurrent)
  · rw [← halone]
    constructor
    · intro herr hal
      obtain ⟨t, hok⟩ := h.destroy.1 hal
      rw [hok] at herr
      cases herr
    · exact h.destroy.2
  · intro herr
    by_cases hal : Alone s
    · obtain ⟨t, hok⟩ := h.destroy.1 hal
      rw [hok] at herr
      cases herr
    · rw [h.destroy.2 hal] at herr
      cases herr

/-- The hello client opens a stream for each of the two calls that make it ready. -/
theorem session_memory_hello :
    ∃ s, runs (returning (step .client (.helloClient true))) (new .client)
        [.becomesReady true, .becomesReady true] = some s ∧
      s.current = some 1 ∧ s.destroy = .error .useAfterFree := by
  refine ⟨_, rfl, rfl, ?_⟩
  exact (session_memory .client (.helloClient true) [.becomesReady true, .becomesReady true] _
    rfl).2.2.2.1.2 ⟨0, rfl, by decide⟩

/-! ## One channel at a time -/

theorem Alone.attach (hno : ∀ n, ¬s.hasChannel n = true) (e : Endpoint) :
    Alone (s.attach e) := by
  intro n hn
  rcases hasChannel_attach.1 hn with hn | rfl
  · exact absurd hn (hno n)
  · rfl

theorem Alone.no_channel (h : Alone s) (hcurrent : s.current = none) (n : Nat) :
    ¬s.hasChannel n = true := by
  intro hn
  have := h n hn
  rw [hcurrent] at this
  cases this

theorem Alone.onSessionReady (h : Alone s) (he : e.channel = s.current)
    (hopens : kind.opens e.channel = true → ∀ n, ¬s.hasChannel n = true) (canOpen ready : Bool) :
    Ends Alone (fun _ => True) (onSessionReady kind { s with ready := ready } e canOpen) := by
  rw [onSessionReady_eq]
  split
  · rename_i hkind
    unfold openOutgoing
    split
    · exact Alone.attach (s := { s with ready := ready }) (hopens hkind) _
    · trivial
  · intro n hn
    exact he ▸ h n hn

/-- The endpoint opens a stream only when it has none. -/
def Single (side : Perspective) (kind : EndpointKind) : Prop :=
  kind = .myClient ∨
    side = .server ∧ kind.accepts true = false ∧ kind.accepts false = false

instance (side : Perspective) (kind : EndpointKind) : Decidable (Single side kind) :=
  instDecidableOr

theorem Single.accepts (h : Single side kind) (bidirectional : Bool) :
    kind.accepts bidirectional = false := by
  rcases h with rfl | ⟨-, htrue, hfalse⟩
  · rfl
  · cases bidirectional with
    | true => exact htrue
    | false => exact hfalse

theorem Alone.step (h : Alone s) (hinv : Inv side s) (hsingle : Single side kind) (op : Op) :
    Ends Alone (fun _ => True) (step side kind s op) := by
  cases op with
  | becomesReady canOpen =>
    cases side with
    | server => exact h
    | client =>
      obtain ⟨e, he⟩ := hinv.endpoint_of_client
      have hcurrent : e.channel = s.current := by
        unfold Session.current
        rw [he]
        rfl
      obtain rfl : kind = .myClient := hsingle.resolve_right fun hside => by cases hside.1
      rw [step_becomesReady he]
      refine h.onSessionReady hcurrent (fun hopens => ?_) canOpen true
      exact h.no_channel (hcurrent ▸ Option.isNone_iff_eq_none.1 hopens)
  | incoming bidirectional canOpen =>
    unfold Session.step createIncomingStream
    dsimp only
    refine Ends.bind (P := Alone) ?_ fun t ht => ?_
    · unfold ensureEndpoint
      split
      · rename_i hfirst
        refine h.onSessionReady ?_ (fun _ n hn => ?_) canOpen true
        · unfold Session.current
          rw [hfirst.2.2]
          rfl
        · obtain ⟨st, hst, -⟩ := hasChannel_iff.1 hn
          rw [(hinv.waiting hfirst.2.2).2.2] at hst
          cases hst
      · exact h
    · split
      · rename_i e he
        rw [onIncomingStream_eq, hsingle.accepts bidirectional]
        intro n hn
        have hn : t.createStream.hasChannel n = true := hn
        rw [hasChannel_createStream] at hn
        exact ht n hn
      · trivial
  | close number =>
    obtain ⟨t, hstep, -, hchannels, -, hcurrent⟩ := hinv.close kind number
    rw [hstep]
    intro n hn
    obtain ⟨hn, hother⟩ := (hchannels n).1 hn
    rw [hcurrent, if_neg fun hnumber => hother ?_]
    · exact h n hn
    · exact Option.some.inj ((h n hn).symm.trans (h number hnumber))

/-- **When the destructor is safe.**  In every run of a session its destructor touches nothing
deleted, and equally at most one channel is alive at any time, exactly for `MyClientEndpoint`
and for a server whose endpoint takes no streams of the peer. -/
theorem session_destroy_iff (side : Perspective) (kind : EndpointKind) :
    ((∀ ops s, runs (returning (step side kind)) (new side) ops = some s →
        ∃ t, s.destroy = .ok t) ↔ Single side kind) ∧
      ((∀ ops s, runs (returning (step side kind)) (new side) ops = some s →
        ∀ n m, s.hasChannel n = true → s.hasChannel m = true → n = m) ↔ Single side kind) := by
  have halone : Single side kind → ∀ ops s,
      runs (returning (step side kind)) (new side) ops = some s → Inv side s ∧ Alone s := by
    intro hsingle ops s hrun
    refine runs_ends (G := fun _ => True) (Q := fun _ => True)
      (I := fun u => Inv side u ∧ Alone u) (fun u op hu _ => ?_) ops _ s
      ⟨Inv.new side, fun n hn => ?_⟩ (fun _ _ => trivial) hrun
    · have hinv := hu.1.step kind op
      have hal := hu.2.step hu.1 hsingle op
      cases hstep : step side kind u op with
      | ok t => exact ⟨hinv.of_ok hstep, hal.of_ok hstep⟩
      | error f => trivial
    · cases side <;> cases hn
  -- two streams that both get a channel
  have htwo : ¬Single side kind → ∃ ops s,
      runs (returning (step side kind)) (new side) ops = some s ∧
        s.hasChannel 0 = true ∧ s.hasChannel 1 = true ∧ s.destroy = .error .useAfterFree := by
    intro hnot
    cases kind with
    | helloClient bidiChannel =>
      cases side with
      | client => exact ⟨[.becomesReady true, .becomesReady true], _, rfl, rfl, rfl, rfl⟩
      | server => exact absurd (.inr ⟨rfl, rfl, rfl⟩) hnot
    | bandwidthClient =>
      cases side with
      | client => exact ⟨[.becomesReady true, .becomesReady true], _, rfl, rfl, rfl, rfl⟩
      | server => exact absurd (.inr ⟨rfl, rfl, rfl⟩) hnot
    | myClient => exact absurd (.inl rfl) hnot
    | echoServer =>
      cases side <;>
        exact ⟨[.incoming true true, .incoming true true], _, rfl, rfl, rfl, rfl⟩
    | bandwidthServer =>
      cases side <;>
        exact ⟨[.incoming false true, .incoming false true], _, rfl, rfl, rfl, rfl⟩
    | myServer =>
      cases side <;>
        exact ⟨[.incoming true true, .incoming true true], _, rfl, rfl, rfl, rfl⟩
  constructor
  · constructor
    · intro hall
      by_contra hnot
      obtain ⟨ops, s, hrun, -, -, herr⟩ := htwo hnot
      obtain ⟨t, hok⟩ := hall ops s hrun
      rw [hok] at herr
      cases herr
    · intro hsingle ops s hrun
      obtain ⟨hinv, hal⟩ := halone hsingle ops s hrun
      exact hinv.destroy.1 hal
  · constructor
    · intro hall
      by_contra hnot
      obtain ⟨ops, s, hrun, hzero, hone, -⟩ := htwo hnot
      cases hall ops s hrun 0 1 hzero hone
    · intro hsingle ops s hrun n m hn hm
      obtain ⟨-, hal⟩ := halone hsingle ops s hrun
      exact Option.some.inj ((hal n hn).symm.trans (hal m hm))

end Session

end InNetworkAgg
