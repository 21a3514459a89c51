import InNetworkAgg.Deployment

/-!
# The ring of a channel (`MyChannel::OnCanRead`, `CircularBuffer::write`)

`OnCanRead` reads up to 8192 bytes into a ring of 10240, whatever is still in
it.  Between two polls at most the answer of one round can arrive, that is one
message of at most 814 bytes for each chunk.  So all arrivals fit, in every run
of every deployment, exactly when the answer does:

    RingsFit (expandVsize vsize) ↔ expandVsize vsize ≤ 1200       (rings_fit)
-/

namespace InNetworkAgg

open PartialRun SimpleMPI World Rounds RoseTree

/-- The expansion of `vsize` in `main`. -/
def expandVsize (vsize : Nat) : Nat :=
  if vsize / k = 0 then vsize else (vsize + k - 1) / k * k % 65536

/-- Whatever can arrive next passes the check of `CircularBuffer::write`. -/
def WritesFit (w : World) : Prop :=
  ∀ src dst n, n ≤ 1024 * 8 → n ≤ (w.link src dst).chan.inflight.length →
    n ≤ (w.link src dst).chan.ring.capacity - (w.link src dst).chan.ring.size

/-- At every write of every run the bytes fit. -/
def RingsFit (vsize : Nat) : Prop :=
  ∀ (addrOf : String → Address) (t : RoseTree String), IsAggTree addrOf t →
    ∀ itr < 65536, ∀ port apps, Deployed addrOf itr vsize port t apps →
      ∀ env : Env, env.consumer = addrOf t.label → ∀ garbage heap acts w,
        runs (exec env) (World.init addrOf garbage heap apps) acts = some w → WritesFit w

/-! ## One answer is on the way -/

theorem length_flatten_le {ms : List (List UInt8)} {n : Nat} (h : ∀ m ∈ ms, m.length ≤ n) :
    ms.flatten.length ≤ ms.length * n := by
  rw [List.length_flatten]
  have := List.sum_le_card_nsmul (ms.map List.length) n (by simpa using h)
  simpa using this

section
variable {P : Plan} {ρ : State Address} {w : World}

/-- Between two polls there is one request on the way, or the parts of one answer. -/
theorem Ok.count_le (h : Ok P ρ w) {a b : Address} (hl : P.Linked a b) :
    (w.link a b).pending.length ≤ max 1 P.parts := by
  rcases hl with hb | ha
  · have he := (h.inv.edge a b hb).request
    rw [(h.sim.down a b hb).pending, List.length_replicate]
    omega
  · have hup := h.sim.up b a ha
    have he := h.inv.edge b a ha
    have h1 := Nat.mul_le_mul_left P.parts he.done_lt
    have h2 := he.taken_ge
    rw [Nat.mul_succ] at h1
    rw [hup.pending he.taken_le, List.length_map, List.length_drop, hup.length]
    omega

/-- With answers of at most 12 chunks everything fits. -/
theorem Ok.writesFit (h : Ok P ρ w) (hsize : P.size ≤ 1200) : WritesFit w := by
  have hk : k = 100 := rfl
  intro src dst n _ hn
  by_cases hl : P.Linked src dst
  · have hflows := h.flows src dst hl
    have hparts : P.parts ≤ 12 := by
      by_contra hcon
      have := (lt_chunkCount 12 P.size).1 (Nat.lt_of_not_le hcon)
      omega
    have hcount := h.count_le hl
    have hle := length_flatten_le (h.sim.length_le h.inv hl)
    rw [← hflows.bytes, List.length_append, CircularBuffer.length_contents] at hle
    rw [hflows.ring.cap]
    omega
  · have hidle := h.sim.idle src dst (fun e => hl (Or.inl e)) fun e => hl (Or.inr e)
    rw [hidle, List.length_nil] at hn
    omega

end

theorem ringsFit_of_le {vsize : Nat} (hv : vsize ≤ 1200) : RingsFit vsize := by
  have hk : k = 100 := rfl
  intro addrOf t ht itr hitr port apps hd env henv garbage heap acts w hw
  have hchunks : chunkCount vsize < 256 := by
    by_contra hcon
    have := (lt_chunkCount 12 vsize).1 (by omega)
    omega
  obtain ⟨ρ, hok⟩ := (ht.ok_init henv hchunks hitr (hd.wires ht) garbage heap).runs hw
  exact hok.writesFit hv

/-! ## One answer is too long -/

/-- One consumer and one producer, set up with vectors of `vsize` elements. -/
def directWorld (vsize : Nat) : World :=
  World.init directAddr (fun _ => 0) (fun _ _ _ => 0)
    (directApps directAddr 1 vsize 1234 "con0" ["pro0"])

def directEnv : Env := { consumer := 1, rand := fun _ j => j, time := fun _ r => r }

/-- The producer answers, and one full read of the answer arrives. -/
def overflowActs : List World.Action :=
  [.start 0, .deliver 1 2 15, .poll 2 1 (fun _ => 0) fun _ _ => 0, .deliver 2 1 8192]

section
variable (vsize : Nat)

theorem directWorld_pro : (directWorld vsize).node 2 =
    { SimpleMPI.fresh 0 with sGroup := [1] } := rfl

/-- The first request is on its way. -/
theorem directWorld_start : ∃ w, exec directEnv (directWorld vsize) (.start 0) = some w ∧
    w.node 2 = { SimpleMPI.fresh 0 with sGroup := [1] } ∧
    (w.link 1 2).chan = { inflight := requestMessage vsize, ring := .new fun _ => 0 } ∧
    (w.link 2 1).chan = { inflight := [], ring := .new fun _ => 0 } := by
  have havg := doAVG_start 0 ((directWorld vsize).node 1) rfl rfl
    (show [2].length < 256 by decide)
  refine ⟨_, (congrArg (Option.map _) havg).trans rfl, ?_, ?_, ?_⟩
  · rw [perform_node]
    exact (Function.update_of_ne (by decide) _ _).trans (directWorld_pro vsize)
  · have hp : packetsTo 2 (startEffects 1 vsize [2]) = [requestMessage vsize] :=
      packetsTo_startEffects 1 vsize (by decide) 2
    show ((perform directEnv 1 _ _).link 1 2).chan = _
    rw [perform_link_self]
    show (Link.sendAll _ _ (packetsTo 2 (startEffects 1 vsize [2]))).chan = _
    rw [hp]
    rfl
  · rw [perform_link_of_ne _ _ _ _ _ (by decide)]
    rfl

/-- It is in the producer's ring. -/
theorem directWorld_request : ∃ w,
    runs (exec directEnv) (directWorld vsize) [.start 0, .deliver 1 2 15] = some w ∧
    w.node 2 = { SimpleMPI.fresh 0 with sGroup := [1] } ∧
    RingOk 5 (w.link 1 2).chan.ring ∧ (w.link 1 2).chan.ring.contents = requestMessage vsize ∧
    (w.link 2 1).chan = { inflight := [], ring := .new fun _ => 0 } := by
  obtain ⟨w₁, hw₁, hpro, h12, h21⟩ := directWorld_start vsize
  obtain ⟨w₂, ring, hw₂, hnode, hframe, hchan, hwrite, -, -⟩ := exec_deliver directEnv 15 h12
    (CircularBuffer.new_wf _) rfl (by decide) (by decide) (by rw [length_requestMessage])
    (show 0 + 15 ≤ 10240 by decide)
  have hok := (RingOk.new (g := 5) (fun _ => 0) (by decide) (by decide)).write _ hwrite
  rw [List.take_of_length_le (by rw [length_requestMessage]), CircularBuffer.contents_new,
    List.nil_append] at hok
  refine ⟨w₂, ?_, by rw [hnode, hpro], ?_, ?_, ?_⟩
  · rw [runs_cons, hw₁, Option.bind_some, runs_cons, hw₂, Option.bind_some, runs_nil]
  · rw [hchan]
    exact hok.1
  · rw [hchan]
    exact hok.2
  · rw [hframe 2 1 (by decide), h21]

/-- The producer's whole answer is on its way. -/
def Answered (w : World) : Prop :=
  ∃ vec : List UInt64, vec.length = vsize ∧ (w.link 2 1).chan =
    { inflight := ((List.range (chunkCount vsize)).map fun i => responseMessage 0 vec (i * k)).flatten
      ring := .new fun _ => 0 }

variable {vsize} {w : World} (hv : vsize ≤ 65500)
  (hnode : w.node 2 = { SimpleMPI.fresh 0 with sGroup := [1] })
  (h21 : (w.link 2 1).chan = { inflight := [], ring := .new fun _ => 0 })

include hv hnode h21

theorem onRequest_answered (tail : List UInt8) : ∃ u,
    onRequest directEnv (fun _ => 0) 2 1 w (requestMessage vsize ++ tail) = some u ∧
      Answered vsize u := by
  obtain ⟨u, hu, -, hd⟩ := onRequest_leaf directEnv (w := w) (a := 2) (show 1 ≠ 2 by decide)
    (by rw [hnode]; rfl) hv (fun _ => 0) tail
  refine ⟨u, hu, directEnv.vector 2 (w.requests 2) vsize (w.node 2).rank,
    length_genetrateRandomVector _ _ _ _, ?_⟩
  rw [hd.own, packetsTo_responses, if_pos rfl, Link.sendAll, h21]
  rfl

/-- The loop over the ring hands the request over. -/
theorem receive_answered {ring : CircularBuffer} (hok : RingOk 5 ring)
    (hcontents : ring.contents = requestMessage vsize) : ∃ ring' u,
    receiveDataFrom (funcMap directEnv (fun _ => 0) 2 1) (fun _ _ => 0) ring w = some (ring', u) ∧
      Answered vsize u := by
  have hspec := receiveDataFrom_spec (funcMap directEnv (fun _ => 0) 2 1) (fun _ _ => 0) 5
    (fun u ms => (ms = [requestMessage vsize] ∧ u = w) ∨ (ms = [] ∧ Answered vsize u))
    ?_ ?_ ring w [requestMessage vsize] [] hok (by rw [hcontents]; simp) (Or.inl ⟨rfl, rfl⟩)
  · obtain ⟨ring', u, done, ms', hrun, -, hJ, -, hbytes, hhead⟩ := hspec
    refine ⟨ring', u, hrun, ?_⟩
    rcases hJ with ⟨rfl, -⟩ | ⟨-, hanswer⟩
    · -- the whole request is in the ring, so it was handled
      have hlt := hhead _ rfl
      have hlen := congrArg List.length hbytes
      simp at hlen hlt
      omega
    · exact hanswer
  · rintro u ms (⟨rfl, -⟩ | ⟨rfl, -⟩) msg hmsg
    · rw [List.mem_singleton.1 hmsg]
      exact framed_requestMessage vsize
    · cases hmsg
  · rintro u msg ms tail (⟨hms, rfl⟩ | ⟨hms, -⟩)
    · obtain ⟨rfl, rfl⟩ := List.cons.inj hms
      obtain ⟨u', hu', hanswer⟩ := onRequest_answered hv hnode h21 tail
      refine ⟨u', ?_, Or.inr ⟨rfl, hanswer⟩⟩
      rw [dispatch_requestMessage _ _ _ _ (onRequest directEnv (fun _ => 0) 2 1) (if_pos rfl), hu']
    · cases hms

omit hnode h21 in
/-- After the poll of the producer its whole answer is on its way. -/
theorem directWorld_answer : ∃ w,
    runs (exec directEnv) (directWorld vsize)
      [.start 0, .deliver 1 2 15, .poll 2 1 (fun _ => 0) fun _ _ => 0] = some w ∧
    Answered vsize w := by
  obtain ⟨w, hw, hnode, hok, hcontents, h21⟩ := directWorld_request vsize
  obtain ⟨ring, u, hrun, vec, hvec, hchan⟩ := receive_answered hv hnode h21 hok hcontents
  refine ⟨u.setRing 1 2 ring, ?_, vec, hvec, ?_⟩
  · have hpoll : exec directEnv w (.poll 2 1 (fun _ => 0) fun _ _ => 0) =
        some (u.setRing 1 2 ring) := by
      rw [exec, if_pos (by rw [hnode]; decide), hrun]
      rfl
    have hacts : [World.Action.start 0, .deliver 1 2 15, .poll 2 1 (fun _ => 0) fun _ _ => 0] =
      [.start 0, .deliver 1 2 15] ++ [.poll 2 1 (fun _ => 0) fun _ _ => 0] := rfl
    rw [hacts, runs_append, hw, Option.bind_some, runs_cons, hpoll, Option.bind_some, runs_nil]
  · rw [setRing, setLink_of_ne _ _ _ _ (by decide)]
    exact hchan

end

/-- The answer for `c` full chunks. -/
theorem length_answer {c : Nat} (hc : c * k < 65536) {vec : List UInt64} (hvec : vec.length = c * k) :
    ((List.range c).map fun i => responseMessage 0 vec (i * k)).flatten.length = c * 814 := by
  have hmsg : ∀ n ∈ (List.range c).map fun i => (responseMessage 0 vec (i * k)).length, n = 814 := by
    intro n hn
    obtain ⟨i, hi, rfl⟩ := List.mem_map.1 hn
    have hle := Nat.mul_le_mul_right k (Nat.succ_le_of_lt (List.mem_range.1 hi))
    rw [Nat.succ_mul] at hle
    rw [responseMessage, length_chunkMessage, length_responseElements, hvec, Nat.mod_eq_of_lt hc,
      responseCount_full _ _ hle hc]
    rfl
  rw [List.length_flatten, List.map_map]
  exact (List.sum_eq_card_nsmul _ 814 hmsg).trans (by simp)

/-- 13 chunks and more: after one full read the next one need not fit. -/
theorem directWorld_overflow {c : Nat} (hc : 13 ≤ c) (hc' : c ≤ 655) : ∃ w,
    runs (exec directEnv) (directWorld (c * k)) overflowActs = some w ∧
      (w.link 2 1).chan.inflight.length = c * 814 - 8192 ∧
      (w.link 2 1).chan.ring.capacity - (w.link 2 1).chan.ring.size = 2048 := by
  have hle : c * k ≤ 65500 := (Nat.mul_le_mul_right k hc').trans (by decide)
  obtain ⟨w, hw, vec, hvec, hchan⟩ := directWorld_answer hle
  rw [chunkCount_mul] at hchan
  have hlen := length_answer (by omega) hvec
  obtain ⟨u, ring, hd, -, -, hu, -, hcap, hsize⟩ := exec_deliver directEnv 8192 hchan
    (CircularBuffer.new_wf _) rfl (by decide) (by decide) (by rw [hlen]; omega)
    (show 0 + 8192 ≤ 10240 by decide)
  refine ⟨u, ?_, ?_, ?_⟩
  · have hacts : overflowActs = [.start 0, .deliver 1 2 15, .poll 2 1 (fun _ => 0) fun _ _ => 0] ++
      [.deliver 2 1 8192] := rfl
    rw [hacts, runs_append, hw, Option.bind_some, runs_cons, hd, Option.bind_some, runs_nil]
  · rw [hu, List.length_drop, hlen]
  · rw [hu]
    show ring.capacity - ring.size = 2048
    have hempty : (CircularBuffer.new fun _ => 0).size = 0 := rfl
    rw [hcap, hsize, hempty]

theorem not_ringsFit {c : Nat} (hc : 13 ≤ c) (hc' : c ≤ 655) : ¬ RingsFit (c * k) := by
  intro hfits
  obtain ⟨w, hw, hlen, hfree⟩ := directWorld_overflow hc hc'
  have haddr := addressesOf_addressed directAddr (directTopo "con0" ["pro0"])
  have hdeployed : Deployed directAddr 1 (c * k) 1234 (directTopo "con0" ["pro0"])
      (directApps directAddr 1 (c * k) 1234 "con0" ["pro0"]) :=
    .direct _ _ _ haddr (createDirectTopo_eq haddr 1 (c * k) 1234)
  have hfit := hfits directAddr _ directTopo_isAggTree 1 (by decide) 1234 _ hdeployed directEnv rfl
    _ _ _ _ hw
  have := hfit 2 1 2049 (by decide) (by omega)
  omega

/-! ## All values of `vsize` -/

theorem expandVsize_cases {vsize : Nat} (hv : vsize < 65536) (h : 1200 < expandVsize vsize) :
    ∃ c, 13 ≤ c ∧ c ≤ 655 ∧ expandVsize vsize = c * k := by
  have hk : k = 100 := rfl
  rw [expandVsize, hk] at h ⊢
  by_cases h0 : vsize / 100 = 0
  · rw [if_pos h0] at h
    omega
  · rw [if_neg h0] at h ⊢
    have hle := Nat.mod_le ((vsize + 100 - 1) / 100 * 100) 65536
    have hlt : (vsize + 100 - 1) / 100 ≤ 655 := by
      by_contra hcon
      -- 65600 wraps to 64
      have h656 : (vsize + 100 - 1) / 100 = 656 := by omega
      rw [h656] at h
      omega
    exact ⟨(vsize + 100 - 1) / 100, by omega, hlt, Nat.mod_eq_of_lt (by omega)⟩

/-- No write overruns a ring exactly when the vector has at most 12 chunks. -/
theorem rings_fit (vsize : Nat) (hv : vsize < 65536) :
    RingsFit (expandVsize vsize) ↔ expandVsize vsize ≤ 1200 := by
  constructor
  · intro hfits
    by_contra hlong
    obtain ⟨c, hc, hc', he⟩ := expandVsize_cases hv (by omega)
    rw [he] at hfits
    exact not_ringsFit hc hc' hfits
  · exact ringsFit_of_le

theorem rings_fit_1200 : 1200 < 65536 ∧ (RingsFit (expandVsize 1200) ↔ expandVsize 1200 ≤ 1200) :=
  ⟨by decide, rings_fit 1200 (by decide)⟩

/-- 1300 elements: 2390 bytes can still arrive and 2048 are free. -/
theorem rings_overflow : (∃ w,
    runs (exec directEnv) (directWorld (expandVsize 1300)) overflowActs = some w ∧
      (w.link 2 1).chan.inflight.length = 2390 ∧
      (w.link 2 1).chan.ring.capacity - (w.link 2 1).chan.ring.size = 2048) ∧
    ¬ RingsFit (expandVsize 1300) :=
  ⟨directWorld_overflow (c := 13) (by decide) (by decide),
    not_ringsFit (c := 13) (by decide) (by decide)⟩

end InNetworkAgg
