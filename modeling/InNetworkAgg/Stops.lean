import InNetworkAgg.Progress

/-!
# Who stops the simulation (`SimpleMPI::AVG`, `AvgEnd`)

`AVG` calls `Simulator::Stop`, with a delay, at every node where
`curIter >= maxIteration`.  An aggregator is set up with `maxIteration` 0, so it
does with the first round it finishes, when the consumer has finished none.
Only a deployment where no aggregator finishes a round stops on time: one
without aggregators, or without elements.

    no aggregators or vsize = 0  →  StopsOnTime                (stops_on_time)
    StopsOnTime, at most 255 chunks  →  no aggregators or vsize = 0
-/

namespace InNetworkAgg

open PartialRun SimpleMPI World Rounds RoseTree

/-- Only the consumer has stopped the simulation, and after all its rounds. -/
def StopsLate (env : Env) (rounds : Nat) (w : World) : Prop :=
  ∀ st ∈ w.stops, st.1 = env.consumer ∧ rounds ≤ st.2

/-! ## What a handler can do -/

namespace SimpleMPI

variable {past : UInt64} {s : SimpleMPI} {r : SimpleMPI × List Effect}

theorem sendResponseVTo_sends {toStr : Address} {vec : List UInt64} {es : List Effect}
    (h : sendResponseVTo past toStr vec = some es) : Sends es := by
  obtain ⟨positions, -, h⟩ := Option.bind_eq_some_iff.1 h
  obtain ⟨packets, -, h⟩ := Option.bind_eq_some_iff.1 h
  cases h
  exact Sends.map packets (fun _ => toStr) id

theorem sendRequestVToAll_sends {size : Nat} {es : List Effect}
    (h : s.sendRequestVToAll size = some es) : Sends es := by
  obtain ⟨indices, -, h⟩ := Option.bind_eq_some_iff.1 h
  cases h
  exact Sends.map indices _ _

theorem mem_of_mapM {α β : Type} {f : α → Option β} (l : List α) :
    ∀ {bs : List β}, l.mapM f = some bs → ∀ b ∈ bs, ∃ a, f a = some b := by
  induction l with
  | nil =>
    intro bs h b hb
    cases h
    cases hb
  | cons a l ih =>
    intro bs h b hb
    rw [List.mapM_cons] at h
    obtain ⟨c, hc, h⟩ := Option.bind_eq_some_iff.1 h
    obtain ⟨cs, hcs, h⟩ := Option.bind_eq_some_iff.1 h
    cases h
    rcases List.mem_cons.1 hb with rfl | hb
    · exact ⟨a, hc⟩
    · exact ih hcs b hb

theorem sendResponseVToP_sends {es : List Effect} (h : sendResponseVToP past s = some es) :
    Sends es := by
  obtain ⟨indices, -, h⟩ := Option.bind_eq_some_iff.1 h
  obtain ⟨sends, hsends, h⟩ := Option.bind_eq_some_iff.1 h
  cases h
  intro e he
  obtain ⟨es, hes, he⟩ := List.mem_flatten.1 he
  obtain ⟨i, hi⟩ := mem_of_mapM indices hsends es hes
  exact sendResponseVTo_sends hi e he

theorem stop_mem_round {answers requests : List Effect} (ha : .stop ∉ answers)
    (hr : .stop ∉ requests) (c : Prop) [Decidable c] :
    .stop ∈ answers ++ (if c then [Effect.stop] else []) ++ requests ↔ c := by
  by_cases hc : c <;> simp [hc, ha, hr]

/-- What every handler keeps, and when it calls `Simulator::Stop`. -/
structure Within (s : SimpleMPI) (r : SimpleMPI × List Effect) : Prop where
  maxIteration : r.1.maxIteration = s.maxIteration
  cGroup : r.1.cGroup = s.cGroup
  stop : .stop ∈ r.2 → s.maxIteration ≤ r.1.curIter
  answer : answersIn r.2 ≠ [] → s.maxIteration ≤ r.1.curIter → .stop ∈ r.2

/-- Effects that only send go with any change of the other members. -/
theorem Within.of_sends (hmax : r.1.maxIteration = s.maxIteration) (hcg : r.1.cGroup = s.cGroup)
    (hsends : Sends r.2) : Within s r :=
  ⟨hmax, hcg, fun hs => absurd hs hsends.stop_not_mem, fun ha => absurd hsends.answersIn ha⟩

/-- The requests for the next round, if there is one. -/
def IsNextRound (requests : List Effect) : Prop :=
  requests = [] ∨ ∃ es, Sends es ∧ requests = .newRequest :: es

theorem IsNextRound.stop_not_mem {requests : List Effect} (h : IsNextRound requests) :
    .stop ∉ requests := by
  rcases h with rfl | ⟨es, hes, rfl⟩
  · exact List.not_mem_nil
  · simpa using hes.stop_not_mem

theorem IsNextRound.answersIn {requests : List Effect} (h : IsNextRound requests) :
    answersIn requests = [] := by
  rcases h with rfl | ⟨es, hes, rfl⟩
  · rfl
  · exact hes.answersIn

/-- What `AVG` goes into the end of its turn with: before the first round nothing has
happened, later the vector is written, the answers are sent and the chunks cleared. -/
inductive RoundTurn (s : SimpleMPI) : SimpleMPI → List Effect → Prop where
  | first : RoundTurn s { s with asEnd := false } []
  | later (avg : List UInt64) {sends : List Effect} (h : Sends sends) :
    RoundTurn s (({ s with asEnd := false } : SimpleMPI).writeChunk2Vec s.vsize).clearChunkMap
      (.answer avg :: sends)

theorem RoundTurn.stop_not_mem {u : SimpleMPI} {answers : List Effect}
    (h : RoundTurn s u answers) : .stop ∉ answers := by
  cases h with
  | first => exact List.not_mem_nil
  | later avg hsends => simpa using hsends.stop_not_mem

/-- The end of `AVG`, after the answers. -/
theorem nextRound_cases {u : SimpleMPI} {answers : List Effect}
    (h : (if u.curIter < u.maxIteration then
        ((u.sendRequestVToAll u.vsize).map (.newRequest :: ·)).bind fun requests =>
          some (u, answers ++ (if u.maxIteration ≤ u.curIter then [.stop] else []) ++ requests)
      else (some []).bind fun requests =>
        some (u, answers ++ (if u.maxIteration ≤ u.curIter then [.stop] else []) ++ requests)) =
          some r) : ∃ requests, IsNextRound requests ∧
      r = (u, answers ++ (if u.maxIteration ≤ u.curIter then [.stop] else []) ++ requests) := by
  split at h
  · obtain ⟨requests, hreq, h⟩ := Option.bind_eq_some_iff.1 h
    obtain ⟨es, hes, rfl⟩ := Option.map_eq_some_iff.1 hreq
    cases h
    exact ⟨_, .inr ⟨es, sendRequestVToAll_sends hes, rfl⟩, rfl⟩
  · cases h
    exact ⟨[], .inl rfl, rfl⟩

/-- Everything `AVG` can do. -/
theorem doAVG_cases (h : s.doAVG past = some r) :
    s.asEnd = false ∧ r = (s, []) ∨
    s.asEnd = true ∧ ∃ u answers requests, RoundTurn s u answers ∧ IsNextRound requests ∧
      r = (u, answers ++ (if u.maxIteration ≤ u.curIter then [.stop] else []) ++ requests) := by
  unfold doAVG at h
  split at h
  · rename_i hend
    refine .inr ⟨hend, ?_⟩
    dsimp only at h
    split at h
    · obtain ⟨sends, hsends, h⟩ := Option.bind_eq_some_iff.1 h
      obtain ⟨requests, hreq, h⟩ := nextRound_cases h
      exact ⟨_, _, requests, .later _ (sendResponseVToP_sends hsends), hreq, h⟩
    · obtain ⟨requests, hreq, h⟩ := nextRound_cases h
      exact ⟨_, _, requests, .first, hreq, h⟩
  · rename_i hend
    cases h
    exact .inl ⟨Bool.eq_false_iff.2 hend, rfl⟩

/-- `AVG` stops when it is its turn and `curIter` has reached `maxIteration`. -/
theorem doAVG_inv (h : s.doAVG past = some r) : r.1.maxIteration = s.maxIteration ∧
    r.1.cGroup = s.cGroup ∧ r.1.curIter = s.curIter ∧ (s.asEnd = false → r.2 = []) ∧
    (.stop ∈ r.2 ↔ s.asEnd = true ∧ s.maxIteration ≤ s.curIter) := by
  rcases doAVG_cases h with ⟨hend, rfl⟩ | ⟨hend, u, answers, requests, hturn, hreq, rfl⟩
  · exact ⟨rfl, rfl, rfl, fun _ => rfl, by simp [hend]⟩
  · have hstop := stop_mem_round hturn.stop_not_mem hreq.stop_not_mem
      (u.maxIteration ≤ u.curIter)
    have hsame : u.maxIteration = s.maxIteration ∧ u.cGroup = s.cGroup ∧
        u.curIter = s.curIter := by
      cases hturn <;> exact ⟨rfl, rfl, rfl⟩
    obtain ⟨hmax, hcg, hiter⟩ := hsame
    refine ⟨hmax, hcg, hiter, fun hfalse => ?_, hstop.trans ?_⟩
    · rw [hend] at hfalse
      cases hfalse
    · rw [hmax, hiter, and_iff_right hend]

theorem doAVG_within (h : s.doAVG past = some r) : Within s r := by
  obtain ⟨hmax, hcg, hiter, hidle, hstop⟩ := doAVG_inv h
  refine ⟨hmax, hcg, fun hs => ?_, fun ha hle => ?_⟩
  · rw [hiter]
    exact (hstop.1 hs).2
  · rw [hiter] at hle
    cases hend : s.asEnd with
    | true => exact hstop.2 ⟨hend, hle⟩
    | false =>
      rw [hidle hend] at ha
      exact absurd rfl ha

/-- The chunk that is counted.  A node without children never averages: the count it
would divide by is 0. -/
theorem addChunk_inv {t : SimpleMPI} {offset : Nat} {vec : List UInt64}
    (h : s.addChunk offset vec = some t) :
    ∃ c, t = s.setChunk offset c ∧ (s.chunk offset).data.length = vec.length ∧
      c.count = ((s.chunk offset).count + 1) % 256 ∧ (c.count = s.cGroup.length → s.cGroup ≠ []) := by
  rw [addChunk] at h
  dsimp only at h
  split at h
  · rename_i hlen
    split at h
    · rename_i hcount
      obtain ⟨data, hdata, h⟩ := Option.bind_eq_some_iff.1 h
      cases h
      refine ⟨_, rfl, hlen, rfl, fun _ hnil => ?_⟩
      rw [hcount, hnil, avgVector, if_neg fun e => e.2 rfl] at hdata
      cases hdata
    · rename_i hcount
      cases h
      exact ⟨_, rfl, hlen, rfl, fun hc => absurd hc hcount⟩
  · cases h

theorem receiveChunk_within {offset : Nat} {vec : List UInt64}
    (h : receiveChunk past s offset vec = some r) :
    Within s r ∧ (s.cGroup = [] → .stop ∉ r.2) := by
  obtain ⟨t, ht, h⟩ := Option.bind_eq_some_iff.1 h
  obtain ⟨c, rfl, -, -, hcount⟩ := addChunk_inv ht
  have hchunk : (s.setChunk offset c).chunk offset = c := by simp [setChunk, chunk]
  rw [hchunk] at h
  split at h
  · rename_i hfull
    have hin := doAVG_within h
    exact ⟨⟨hin.maxIteration, hin.cGroup, hin.stop, hin.answer⟩, fun hnil => absurd hnil (hcount hfull)⟩
  · cases h
    exact ⟨.of_sends rfl rfl fun _ he => absurd he List.not_mem_nil, fun _ => List.not_mem_nil⟩

theorem handleResponseV_within {buffer : List UInt8} (h : handleResponseV past s buffer = some r) :
    Within s r ∧ (s.cGroup = [] → .stop ∉ r.2) := by
  obtain ⟨header, -, h⟩ := Option.bind_eq_some_iff.1 h
  split at h
  · obtain ⟨vec, -, h⟩ := Option.bind_eq_some_iff.1 h
    exact receiveChunk_within h
  · cases h

theorem handleRequestV_within {randVec : Nat → List UInt64} {fromStr : Address}
    {buffer : List UInt8} (h : handleRequestV past randVec s fromStr buffer = some r) :
    Within s r ∧ (s.cGroup = [] → .stop ∉ r.2) := by
  obtain ⟨header, -, h⟩ := Option.bind_eq_some_iff.1 h
  obtain ⟨size, -, h⟩ := Option.bind_eq_some_iff.1 h
  obtain ⟨requests, hreq, h⟩ := Option.bind_eq_some_iff.1 h
  have hsends := sendRequestVToAll_sends hreq
  dsimp only at h
  split at h
  · obtain ⟨answers, hans, h⟩ := Option.bind_eq_some_iff.1 h
    cases h
    have hall := hsends.append (sendResponseVTo_sends hans)
    exact ⟨.of_sends rfl rfl hall, fun _ => hall.stop_not_mem⟩
  · cases h
    rw [List.append_nil]
    exact ⟨.of_sends rfl rfl hsends, fun _ => hsends.stop_not_mem⟩

end SimpleMPI

/-! ## What an action can do -/

namespace World

/-- A handler of node `a` has turned `w` into `w'`, links aside. -/
structure Moved (env : Env) (w w' : World) (a : Address) (r : SimpleMPI × List Effect) : Prop where
  within : Within (w.node a) r
  leaf : a ≠ env.consumer → (w.node a).cGroup = [] → .stop ∉ r.2
  node : w'.node = Function.update w.node a r.1
  results : w'.results = Function.update w.results a (w.results a ++ answersIn r.2)
  stops : w'.stops = w.stops ++
    List.replicate (stopsIn r.2) (a, (Function.update w.node a r.1 env.consumer).curIter)

section
variable {env : Env} {I : World → Prop}
  (hlinks : ∀ w w', w'.node = w.node → w'.results = w.results → w'.stops = w.stops → I w → I w')
  (hmoved : ∀ w w' a r, Moved env w w' a r → I w → I w')

include hlinks hmoved in
/-- What handlers keep and links do not matter for, every action keeps. -/
theorem exec_invariant {w w' : World} {act : World.Action} (hw : exec env w act = some w')
    (h : I w) : I w' := by
  cases act with
  | start past =>
    rw [exec] at hw
    split at hw
    · cases hw
    · obtain ⟨r, hr, rfl⟩ := Option.map_eq_some_iff.1 hw
      exact hmoved w _ _ r ⟨doAVG_within hr, fun hne => absurd rfl hne, perform_node _ _ _ _,
        perform_results _ _ _ _, perform_stops _ _ _ _⟩ h
  | deliver src dst n =>
    obtain ⟨c, -, rfl⟩ := Option.map_eq_some_iff.1 hw
    exact hlinks w _ rfl rfl rfl h
  | poll a peer past heap =>
    rw [exec] at hw
    split at hw
    · obtain ⟨r, hr, rfl⟩ := Option.map_eq_some_iff.1 hw
      refine hlinks r.2 _ rfl rfl rfl (receiveDataFrom_invariant _ _ ?_ _ _ h hr)
      intro key f hf w buffer w' hI hf'
      unfold funcMap at hf
      split at hf
      · cases hf
        obtain ⟨r, hr, rfl⟩ := Option.map_eq_some_iff.1 hf'
        obtain ⟨hin, hleaf⟩ := handleRequestV_within hr
        exact hmoved w _ _ r ⟨hin, fun _ => hleaf, perform_node _ _ _ _, perform_results _ _ _ _,
          perform_stops _ _ _ _⟩ hI
      · split at hf
        · cases hf
          obtain ⟨r, hr, rfl⟩ := Option.map_eq_some_iff.1 hf'
          obtain ⟨hin, hleaf⟩ := handleResponseV_within hr
          exact hmoved w _ _ r ⟨hin, fun _ => hleaf, perform_node _ _ _ _, perform_results _ _ _ _,
            perform_stops _ _ _ _⟩ hI
        · cases hf
    · cases hw

end

end World

/-! ## Without aggregators, or without elements -/

section
variable {env : Env} {rounds : Nat} {w w' : World} {a : Address} {r : SimpleMPI × List Effect}

/-- Nodes other than the consumer have no children, and nobody has stopped early. -/
structure Flat (env : Env) (rounds : Nat) (w : World) : Prop where
  consumer : (w.node env.consumer).maxIteration = rounds
  leaves : ∀ a, a ≠ env.consumer → (w.node a).cGroup = []
  stops : StopsLate env rounds w

theorem Flat.moved (hm : Moved env w w' a r) (h : Flat env rounds w) : Flat env rounds w' where
  consumer := by
    rw [hm.node]
    by_cases ha : env.consumer = a
    · subst ha
      rw [Function.update_self, hm.within.maxIteration, h.consumer]
    · rw [Function.update_of_ne ha, h.consumer]
  leaves := by
    intro b hb
    rw [hm.node]
    by_cases ha : b = a
    · subst ha
      rw [Function.update_self, hm.within.cGroup, h.leaves b hb]
    · rw [Function.update_of_ne ha, h.leaves b hb]
  stops := by
    intro st hst
    rw [hm.stops, List.mem_append] at hst
    rcases hst with hst | hst
    · exact h.stops st hst
    · obtain ⟨hne, rfl⟩ := List.mem_replicate.1 hst
      have hstop : .stop ∈ r.2 := List.count_pos_iff.1 (Nat.pos_of_ne_zero hne)
      by_cases ha : a = env.consumer
      · subst ha
        refine ⟨rfl, ?_⟩
        rw [Function.update_self, ← h.consumer]
        exact hm.within.stop hstop
      · exact absurd hstop (hm.leaf ha (h.leaves a ha))

theorem Flat.runs (h : Flat env rounds w) {acts : List World.Action}
    (hw : runs (exec env) w acts = some w') : Flat env rounds w' := by
  refine runs_invariant (fun _ _ _ hi hs => exec_invariant ?_ ?_ hs hi) h hw
  · intro w w' hn _ hs h
    refine ⟨by rw [hn]; exact h.consumer, fun a ha => by rw [hn]; exact h.leaves a ha, ?_⟩
    unfold StopsLate
    rw [hs]
    exact h.stops
  · intro w w' a r hm h
    exact h.moved hm

/-- Nodes other than the consumer stop with every answer. -/
structure Eager (env : Env) (w : World) : Prop where
  maxIteration : ∀ a, a ≠ env.consumer → (w.node a).maxIteration = 0
  stops : ∀ a, a ≠ env.consumer → w.results a ≠ [] → ∃ st ∈ w.stops, st.1 = a

theorem Eager.moved (hm : Moved env w w' a r) (h : Eager env w) : Eager env w' where
  maxIteration := by
    intro b hb
    rw [hm.node]
    by_cases ha : b = a
    · subst ha
      rw [Function.update_self, hm.within.maxIteration, h.maxIteration b hb]
    · rw [Function.update_of_ne ha, h.maxIteration b hb]
  stops := by
    intro b hb hres
    have hold : w.results b ≠ [] → ∃ st ∈ w'.stops, st.1 = b := by
      intro hne
      obtain ⟨st, hst, hb'⟩ := h.stops b hb hne
      exact ⟨st, by rw [hm.stops]; exact List.mem_append_left _ hst, hb'⟩
    rw [hm.results] at hres
    by_cases ha : b = a
    · subst ha
      rw [Function.update_self] at hres
      by_cases hnil : w.results b = []
      · rw [hnil, List.nil_append] at hres
        have hstop := hm.within.answer hres (by rw [h.maxIteration b hb]; exact Nat.zero_le _)
        refine ⟨(b, (Function.update w.node b r.1 env.consumer).curIter), ?_, rfl⟩
        rw [hm.stops]
        refine List.mem_append_right _ (List.mem_replicate.2 ⟨?_, rfl⟩)
        exact Nat.ne_of_gt (List.count_pos_iff.2 hstop)
      · exact hold hnil
    · rw [Function.update_of_ne ha] at hres
      exact hold hres

theorem Eager.runs (h : Eager env w) {acts : List World.Action}
    (hw : runs (exec env) w acts = some w') : Eager env w' := by
  refine runs_invariant (fun _ _ _ hi hs => exec_invariant ?_ ?_ hs hi) h hw
  · intro w w' hn hr hs h
    refine ⟨fun a ha => by rw [hn]; exact h.maxIteration a ha, fun a ha hres => ?_⟩
    rw [hr] at hres
    rw [hs]
    exact h.stops a ha hres
  · intro w w' a r hm h
    exact h.moved hm

end

section
variable {addrOf : String → Address} {t : RoseTree String} (h : IsAggTree addrOf t)
  {itr vsize port : Nat} {apps : List App} (happs : Wires addrOf itr vsize port t apps) {env : Env}
  (henv : env.consumer = addrOf t.label) (garbage : Address → Nat)
  (heap : Address → Address → Nat → UInt8)

include h happs henv

/-- Only producers below the consumer. -/
theorem IsAggTree.flat_init (hflat : ∀ c ∈ t.children, c.children = []) :
    Flat env itr (World.init addrOf garbage heap apps) where
  consumer := by rw [(h.init_consumer happs _ _ _).1, if_pos henv]
  leaves := by
    intro a ha
    by_cases hin : ∃ s ∈ t.subtrees, addrOf s.label = a
    · obtain ⟨s, hs, rfl⟩ := hin
      rw [h.init_cGroup happs garbage heap hs]
      rcases leaf_of_flat hflat hs with rfl | hleaf
      · exact absurd henv.symm ha
      · rw [hleaf]
        rfl
    · rw [happs.node_eq_fresh garbage heap fun s hs e => hin ⟨s, hs, e⟩]
      rfl
  stops := by
    intro st hst
    cases hst

/-- Without elements a round is never finished, and without aggregators only the consumer
finishes any. -/
theorem IsAggTree.stopsLate (hitr : itr < 65536)
    (hcond : (∀ c ∈ t.children, c.children = []) ∨ vsize = 0) {acts : List World.Action} {w : World}
    (hw : runs (exec env) (World.init addrOf garbage heap apps) acts = some w) :
    StopsLate env itr w := by
  rcases hcond with hflat | rfl
  · exact ((h.flat_init happs henv garbage heap hflat).runs hw).stops
  · obtain ⟨ρ, hok⟩ := (h.ok_init henv (by decide) hitr happs garbage heap).runs hw
    intro st hst
    rcases hok.sim.stops st hst with ⟨hroot, hle⟩ | ⟨-, hkids, hdone⟩
    · exact ⟨hroot.trans (Plan.consumer_eq _).symm, hle⟩
    · rw [hok.inv.silent (show chunkCount 0 = 0 by decide) _ hkids] at hdone
      exact absurd hdone (Nat.lt_irrefl 0)

/-- An aggregator finishes its rounds when there are elements, and stops then. -/
theorem IsAggTree.exists_stop (hpos : 0 < vsize) (hsize : chunkCount vsize < 256) (hitr : 1 ≤ itr)
    (hitr' : itr < 65536) {c : RoseTree String} (hc : c ∈ t.children) (hagg : c.children ≠ []) :
    ∃ acts w, runs (exec env) (World.init addrOf garbage heap apps) acts = some w ∧
      ∃ st ∈ w.stops, st.1 ≠ env.consumer := by
  have hcs := child_mem_subtrees (self_mem_subtrees t) hc
  have hne : addrOf c.label ≠ env.consumer := by
    rw [henv]
    intro e
    exact root_not_child h.labels (self_mem_subtrees t) hc
      (congrArg label (h.addr_inj hcs (self_mem_subtrees t) e))
  obtain ⟨acts, w, hw, hall⟩ :=
    h.can_finish henv hpos hsize hitr' happs garbage heap (runs_nil (exec env) _)
  have heager : Eager env (World.init addrOf garbage heap apps) := by
    refine ⟨fun a ha => ?_, fun _ _ hres => absurd rfl hres⟩
    rw [(h.init_consumer happs _ _ _).1, if_neg (by rw [← henv]; exact ha)]
  have hres : w.results (addrOf c.label) ≠ [] := by
    intro hnil
    have := hall c hcs hagg
    rw [hnil, List.length_nil] at this
    omega
  obtain ⟨st, hst, ha⟩ := (heager.runs hw).stops _ hne hres
  exact ⟨acts, w, hw, st, hst, ha ▸ hne⟩

end

/-! ## Deployments -/

/-- In no run the simulation is stopped before the consumer has finished `rounds` rounds. -/
def StopsOnTime (addrOf : String → Address) (t : RoseTree String) (rounds : Nat)
    (apps : List App) : Prop :=
  ∀ env : Env, env.consumer = addrOf t.label → ∀ garbage heap acts w,
    runs (exec env) (World.init addrOf garbage heap apps) acts = some w → StopsLate env rounds w

/-- The simulation is stopped on time where there are no aggregators or no elements, and, for
the sizes the chunk loop can count, only there. -/
theorem stops_on_time {addrOf : String → Address} {t : RoseTree String} (h : IsAggTree addrOf t)
    (getAddress : String → Option Address) (haddr : Addressed getAddress addrOf t)
    (aggGroups : String → List String) (hgroups : Describes aggGroups t) (fuel : Nat)
    (hfuel : t.height < fuel) (R : Nat) (hR : 1 ≤ R) (hR' : R < 65536) (vsize port : Nat) :
    ∃ apps, createAggTree getAddress R vsize port aggGroups fuel t.label [] 0 = some apps ∧
      ((∀ c ∈ t.children, c.children = []) ∨ vsize = 0 → StopsOnTime addrOf t R apps) ∧
      (chunkCount vsize < 256 → StopsOnTime addrOf t R apps →
        (∀ c ∈ t.children, c.children = []) ∨ vsize = 0) := by
  have happs := h.treeApps_wires R vsize port
  refine ⟨_,
    createAggTree_eq addrOf R vsize port aggGroups t hgroups haddr fuel hfuel [] 0 (by decide),
    fun hcond env henv garbage heap acts w hw => ?_, fun hsize hall => ?_⟩
  · exact h.stopsLate happs henv garbage heap hR' hcond hw
  · by_contra hcon
    obtain ⟨hagg, hpos⟩ := not_or.1 hcon
    obtain ⟨c, hc, hne⟩ : ∃ c ∈ t.children, c.children ≠ [] := by
      by_contra hno
      exact hagg fun c hc => by_contra fun hne => hno ⟨c, hc, hne⟩
    let env : Env := { consumer := addrOf t.label, rand := fun _ j => j, time := fun _ r => r }
    obtain ⟨acts, w, hw, st, hst, hother⟩ := h.exists_stop happs
      (show env.consumer = addrOf t.label from rfl) (fun _ => 0) (fun _ _ _ => 0)
      (Nat.pos_of_ne_zero hpos) hsize hR hR' hc hne
    exact hother (hall env rfl _ _ acts w hw st hst).1

theorem stops_on_time_direct : ∃ apps,
    createAggTree (addressesOf directAddr (directTopo "con0" ["pro0"])) 1000 1000 1234 directGroups 3
        "con0" [] 0 = some apps ∧
      StopsOnTime directAddr (directTopo "con0" ["pro0"]) 1000 apps := by
  obtain ⟨apps, happs, hall, -⟩ := stops_on_time directTopo_isAggTree _
    (addressesOf_addressed directAddr _) directGroups directTopo_describes 3 (by decide) 1000
    (by decide) (by decide) 1000 1234
  exact ⟨apps, happs, hall (Or.inl (by decide))⟩

/-- The aggregator of the smallest tree stops with its first answer. -/
theorem aggregator_stops : ∃ apps,
    createAggTree (addressesOf chainAddr chain) 1000 100 1234 chainGroups 3 "con0" [] 0 = some apps ∧
      (∃ w, runs (exec chainEnv) (World.init chainAddr (fun _ => 0) (fun _ _ _ => 0) apps)
        chainAnswer = some w ∧ w.stops = [(2, 0)]) ∧
      ¬ StopsOnTime chainAddr chain 1000 apps := by
  have hrun : ((createAggTree (addressesOf chainAddr chain) 1000 100 1234 chainGroups 3 "con0" []
      0).bind fun apps => (runs (exec chainEnv) (World.init chainAddr (fun _ => 0) (fun _ _ _ => 0) apps)
        chainAnswer).map World.stops) = some [(2, 0)] := by decide +kernel
  obtain ⟨apps, happs, hrun⟩ := Option.bind_eq_some_iff.1 hrun
  obtain ⟨w, hw, hstops⟩ := Option.map_eq_some_iff.1 hrun
  refine ⟨apps, happs, ⟨w, hw, hstops⟩, fun hall => ?_⟩
  have hst := hall chainEnv rfl _ _ _ w hw (2, 0) (hstops ▸ List.mem_singleton_self _)
  exact absurd hst.1 (by decide)

end InNetworkAgg
