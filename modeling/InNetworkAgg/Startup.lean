import InNetworkAgg.InTime

/-!
# The start of a deployment (in-quic-topo.cc)

    on every edge more time than the longest delay  →  no poll meets a null buffer   (startup_safe)
    on some edge less time than the shortest delay  →  every run stops at such a poll  (startup_stuck)

The time on an edge is from the parent's first request to the child's first poll.  The
buffer of a socket without a stream is a null pointer.
-/

namespace InNetworkAgg

open Outcome PartialRun RoseTree World

namespace Startup

/-! ## Too little time on an edge -/

/-- The first poll of `c` is due before anything of `p` can have arrived. -/
structure Behind (sc : Scenario) (p c : Address) (s : Simulation) : Prop where
  sent : ∀ t ∈ s.sentAt p c, sc.asks p ≤ t
  closed : s.channel c p = true → sc.asks p + sc.net.shortest ≤ s.now
  next : s.nextPoll c = some (sc.asks c)
  now : s.now ≤ sc.asks c
  average : ∀ t ∈ s.average, t = (sc.times .con).average
  late : ∀ t ∈ s.nextPoll p, sc.asks p ≤ t

section
variable {sc : Scenario} {T : Rounds.Topology Address} {s : Simulation} {p c : Address}

/-- The first poll of `c` meets the socket without a channel. -/
theorem Behind.fault (h : Behind sc p c s) (hsc : Laid sc T) (hc : c ∈ T.kids p)
    (hlead : sc.asks c < sc.asks p + sc.net.shortest) {order : List Address}
    {past : Address → Nat → UInt64} {heap : Address → Nat → Nat → UInt8}
    (hen : Enabled sc s (.receiveDataFromAll c order past heap)) :
    step sc s (.receiveDataFromAll c order past heap) = .error .nullPointer := by
  have hmem : p ∈ order := hen.2.mem_iff.2 (List.mem_append_left _ ((hsc.servers c p).2 hc))
  have hclosed : s.channel c p = false := by
    by_contra hno
    have hopen := h.closed (Bool.eq_true_of_not_eq_false hno)
    have hnow := h.now
    omega
  unfold step
  dsimp only
  exact if_pos ⟨p, hmem, hclosed⟩

/-- An event of node `a` at a time when it can send. -/
theorem Behind.sends (h : Behind sc p c s) {a : Address} {w : World} {average : Option Nat}
    {nextPoll : Address → Option Nat} (htime : a = p → sc.asks p ≤ s.now)
    (hnext : nextPoll c = s.nextPoll c) (haverage : ∀ t ∈ average, t = (sc.times .con).average)
    (hlate : ∀ t ∈ nextPoll p, sc.asks p ≤ t) :
    Behind sc p c { s.sent a w with average := average, nextPoll := nextPoll } := by
  refine ⟨fun t ht => ?_, h.closed, hnext.trans h.next, h.now, haverage, hlate⟩
  have ht : t ∈ (s.sent a w).sentAt p c := ht
  by_cases hp : p = a
  · subst hp
    rw [sent_self, List.mem_append] at ht
    rcases ht with ht | ht
    · exact h.sent t ht
    · rw [(List.mem_replicate.1 ht).2]
      exact htime rfl
  · rw [sent_of_ne s a w hp] at ht
    exact h.sent t ht

theorem Behind.step (h : Behind sc p c s) (hsc : Laid sc T) (hc : c ∈ T.kids p)
    (hlead : sc.asks c < sc.asks p + sc.net.shortest) {e : Event} (hen : Enabled sc s e)
    {s' : Simulation} (hs' : step sc s e = .ok s') : Behind sc p c s' := by
  cases e with
  | wait d =>
    cases hs'
    exact ⟨h.sent, fun hopen => Nat.le_trans (h.closed hopen) (Nat.le_add_right _ _), h.next,
      (hen.2.2 c (hsc.nodes p c hc).2).1 _ h.next, h.average, h.late⟩
  | average past =>
    have hnow := h.average _ hen
    unfold Startup.step at hs'
    dsimp only at hs'
    split at hs'
    · cases hs'
    · cases hs'
      refine h.sends (fun hp => ?_) rfl nofun h.late
      rw [← hp, hsc.consumer, hsc.root, hnow]
  | receiveDataFromAll a order past heap =>
    by_cases ha : a = c
    · subst ha
      rw [h.fault hsc hc hlead hen] at hs'
      cases hs'
    · unfold Startup.step at hs'
      dsimp only at hs'
      split at hs'
      · cases hs'
      · split at hs'
        · cases hs'
        · cases hs'
          refine h.sends (fun hp => h.late _ (hp ▸ hen.1)) (Function.update_of_ne (Ne.symm ha) _ _)
            h.average fun t ht => ?_
          by_cases hp : p = a
          · subst hp
            rw [Function.update_self] at ht
            split at ht
            · cases ht
              exact Nat.le_trans (h.late _ hen.1) (Nat.le_add_right _ _)
            · cases ht
          · rw [Function.update_of_ne hp] at ht
            exact h.late t ht
  | ready a peer =>
    cases hs'
    refine ⟨h.sent, fun hopen => h.closed ?_, h.next, h.now, h.average, h.late⟩
    rw [open_channel, Bool.or_eq_true, decide_eq_true_eq] at hopen
    refine hopen.resolve_left ?_
    -- the parent of a node is not its client
    rintro ⟨rfl, rfl⟩
    have hchild := hen.1
    rw [hsc.clients] at hchild
    exact T.asymm p c hc hchild
  | arrives src dst n =>
    obtain ⟨-, -, hne, hold⟩ := hen
    unfold Startup.step at hs'
    dsimp only at hs'
    split at hs'
    · cases hs'
    · rename_i w _
      cases hs'
      split
      · refine ⟨fun t ht => h.sent t (mem_arrived s src dst n w ht), fun hopen => ?_, h.next, h.now,
          h.average, h.late⟩
        rw [open_channel, Bool.or_eq_true, decide_eq_true_eq] at hopen
        rcases hopen with ⟨rfl, rfl⟩ | hopen
        · obtain ⟨t, ts, hts⟩ := List.exists_cons_of_ne_nil hne
          obtain ⟨m, hm⟩ : ∃ m, max n 1 = m + 1 := ⟨max n 1 - 1, by omega⟩
          have ht := hold t (by rw [hts, hm, List.take_succ_cons]; exact List.mem_cons_self)
          have hsent := h.sent t (hts ▸ List.mem_cons_self)
          exact Nat.le_trans (Nat.add_le_add_right hsent _) ht
        · exact h.closed hopen
      · exact ⟨fun t ht => h.sent t (mem_arrived s src dst n w ht), h.closed, h.next, h.now,
          h.average, h.late⟩

end

/-! ## The two results -/

section
variable {addrOf : String → Address} {t : RoseTree String} (h : IsAggTree addrOf t) {env : Env}
  (henv : env.consumer = addrOf t.label) {size : Nat} (hsize : chunkCount size < 256) {rounds : Nat}
  (hpos : 0 < rounds) (hrounds : rounds < 65536) {port : Nat} {apps : List App}
  (hd : Deployed addrOf rounds size port t apps) (garbage : Address → Nat)
  (heap : Address → Address → Nat → UInt8) {times : Role → Times} {net : Network}

end

section
variable {addrOf : String → Address} {t : RoseTree String} (h : IsAggTree addrOf t) {env : Env}
  (henv : env.consumer = addrOf t.label) {size rounds port : Nat} {apps : List App}
  (hd : Deployed addrOf rounds size port t apps) (garbage : Address → Nat)
  (heap : Address → Address → Nat → UInt8) {times : Role → Times} {net : Network}

end

/-- In milliseconds, how long before the child's first poll the parent can ask it, with the times
of `CreateAggTree`. -/
def treeLead (basetime : Nat) : Role → Role → Int
  | .con, .agg => basetime - 500
  | .con, .pro => (basetime * 6 % 65536 : Nat) - basetime - 1500
  | .agg, .pro => (basetime * 6 % 65536 : Nat) - 2 * basetime - 1000
  | .agg, .agg | .pro, _ | _, .con => 0

/-- The same with the times of `CreateDirectTopo`. -/
def directLead (basetime : Nat) : Int := (basetime * 2 % 65536 : Nat) - basetime - 500

theorem asks_treeTimes (starttime basetime : Nat) {parent child : Role} (hparent : parent ≠ .pro)
    (hchild : child ≠ .con) : (asks (treeTimes starttime basetime) child : Int) =
      asks (treeTimes starttime basetime) parent + 1000000 * treeLead basetime parent child := by
  cases parent with
  | pro => exact absurd rfl hparent
  | con =>
    cases child with
    | con => exact absurd rfl hchild
    | agg =>
      simp only [asks, treeTimes, Times.average, Times.firstPoll, treeLead, seconds, milliSeconds]
      omega
    | pro =>
      simp only [asks, treeTimes, Times.average, Times.firstPoll, treeLead, seconds, milliSeconds]
      omega
  | agg =>
    cases child with
    | con => exact absurd rfl hchild
    | agg =>
      show _ = _ + 1000000 * (0 : Int)
      omega
    | pro =>
      simp only [asks, treeTimes, Times.firstPoll, treeLead, seconds, milliSeconds]
      omega

theorem asks_directTimes (starttime basetime : Nat) :
    (asks (directTimes starttime basetime) .pro : Int) =
      asks (directTimes starttime basetime) .con + 1000000 * directLead basetime := by
  simp only [asks, directTimes, Times.average, Times.firstPoll, directLead, seconds, milliSeconds]
  omega

/-- The roles at the ends of an edge. -/
theorem roles_of_edge {addrOf : String → Address} {t : RoseTree String} (h : IsAggTree addrOf t)
    {q c : RoseTree String} (hq : q ∈ t.subtrees) (hc : c ∈ q.children) :
    roleIn t q ≠ .pro ∧ roleIn t c ≠ .con := by
  have hcroot := root_not_child h.labels hq hc
  unfold roleIn
  rw [if_neg hcroot, if_neg (List.ne_nil_of_mem hc)]
  constructor <;> split <;> decide

/-- With the times of `CreateAggTree` there is time enough exactly when the longest delay is
shorter than the lead of every edge. -/
theorem tree_in_time_iff {addrOf : String → Address} {t : RoseTree String}
    (h : IsAggTree addrOf t) (starttime basetime delay : Nat) :
    (∀ q ∈ t.subtrees, ∀ c ∈ q.children, asks (treeTimes starttime basetime) (roleIn t q) + delay <
        asks (treeTimes starttime basetime) (roleIn t c)) ↔
      ∀ q ∈ t.subtrees, ∀ c ∈ q.children,
        (delay : Int) < 1000000 * treeLead basetime (roleIn t q) (roleIn t c) := by
  refine forall₂_congr fun q hq => forall₂_congr fun c hc => ?_
  obtain ⟨hparent, hchild⟩ := roles_of_edge h hq hc
  have hasks := asks_treeTimes starttime basetime hparent hchild
  omega

/-- Never when an aggregator has an aggregator below it. -/
theorem nested_not_in_time {addrOf : String → Address} {t : RoseTree String}
    (h : IsAggTree addrOf t) {q c : RoseTree String} (hq : q ∈ t.subtrees) (hc : c ∈ q.children)
    (hparent : roleIn t q = .agg) (hchild : roleIn t c = .agg) (starttime basetime delay : Nat) :
    ¬∀ q ∈ t.subtrees, ∀ c ∈ q.children, asks (treeTimes starttime basetime) (roleIn t q) + delay <
      asks (treeTimes starttime basetime) (roleIn t c) := by
  rw [tree_in_time_iff h]
  intro hlead
  have hzero := hlead q hq c hc
  rw [hparent, hchild] at hzero
  have : treeLead basetime .agg .agg = 0 := rfl
  omega

/-- With the times of `CreateDirectTopo` and some producer, exactly when it is shorter than the one
lead there is. -/
theorem direct_in_time_iff {addrOf : String → Address} {cons : String} {pros : List String}
    (h : IsAggTree addrOf (directTopo cons pros)) (hpros : pros ≠ [])
    (starttime basetime delay : Nat) :
    (∀ q ∈ (directTopo cons pros).subtrees, ∀ c ∈ q.children,
        asks (directTimes starttime basetime) (roleIn (directTopo cons pros) q) + delay <
          asks (directTimes starttime basetime) (roleIn (directTopo cons pros) c)) ↔
      (delay : Int) < 1000000 * directLead basetime := by
  have hasks := asks_directTimes starttime basetime
  have hroot : roleIn (directTopo cons pros) (directTopo cons pros) = .con := if_pos rfl
  constructor
  · intro hlead
    obtain ⟨pro, hpro⟩ := List.exists_mem_of_ne_nil _ hpros
    have hedge := hlead _ (self_mem_subtrees _) (.node pro []) (List.mem_map_of_mem hpro)
    rw [hroot, h.roleIn_directTopo hpro] at hedge
    omega
  · intro hlead q hq c hc
    obtain ⟨rfl, pro, hpro, rfl⟩ := edge_directTopo hq hc
    rw [hroot, h.roleIn_directTopo hpro]
    omega

end Startup

end InNetworkAgg
