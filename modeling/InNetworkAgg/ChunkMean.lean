import InNetworkAgg.Handlers
import InNetworkAgg.Lib.PartialRun

/-!
# The mean of one chunk (`SimpleMPI::HandleResponseV`)

A parent of `n` nodes adds their vectors to the chunk of an offset in `uint64_t`,
one message at a time, between messages for other offsets, and divides after
the `n`-th.  At an offset that `AvgEnd` examines, what comes out is the floor of
the true mean exactly when the true sums fit 64 bits:

    Examined vsize o → (MeanExact past s o rs last ↔ ∀ j < k, Σ v[j] < 2 ^ 64)   (chunk_mean)

The generator's elements are below `2 ^ 63`, so two of them always fit and three
need not (`chunk_mean_wraps`).

Up to 25500 elements all offsets are examined (`examined_of_le`).  Beyond, the
number of chunks does not fit its `uint8_t`: a round may end before the `n`
responses for an offset are there, and `ClearChunkMap` forgets those that are.
-/

namespace InNetworkAgg

open PartialRun SimpleMPI

/-! ## Responses for an offset -/

/-- A response as it lies in the message buffer, with what is behind it. -/
structure Response where
  offset : Nat
  vec : List UInt64
  tail : List UInt8

/-- One message handled; what it sends is not looked at here. -/
def respond (past : UInt64) (s : SimpleMPI) (r : Response) : Option SimpleMPI :=
  (s.handleResponseV past (chunkMessage r.offset r.vec ++ r.tail)).map Prod.fst

/-- The vectors among the responses that belong to offset `o`. -/
def vectorsAt (o : Nat) (rs : List Response) : List (List UInt64) :=
  (rs.filter (·.offset = o)).map (·.vec)

/-- What `GenetrateRandomVector` can produce. -/
def IsRandomElement (x : UInt64) : Prop :=
  ∃ draw i, (∀ j, draw j < 2 ^ 31) ∧ x = randomElement draw i

/-- The message of `SendResponseVTo` for one chunk. -/
structure Response.Fits (r : Response) : Prop where
  offset : r.offset < 65536
  length : r.vec.length ≤ k

structure Response.Ok (r : Response) : Prop extends r.Fits where
  range : ∀ x ∈ r.vec, IsRandomElement x

/-- `AvgEnd` waits for the chunk of this offset. -/
def Examined (vsize o : Nat) : Prop := ∃ i < range vsize, o = i * k

/-- Up to 255 chunks all of them are examined. -/
theorem examined_of_le {vsize o : Nat} (hv : vsize ≤ 25500) (ho : o < vsize) (hk : k ∣ o) :
    Examined vsize o := by
  obtain ⟨i, rfl⟩ := hk
  refine ⟨i, ?_, Nat.mul_comm k i⟩
  rw [range_eq hv]
  exact (lt_chunkCount i vsize).2 (Nat.mul_comm k i ▸ ho)

/-- The sum of the elements at `j`, over the unbounded integers. -/
def trueSum (vs : List (List UInt64)) (j : Nat) : Nat := (vs.map fun v => (v.getD j 0).toNat).sum

/-- The addition of a vector to chunk data, element by element, does not wrap. -/
def AddsExactly (data vec : List UInt64) : Prop :=
  ∀ j < k, ((sumVector data data vec).getD j 0).toNat = (data.getD j 0).toNat + (vec.getD j 0).toNat

/-- What is wanted of chunk `o` in a run through `rs` and then `last`: no addition
to it wraps, and the last one leaves the true mean of all vectors. -/
structure MeanExact (past : UInt64) (s : SimpleMPI) (o : Nat) (rs : List Response)
    (last : Response) : Prop where
  adds : ∀ before r after u, rs ++ [last] = before ++ r :: after → r.offset = o →
    runs (respond past) s before = some u →
      AddsExactly (u.chunk o).data (r.vec ++ zeros (k - r.vec.length))
  mean : ∀ u t, runs (respond past) s rs = some u →
    u.addChunk o (last.vec ++ zeros (k - last.vec.length)) = some t →
      ∀ j < k, ((t.chunk o).data.getD j 0).toNat =
        trueSum (vectorsAt o (rs ++ [last])) j / s.cGroup.length

/-! ## A run that leaves the chunk open -/

/-- The vector as `PraseVector` leaves it: zeros behind what was sent. -/
def Response.padded (r : Response) : List UInt64 := r.vec ++ zeros (k - r.vec.length)

theorem Response.Fits.length_padded {r : Response} (h : r.Fits) : r.padded.length = k := by
  have := h.length
  simp [Response.padded]
  omega

theorem respond_eq (past : UInt64) (s : SimpleMPI) {r : Response} (hr : r.Fits) :
    respond past s r = (s.receiveChunk past r.offset r.padded).map Prod.fst := by
  rw [respond, handleResponseV_spec past s r.offset r.vec r.tail hr.offset hr.length]
  rfl

theorem addChunk_eq_some {s t : SimpleMPI} {o : Nat} {v : List UInt64}
    (h : s.addChunk o v = some t) : ∃ c, t = s.setChunk o c := by
  rw [addChunk] at h
  simp only [Option.bind_eq_bind] at h
  split at h
  · split at h
    · obtain ⟨data, -, h⟩ := Option.bind_eq_some_iff.1 h
      exact ⟨_, (Option.some.inj h).symm⟩
    · exact ⟨_, (Option.some.inj h).symm⟩
  · cases h

/-- The vectors for `o` as they are added, last first. -/
def paddedAt (o : Nat) (rs : List Response) : List (List UInt64) :=
  ((rs.filter (·.offset = o)).map (·.padded)).reverse

theorem vectorsAt_cons (o : Nat) (r : Response) (rs : List Response) :
    vectorsAt o (r :: rs) = vectorsAt o [r] ++ vectorsAt o rs := by
  simp only [vectorsAt, ← List.map_append, ← List.filter_append, List.singleton_append]

theorem paddedAt_cons (o : Nat) (r : Response) (rs : List Response) (vs : List (List UInt64)) :
    paddedAt o (r :: rs) ++ vs =
      paddedAt o rs ++ if r.offset = o then r.padded :: vs else vs := by
  by_cases h : r.offset = o <;> simp [paddedAt, h]

/-- Chunk `o` of `u` holds the vectors `vs` and waits for more; group and size
are those of `s`. -/
structure OpenAt (s : SimpleMPI) (o : Nat) (vs : List (List UInt64)) (u : SimpleMPI) : Prop where
  group : u.cGroup = s.cGroup
  size : u.vsize = s.vsize
  holds : ChunkHolds s.cGroup.length vs (u.chunk o)
  more : vs.length < s.cGroup.length

/-- The round of an open chunk is not complete. -/
theorem OpenAt.not_complete {s u : SimpleMPI} {o : Nat} {vs : List (List UInt64)}
    (h : OpenAt s o vs u) (hgroup : s.cGroup.length < 256) (ho : ∃ i < range s.vsize, o = i * k) :
    u.roundComplete u.vsize = false := by
  obtain ⟨i, hi, rfl⟩ := ho
  rw [← Bool.not_eq_true, roundComplete_iff u (by rw [h.group]; exact hgroup)
    (by rw [h.group]; exact Nat.lt_of_le_of_lt (Nat.zero_le _) h.more)]
  intro hall
  have hcount := hall i (by rw [h.size]; exact hi)
  rw [h.holds.count, h.group] at hcount
  exact absurd hcount (Nat.ne_of_lt h.more)

section
variable (past : UInt64) {s : SimpleMPI} {o : Nat} (hgroup : s.cGroup.length < 256)
  (ho : Examined s.vsize o)
include hgroup ho

/-- After an open chunk got its addition, the rest of the handler changes no chunk. -/
theorem OpenAt.receive {vs : List (List UInt64)} {t u : SimpleMPI} {o' : Nat} {v : List UInt64}
    (ht : OpenAt s o vs t) (hadd : u.addChunk o' v = some t) :
    u.receiveChunk past o' v = some (t, []) ∨
      u.receiveChunk past o' v = some ({ t with asEnd := false }, []) := by
  have hopen := ht.not_complete hgroup ho
  rw [receiveChunk, hadd, Option.bind_eq_bind, Option.bind_some]
  split
  · exact Or.inr (avgEnd_open past t t.vsize hopen)
  · exact Or.inl rfl

/-- One response handled. -/
theorem OpenAt.respond {vs : List (List UInt64)} {u u' : SimpleMPI} {r : Response}
    (hu : OpenAt s o vs u) (hr : r.Fits)
    (hmore : (vectorsAt o [r]).length + vs.length < s.cGroup.length)
    (h : respond past u r = some u') :
    OpenAt s o (if r.offset = o then r.padded :: vs else vs) u' := by
  rw [respond_eq past u hr, Option.map_eq_some_iff] at h
  obtain ⟨⟨u'', es⟩, h, rfl⟩ := h
  have hsome : ∃ t, u.addChunk r.offset r.padded = some t := by
    rw [receiveChunk, Option.bind_eq_bind, Option.bind_eq_some_iff] at h
    obtain ⟨t, ht, -⟩ := h
    exact ⟨t, ht⟩
  obtain ⟨t, hadd⟩ := hsome
  have hopen : OpenAt s o (if r.offset = o then r.padded :: vs else vs) t := by
    by_cases hro : r.offset = o
    · have hlen : vs.length + 1 < s.cGroup.length := by
        simp [vectorsAt, hro] at hmore
        omega
      subst hro
      obtain ⟨c, hc, hholds⟩ := addChunk_spec u r.offset vs r.padded (by rw [hu.group]; exact hgroup)
        (by rw [hu.group]; exact hu.more) hr.length_padded (by rw [hu.group]; exact hu.holds)
      rw [hadd] at hc
      cases hc
      rw [if_pos rfl]
      rw [hu.group] at hholds
      exact ⟨hu.group, hu.size, by rw [chunk_setChunk_self]; exact hholds, hlen⟩
    · obtain ⟨c, rfl⟩ := addChunk_eq_some hadd
      rw [if_neg hro]
      exact ⟨hu.group, hu.size,
        by rw [chunk_setChunk_of_ne _ _ _ _ (Ne.symm hro)]; exact hu.holds, hu.more⟩
  rcases hopen.receive past hgroup ho hadd with h' | h'
  · rw [h] at h'
    cases h'
    exact hopen
  · rw [h] at h'
    cases h'
    exact ⟨hopen.group, hopen.size, hopen.holds, hopen.more⟩

/-- A response for the open chunk is handled. -/
theorem OpenAt.respond_some {vs : List (List UInt64)} {u : SimpleMPI} {r : Response}
    (hu : OpenAt s o vs u) (hr : r.Fits) (hro : r.offset = o) (hmore : vs.length + 1 < s.cGroup.length) :
    ∃ u', InNetworkAgg.respond past u r = some u' := by
  obtain ⟨c, hc, hholds⟩ := addChunk_spec u r.offset vs r.padded (by rw [hu.group]; exact hgroup)
    (by rw [hu.group]; exact hu.more) hr.length_padded (by rw [hu.group, hro]; exact hu.holds)
  have hopen : OpenAt s o (r.padded :: vs) (u.setChunk r.offset c) := by
    refine ⟨hu.group, hu.size, ?_, hmore⟩
    rw [← hro, chunk_setChunk_self, ← hu.group]
    exact hholds
  rw [respond_eq past u hr]
  rcases hopen.receive past hgroup ho hc with h | h
  · exact ⟨_, by rw [h]; rfl⟩
  · exact ⟨_, by rw [h]; rfl⟩

/-- A run of responses. -/
theorem OpenAt.runs {vs : List (List UInt64)} {u u' : SimpleMPI} (rs : List Response)
    (hu : OpenAt s o vs u) (hrs : ∀ r ∈ rs, r.Fits)
    (hmore : (vectorsAt o rs).length + vs.length < s.cGroup.length)
    (h : runs (InNetworkAgg.respond past) u rs = some u') : OpenAt s o (paddedAt o rs ++ vs) u' := by
  induction rs generalizing u vs with
  | nil =>
    cases h
    exact hu
  | cons r rs ih =>
    rw [runs_cons, Option.bind_eq_some_iff] at h
    obtain ⟨w, hw, h⟩ := h
    rw [vectorsAt_cons, List.length_append] at hmore
    have hstep := hu.respond past hgroup ho (hrs r List.mem_cons_self) (by omega) hw
    rw [paddedAt_cons]
    refine ih hstep (fun r' hr' => hrs r' (List.mem_cons_of_mem _ hr')) ?_ h
    by_cases hro : r.offset = o <;> simp [vectorsAt, hro] at hmore ⊢ <;> omega

end

/-! ## The sums -/

theorem trueSum_cons (v : List UInt64) (vs : List (List UInt64)) (j : Nat) :
    trueSum (v :: vs) j = (v.getD j 0).toNat + trueSum vs j := by
  simp [trueSum]

theorem trueSum_append (vs ws : List (List UInt64)) (j : Nat) :
    trueSum (vs ++ ws) j = trueSum vs j + trueSum ws j := by
  simp [trueSum]

theorem trueSum_paddedAt (o : Nat) (rs : List Response) (j : Nat) :
    trueSum (paddedAt o rs) j = trueSum (vectorsAt o rs) j := by
  simp only [trueSum, paddedAt, vectorsAt, List.map_reverse, List.sum_reverse, List.map_map,
    Function.comp_def, Response.padded, getD_append_zeros]

theorem getD_chunkSum (vs : List (List UInt64)) {j : Nat} (hj : j < k) :
    ((chunkSum vs).getD j 0).toNat = trueSum vs j % 2 ^ 64 := by
  rw [List.getD_eq_getElem _ _ (by simpa using hj)]
  simp [chunkSum, trueSum]

theorem getD_chunkAvg (vs : List (List UInt64)) {j : Nat} (hj : j < k) (hn : vs.length < 2 ^ 64) :
    ((chunkAvg vs).getD j 0).toNat = trueSum vs j % 2 ^ 64 / vs.length := by
  rw [List.getD_eq_getElem _ _ (by simpa using hj), getElem_chunkAvg_toNat vs j _ hn]
  rfl

/-- Adding to a sum that stays below `2 ^ 64`. -/
theorem addsExactly_of_lt (vs : List (List UInt64)) (v : List UInt64)
    (h : ∀ j < k, trueSum (v :: vs) j < 2 ^ 64) : AddsExactly (chunkSum vs) v := by
  intro j hj
  have hlt := h j hj
  rw [sumVector_chunkSum vs v, getD_chunkSum _ hj, getD_chunkSum _ hj, Nat.mod_eq_of_lt hlt]
  rw [trueSum_cons] at hlt ⊢
  rw [Nat.mod_eq_of_lt (by omega)]
  omega

/-- The quotient of a wrapped sum is the mean only if the sum did not wrap. -/
theorem mod_div_eq_div_iff (a n : Nat) (hn : 0 < n) (hn' : n ≤ 2 ^ 64) :
    a % 2 ^ 64 / n = a / n ↔ a < 2 ^ 64 := by
  constructor
  · intro h
    by_contra hlt
    have hle : a % 2 ^ 64 + n ≤ a := by
      have := Nat.mod_lt a (show 0 < 2 ^ 64 by decide)
      have := Nat.div_add_mod a (2 ^ 64)
      have : 1 ≤ a / 2 ^ 64 := (Nat.one_le_div_iff (by decide)).2 (by omega)
      omega
    have hdiv := Nat.div_le_div_right (c := n) hle
    rw [Nat.add_div_right _ hn, h] at hdiv
    omega
  · intro h
    rw [Nat.mod_eq_of_lt h]

/-- Elements of the generator are below `2 ^ 63`. -/
theorem IsRandomElement.lt {x : UInt64} (h : IsRandomElement x) : x.toNat < 2 ^ 63 := by
  obtain ⟨draw, i, hdraw, rfl⟩ := h
  rw [randomElement_toNat draw hdraw i]
  have h1 := hdraw (2 * i)
  have h2 := hdraw (2 * i + 1)
  omega

/-- The sum of `n` such elements. -/
theorem trueSum_le (vs : List (List UInt64)) (hvs : ∀ v ∈ vs, ∀ x ∈ v, IsRandomElement x) (j : Nat) :
    trueSum vs j ≤ vs.length * (2 ^ 63 - 1) := by
  induction vs with
  | nil => simp [trueSum]
  | cons v vs ih =>
    have hrest := ih fun w hw => hvs w (List.mem_cons_of_mem _ hw)
    have hv : (v.getD j 0).toNat < 2 ^ 63 := by
      rcases Nat.lt_or_ge j v.length with hj | hj
      · rw [List.getD_eq_getElem _ _ hj]
        exact (hvs v List.mem_cons_self _ (List.getElem_mem hj)).lt
      · rw [List.getD_eq_default _ _ hj]
        decide
    rw [trueSum_cons, List.length_cons, Nat.succ_mul]
    omega

/-- What was summed up when `r` comes is part of the whole sum. -/
theorem trueSum_before_le (o : Nat) {rs before after : List Response} {r : Response}
    (hsplit : rs = before ++ r :: after) (hr : r.offset = o) (j : Nat) :
    trueSum (r.padded :: paddedAt o before) j ≤ trueSum (vectorsAt o rs) j := by
  have hwhole : vectorsAt o rs = vectorsAt o before ++ r.vec :: vectorsAt o after := by
    rw [hsplit]
    simp [vectorsAt, hr]
  rw [hwhole, trueSum_append, trueSum_cons, trueSum_cons, trueSum_paddedAt, Response.padded,
    getD_append_zeros]
  omega

/-- Two producers cannot make the sum wrap. -/
theorem trueSum_lt_of_le_two {vs : List (List UInt64)} (hvs : ∀ v ∈ vs, ∀ x ∈ v, IsRandomElement x)
    (h : vs.length ≤ 2) (j : Nat) : trueSum vs j < 2 ^ 64 := by
  have hle := trueSum_le vs hvs j
  have := Nat.mul_le_mul_right (2 ^ 63 - 1) h
  omega

/-! ## The mean -/

section
variable {past : UInt64} {s : SimpleMPI} {o : Nat} {rs : List Response} {last : Response}
  {u : SimpleMPI} (hpos : 0 < s.cGroup.length) (hgroup : s.cGroup.length < 256)
  (ho : Examined s.vsize o) (hnew : s.chunk o = .new)
  (hrs : ∀ r ∈ rs ++ [last], r.Fits) (hlast : last.offset = o)
  (hall : (vectorsAt o (rs ++ [last])).length = s.cGroup.length)
include hpos hgroup ho hnew hrs hall

/-- Before any response of the run, the chunk is the sum of the earlier ones. -/
theorem open_before {before after : List Response} {r : Response} {w : SimpleMPI}
    (hsplit : rs ++ [last] = before ++ r :: after) (hr : r.offset = o)
    (hw : runs (respond past) s before = some w) : OpenAt s o (paddedAt o before) w := by
  have hstart : OpenAt s o [] s :=
    ⟨rfl, rfl, by rw [hnew]; exact ChunkHolds.new hpos, hpos⟩
  have hlen : (vectorsAt o before).length < s.cGroup.length := by
    rw [← hall, hsplit]
    simp [vectorsAt, hr]
  have h := hstart.runs past hgroup ho before
    (fun r' hr' => hrs r' (by rw [hsplit]; exact List.mem_append_left _ hr')) hlen hw
  rwa [List.append_nil] at h

include hlast

/-- What the last response makes of the chunk. -/
theorem chunk_after (hu : runs (respond past) s rs = some u) :
    ∃ t, u.addChunk o last.padded = some t ∧ t.cGroup.length = s.cGroup.length ∧
      (t.chunk o).count = s.cGroup.length ∧
      (t.chunk o).data = chunkAvg (last.padded :: paddedAt o rs) := by
  have hopen := open_before hpos hgroup ho hnew hrs hall rfl hlast hu
  have hlen : (last.padded :: paddedAt o rs).length = s.cGroup.length := by
    rw [← hall]
    simp [vectorsAt, paddedAt, hlast]
  have hlast' := hrs last (by simp)
  obtain ⟨c, hc, hholds⟩ := addChunk_spec u o _ last.padded (by rw [hopen.group]; exact hgroup)
    (by rw [hopen.group]; exact hopen.more) hlast'.length_padded (by rw [hopen.group]; exact hopen.holds)
  refine ⟨_, hc, ?_, ?_, ?_⟩
  · rw [setChunk_cGroup, hopen.group]
  · rw [chunk_setChunk_self, hholds.count, hlen]
  · rw [chunk_setChunk_self, hholds.data, hopen.group, if_pos hlen]

/-- The elements of the chunk are then the wrapped sums, divided. -/
theorem mean_after (hu : runs (respond past) s rs = some u) :
    ∃ t, u.addChunk o last.padded = some t ∧ ∀ j < k, ((t.chunk o).data.getD j 0).toNat =
      trueSum (vectorsAt o (rs ++ [last])) j % 2 ^ 64 / s.cGroup.length := by
  obtain ⟨t, ht, -, -, hdata⟩ := chunk_after hpos hgroup ho hnew hrs hlast hall hu
  have hcount : (last.padded :: paddedAt o rs).length = s.cGroup.length := by
    rw [← hall]
    simp [vectorsAt, paddedAt, hlast]
  refine ⟨t, ht, fun j hj => ?_⟩
  have hsum : trueSum (last.padded :: paddedAt o rs) j = trueSum (vectorsAt o (rs ++ [last])) j := by
    rw [← trueSum_paddedAt]
    simp [paddedAt, hlast]
  rw [hdata, getD_chunkAvg _ hj (by omega), hcount, hsum]

/-- The mean is exact where the sums do not wrap, and nowhere else. -/
theorem meanExact_iff (hu : runs (respond past) s rs = some u) :
    MeanExact past s o rs last ↔ ∀ j < k, trueSum (vectorsAt o (rs ++ [last])) j < 2 ^ 64 := by
  obtain ⟨t, ht, hdata⟩ := mean_after hpos hgroup ho hnew hrs hlast hall hu
  constructor
  · intro h j hj
    have hmean := h.mean u t hu ht j hj
    rw [hdata j hj] at hmean
    exact (mod_div_eq_div_iff _ _ hpos (by omega)).1 hmean
  · intro h
    refine ⟨fun before r after w hsplit hr hw => ?_, fun u' t' hu' ht' j hj => ?_⟩
    · have hopen := open_before hpos hgroup ho hnew hrs hall hsplit hr hw
      rw [hopen.holds.data, if_neg (Nat.ne_of_lt hopen.more)]
      refine addsExactly_of_lt _ _ fun j hj => ?_
      exact Nat.lt_of_le_of_lt (trueSum_before_le o hsplit hr j) (h j hj)
    · rw [hu] at hu'
      cases hu'
      rw [← Response.padded, ht] at ht'
      cases ht'
      rw [hdata j hj, Nat.mod_eq_of_lt (h j hj)]

end

/-- **The mean of a chunk** that `AvgEnd` examines.  After `n` responses the chunk holds the
true mean, and no addition wrapped, exactly when the `n` elements at each position sum
up to less than `2 ^ 64`; for one or two producers they do. -/
theorem chunk_mean {past : UInt64} {s u : SimpleMPI} {o : Nat} {rs : List Response}
    {last : Response} (hpos : 0 < s.cGroup.length) (hgroup : s.cGroup.length < 256)
    (ho : Examined s.vsize o) (hnew : s.chunk o = .new) (hrs : ∀ r ∈ rs ++ [last], r.Ok)
    (hlast : last.offset = o) (hall : (vectorsAt o (rs ++ [last])).length = s.cGroup.length)
    (hu : runs (respond past) s rs = some u) :
    (MeanExact past s o rs last ↔ ∀ j < k, trueSum (vectorsAt o (rs ++ [last])) j < 2 ^ 64) ∧
      (s.cGroup.length ≤ 2 → MeanExact past s o rs last) := by
  have hiff := meanExact_iff hpos hgroup ho hnew (fun r hr => (hrs r hr).toFits) hlast hall hu
  refine ⟨hiff, fun htwo => hiff.2 fun j _ => ?_⟩
  refine trueSum_lt_of_le_two (fun v hv x hx => ?_) (hall ▸ htwo) j
  obtain ⟨r, hr, rfl⟩ := List.mem_map.1 hv
  exact (hrs r (List.mem_filter.1 hr).1).range x hx

/-- A parent of `n` nodes at the start of a round, with one chunk to collect. -/
def parentOf (n : Nat) : SimpleMPI := { SimpleMPI.fresh k with cGroup := List.range n }

/-- A response whose elements are all made of the two draws `hi` and `lo`. -/
def constantResponse (hi lo : Nat) : Response where
  offset := 0
  vec := List.replicate k (randomElement (fun j => if j = 0 then hi else lo) 0)
  tail := []

theorem constantResponse_ok (hi lo : Nat) (hhi : hi < 2 ^ 31) (hlo : lo < 2 ^ 31) :
    (constantResponse hi lo).Ok where
  offset := by simp [constantResponse]
  length := by simp [constantResponse]
  range := by
    intro x hx
    rw [List.eq_of_mem_replicate hx]
    refine ⟨_, 0, fun j => ?_, rfl⟩
    by_cases hj : j = 0
    · simpa [hj] using hhi
    · simpa [hj] using hlo

theorem parentOf_open {n : Nat} (hn : 0 < n) : OpenAt (parentOf n) 0 [] (parentOf n) where
  group := rfl
  size := rfl
  holds := ChunkHolds.new (by simpa [parentOf] using hn)
  more := by simpa [parentOf] using hn

theorem chunk_mean_two : MeanExact 0 (parentOf 2) 0 [constantResponse 5 7] (constantResponse 6 9) := by
  have ho : Examined (parentOf 2).vsize 0 := examined_of_le (by decide) (by decide) (by decide)
  have hok : ∀ r ∈ [constantResponse 5 7] ++ [constantResponse 6 9], r.Ok := by
    intro r hr
    rcases List.mem_pair.1 hr with rfl | rfl
    · exact constantResponse_ok _ _ (by decide) (by decide)
    · exact constantResponse_ok _ _ (by decide) (by decide)
  obtain ⟨u, hu⟩ := (parentOf_open (n := 2) (by decide)).respond_some 0
    (r := constantResponse 5 7) (by decide) ho (hok _ (by simp)).toFits rfl (by decide)
  exact (chunk_mean (u := u) (by decide) (by decide) ho rfl hok rfl rfl
    (by rw [runs_cons, hu]; rfl)).2 (by decide)

/-- Three producers with the largest elements: the chunk is not their mean. -/
theorem chunk_mean_wraps :
    (constantResponse (2 ^ 31 - 1) (2 ^ 31 - 1)).Ok ∧
    ¬ MeanExact 0 (parentOf 3) 0
      [constantResponse (2 ^ 31 - 1) (2 ^ 31 - 1), constantResponse (2 ^ 31 - 1) (2 ^ 31 - 1)]
      (constantResponse (2 ^ 31 - 1) (2 ^ 31 - 1)) := by
  have hok := constantResponse_ok (2 ^ 31 - 1) (2 ^ 31 - 1) (by decide) (by decide)
  have hoks : ∀ r ∈ [constantResponse (2 ^ 31 - 1) (2 ^ 31 - 1),
      constantResponse (2 ^ 31 - 1) (2 ^ 31 - 1)] ++ [constantResponse (2 ^ 31 - 1) (2 ^ 31 - 1)],
      r.Ok := by
    intro r hr
    have hr' : r = constantResponse (2 ^ 31 - 1) (2 ^ 31 - 1) := by simpa using hr
    exact hr' ▸ hok
  have h0 := parentOf_open (n := 3) (by decide)
  have ho : Examined (parentOf 3).vsize 0 := examined_of_le (by decide) (by decide) (by decide)
  refine ⟨hok, fun h => ?_⟩
  obtain ⟨u, hu⟩ := h0.respond_some 0 (by decide) ho hok.toFits rfl (by decide)
  have h1 := h0.respond 0 (by decide) ho hok.toFits (by decide) hu
  obtain ⟨w, hw⟩ := h1.respond_some 0 (by decide) ho hok.toFits rfl (by decide)
  have hruns : runs (respond 0) (parentOf 3) [constantResponse (2 ^ 31 - 1) (2 ^ 31 - 1),
      constantResponse (2 ^ 31 - 1) (2 ^ 31 - 1)] = some w := by
    rw [runs_cons, hu, Option.bind_some, runs_cons, hw]
    rfl
  obtain ⟨t, ht, -, -, hdata⟩ := chunk_after (by decide) (by decide) ho rfl
    (fun r hr => (hoks r hr).toFits) rfl rfl hruns
  have hmean := h.mean w t hruns ht 0 (by decide)
  rw [hdata] at hmean
  exact absurd hmean (by decide)

/-- The two elements of offset 100 of 25600 are 5 and 7, but the chunk ends as 7: no chunk is
examined, and the response behind the 5 ends a round. -/
example : ((runs (respond 0) { SimpleMPI.fresh 25600 with cGroup := List.range 2 }
      [⟨0, [5], []⟩, ⟨100, [5], []⟩, ⟨0, [7], []⟩]).bind fun u =>
        u.addChunk 100 (Response.mk 100 [7] []).padded).map
    (fun t => ((t.chunk 100).data.getD 0 0, (t.chunk 100).count)) = some (7, 1) := by
  decide +kernel

end InNetworkAgg
