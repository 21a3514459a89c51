import InNetworkAgg.CheckedReceive

/-!
# Any bytes in the ring (`SimpleMPI::ReceiveDataFrom`)

What a call does with bytes that no sender wrote.  The `messages` it cuts out of
the ring decide, each at the state of the node it meets:

    Safe (checkReceive … ring w)  ↔  AllHarmless … ring w        (receive_safe_iff)

`Decides r p` says that `r` is safe exactly when `p` holds, and composes along
the steps of a call (`Decides.bind`).
-/

namespace InNetworkAgg

open LittleEndian PartialRun SimpleMPI

/-! ## What the header parser finds -/

/-- The 16-bit word at a position. -/
def word (buffer : List UInt8) (i : Nat) : Nat := leValue ((buffer.drop i).take 2)

/-- The bytes up to the first `':'`, at most as many as the length word leaves. -/
def keyOf (buffer : List UInt8) : Key :=
  (buffer.drop 2).take (min ((buffer.drop 2).idxOf colon) (word buffer 0 - 2))

theorem word_lt (buffer : List UInt8) (i : Nat) : word buffer i < 65536 := by
  unfold word
  have h := leValue_lt ((buffer.drop i).take 2)
  have hlen : ((buffer.drop i).take 2).length ≤ 2 := List.length_take_le _ _
  have hpow := Nat.pow_le_pow_right (show 0 < 256 by decide) hlen
  omega

theorem length_keyOf (buffer : List UInt8) :
    (keyOf buffer).length = min ((buffer.drop 2).idxOf colon) (word buffer 0 - 2) := by
  unfold keyOf
  rw [List.length_take]
  have := List.idxOf_le_length (a := colon) (l := buffer.drop 2)
  omega

/-- The scan ends at the first `':'` or at the bound, and has to be inside there. -/
theorem keyLen_eq (bs : List UInt8) (bound : Nat) :
    keyLen bs bound = if min (bs.idxOf colon) bound < bs.length then some (min (bs.idxOf colon) bound)
      else none := by
  induction bs generalizing bound with
  | nil => rfl
  | cons b bs ih =>
    cases bound with
    | zero =>
      rw [Nat.min_zero]
      exact (if_pos (Nat.zero_lt_succ _)).symm
    | succ bound =>
      rw [keyLen]
      by_cases hb : b = colon
      · rw [if_pos hb, hb, List.idxOf_cons_self, Nat.zero_min]
        exact (if_pos (Nat.zero_lt_succ _)).symm
      · rw [if_neg hb, List.idxOf_cons_ne _ hb, ih, Nat.succ_min_succ, List.length_cons]
        by_cases hlt : min (bs.idxOf colon) bound < bs.length
        · rw [if_pos hlt, if_pos (by omega), Option.map_some]
        · rw [if_neg hlt, if_neg (by omega), Option.map_none]

/-- The header parser stays inside exactly when the two words around the key do. -/
theorem praseHeader_eq (buffer : List UInt8) (hlen : 2 ≤ buffer.length) :
    praseHeader buffer = if (keyOf buffer).length + 5 ≤ buffer.length then
      some { key := keyOf buffer, dataLen := word buffer 0
             offset := word buffer ((keyOf buffer).length + 3)
             cursor := ((keyOf buffer).length + 5) % 65536 }
    else none := by
  have hword : load 2 buffer 0 = some (word buffer 0) := by
    unfold load word
    rw [if_pos (by omega)]
  have hkey := length_keyOf buffer
  unfold praseHeader
  rw [hword, Option.bind_eq_bind, Option.bind_some, keyLen_eq, ← hkey, List.length_drop]
  by_cases hin : (keyOf buffer).length + 5 ≤ buffer.length
  · have hoffset : load 2 buffer (2 + (keyOf buffer).length + 1) =
        some (word buffer ((keyOf buffer).length + 3)) := by
      unfold load word
      rw [if_pos (by omega), show 2 + (keyOf buffer).length + 1 = (keyOf buffer).length + 3 by omega]
    have htake : (buffer.drop 2).take (keyOf buffer).length = keyOf buffer := by
      rw [hkey]
      rfl
    rw [if_pos (by omega), if_pos hin, Option.bind_some, hoffset, Option.bind_some, htake,
      show 2 + (keyOf buffer).length + 1 + 2 = (keyOf buffer).length + 5 by omega]
  · rw [if_neg hin]
    split
    · have hoffset : load 2 buffer (2 + (keyOf buffer).length + 1) = none := by
        unfold load
        rw [if_neg (by omega)]
      rw [Option.bind_some, hoffset]
      rfl
    · rfl

/-! ## What the value parser needs -/

/-- With room in the vector and the bytes in the buffer, every pass is made. -/
theorem foldlM_praseElement_isSome (buffer : List UInt8) (vec : List UInt64) (n : Nat)
    (hvec : n ≤ vec.length) (hbuf : 8 * n ≤ buffer.length) :
    ∃ v, (List.range n).foldlM (praseElement buffer) vec = some v ∧ v.length = vec.length := by
  induction n with
  | zero => exact ⟨vec, rfl, rfl⟩
  | succ n ih =>
    obtain ⟨v, hv, hlen⟩ := ih (by omega) (by omega)
    obtain ⟨x, hpass⟩ : ∃ x, praseElement buffer v n = some (v.set n x) := by
      unfold praseElement load
      rw [if_pos (by omega), Option.bind_eq_bind, Option.bind_some, if_pos (by omega)]
      exact ⟨_, rfl⟩
    refine ⟨v.set n x, ?_, by rw [List.length_set, hlen]⟩
    rw [List.range_succ, List.foldlM_append, hv]
    show [n].foldlM (praseElement buffer) v = _
    rw [List.foldlM_cons, hpass]
    rfl

/-- A value of at most `k` elements that is in the buffer is parsed. -/
theorem checkVector_ok (buffer : List UInt8) (bufferSize : Nat) (hsize : bufferSize / 8 ≤ k)
    (hbuf : bufferSize ≤ buffer.length) :
    ∃ v, checkVector buffer bufferSize (zeros k) = .ok v ∧ v.length = k := by
  have hk : k = 100 := rfl
  obtain ⟨v, hv, hlen⟩ := foldlM_praseElement_isSome buffer (zeros k) (bufferSize / 8)
    (by rw [length_zeros]; exact hsize) (by omega)
  refine ⟨v, ?_, hlen.trans (length_zeros k)⟩
  unfold checkVector praseVector
  rw [length_zeros, if_neg (by omega), if_pos (by omega), hv]
  rfl

/-! ## The loops behind the parsers -/

/-- The answer to the parents ends. -/
def Answerable (s : SimpleMPI) : Prop :=
  s.sGroup.length < 256 ∧ (s.sGroup ≠ [] → s.avg.length % 65536 ≤ 65532)

theorem isSome_mapM_iff {α β : Type} (f : α → Option β) (l : List α) :
    (l.mapM f).isSome = true ↔ ∀ a ∈ l, (f a).isSome = true := by
  induction l with
  | nil => simp
  | cons a l ih =>
    rw [List.mapM_cons, List.forall_mem_cons, ← ih]
    cases f a with
    | none => simp
    | some b => cases l.mapM f <;> simp

/-- The loops over a group have a `uint8_t` index. -/
theorem isSome_passes_group (n : Nat) : (Counter.passes 256 1 n).isSome = true ↔ n < 256 := by
  rw [Counter.isSome_passes_iff _ _ _ (by decide)]
  constructor
  · rintro ⟨i, hi⟩
    omega
  · intro h
    exact ⟨255, by omega⟩

theorem isSome_sendRequestVToAll_iff (s : SimpleMPI) (size : Nat) :
    (s.sendRequestVToAll size).isSome = true ↔ s.cGroup.length < 256 := by
  unfold sendRequestVToAll
  rw [← isSome_passes_group]
  cases Counter.passes 256 1 s.cGroup.length <;> rfl

theorem isSome_sendResponseVToP_iff (past : UInt64) (s : SimpleMPI) :
    (sendResponseVToP past s).isSome = true ↔ Answerable s := by
  unfold sendResponseVToP Answerable
  by_cases hgroup : s.sGroup.length < 256
  · rw [Counter.passes_one 256 _ hgroup, Option.bind_eq_bind, Option.bind_some]
    have hsends := isSome_mapM_iff (fun i => sendResponseVTo past (s.sGroup.getD i 0) s.avg)
      (List.range s.sGroup.length)
    have hall : (∀ i ∈ List.range s.sGroup.length,
        (sendResponseVTo past (s.sGroup.getD i 0) s.avg).isSome = true) ↔
          (s.sGroup ≠ [] → s.avg.length % 65536 ≤ 65532) := by
      simp only [isSome_sendResponseVTo_iff, List.mem_range]
      constructor
      · intro h hne
        exact h 0 (List.length_pos_of_ne_nil hne)
      · intro h i hi
        exact h (List.ne_nil_of_length_pos (Nat.zero_lt_of_lt hi))
    rw [← hall, ← hsends, and_iff_right hgroup]
    cases (List.range s.sGroup.length).mapM fun i => sendResponseVTo past (s.sGroup.getD i 0) s.avg <;>
      rfl
  · have hpasses : Counter.passes 256 1 s.sGroup.length = none := by
      rw [← Option.not_isSome_iff_eq_none, isSome_passes_group]
      exact hgroup
    rw [hpasses]
    simp [hgroup]

/-- The requests for the next round end in a group of that size. -/
theorem isSome_nextRound (s : SimpleMPI) (es : List Effect) (hgroup : s.cGroup.length < 256) :
    (if s.curIter < s.maxIteration then
      ((s.sendRequestVToAll s.vsize).map (.newRequest :: ·)).bind fun requests =>
        some (s, es ++ requests)
    else (some []).bind fun requests => some (s, es ++ requests)).isSome = true := by
  split
  · have hsome := (isSome_sendRequestVToAll_iff s s.vsize).2 hgroup
    obtain ⟨requests, hsome⟩ := Option.isSome_iff_exists.1 hsome
    rw [hsome]
    rfl
  · rfl

theorem isSome_doAVG_iff (past : UInt64) (s : SimpleMPI) (hgroup : s.cGroup.length < 256) :
    (s.doAVG past).isSome = true ↔ (s.asEnd = true → 0 < s.curIter → Answerable s) := by
  let u : SimpleMPI := { s with asEnd := false }
  have hwritten : Answerable (u.writeChunk2Vec u.vsize) ↔ Answerable s := by
    unfold Answerable
    rw [show (u.writeChunk2Vec u.vsize).avg.length = s.avg.length from length_roundAvg u]
    exact Iff.rfl
  unfold doAVG
  by_cases hend : s.asEnd = true
  · rw [if_pos hend]
    dsimp only
    by_cases hiter : 0 < s.curIter
    · rw [if_pos hiter, forall_prop_of_true hend, forall_prop_of_true hiter, ← hwritten,
        ← isSome_sendResponseVToP_iff past]
      cases sendResponseVToP past (u.writeChunk2Vec u.vsize) with
      | none => exact Iff.rfl
      | some sends =>
        exact iff_of_true (isSome_nextRound (u.writeChunk2Vec u.vsize).clearChunkMap _ hgroup) rfl
    · rw [if_neg hiter]
      exact iff_of_true (isSome_nextRound u _ hgroup) fun _ h => absurd h hiter
  · rw [if_neg hend]
    exact iff_of_true rfl fun h => absurd h hend

theorem isSome_avgEnd_iff (past : UInt64) (s : SimpleMPI) (size : Nat)
    (hgroup : s.cGroup.length < 256) : (s.avgEnd past size).isSome = true ↔
      (s.roundComplete size = true → (s.curIter + 1) % 65536 ≠ 0 → Answerable s) := by
  unfold avgEnd
  refine (isSome_doAVG_iff past _ (by exact hgroup)).trans ?_
  cases hres : s.roundComplete size with
  | false => exact iff_of_true (fun h => Bool.noConfusion h) (fun h => Bool.noConfusion h)
  | true =>
    rw [if_pos rfl, Nat.pos_iff_ne_zero]
    exact Iff.rfl

/-- The next response for that offset completes the round. -/
structure LastOfRound (s : SimpleMPI) (offset : Nat) : Prop where
  sized : (s.chunk offset).data.length = k
  children : s.cGroup ≠ []
  counted : ((s.chunk offset).count + 1) % 256 = s.cGroup.length
  others : ∀ i < range s.vsize, i * k ≠ offset → (s.chunk (i * k)).count = s.cGroup.length

/-! ## What decides about a step -/

/-- `r` goes wrong exactly when `p` fails; with `p` at most the program ends. -/
structure Decides {α : Type} (r : Except Fault α) (p : Prop) : Prop where
  fine : p → r = .error .aborts ∨ ∃ x, r = .ok x
  wrong : ¬ p → r = .error .headerRead ∨ r = .error .vectorStore ∨ r = .error .endless

namespace Decides

variable {α β : Type} {x : Except Fault α} {p q : Prop}

theorem safe_iff (h : Decides x p) : Safe x ↔ p := by
  constructor
  · rintro ⟨hheader, hvector, hends⟩
    by_contra hp
    rcases h.wrong hp with h | h | h
    · exact hheader h
    · exact hvector h
    · exact hends h
  · intro hp
    rcases h.fine hp with h | ⟨a, h⟩ <;> subst h <;> exact ⟨nofun, nofun, nofun⟩

theorem ne_valueRead (h : Decides x p) : x ≠ .error .valueRead := by
  by_cases hp : p
  · rcases h.fine hp with h | ⟨a, h⟩ <;> subst h <;> nofun
  · rcases h.wrong hp with h | h | h <;> subst h <;> nofun

theorem congr (h : Decides x p) (hpq : p ↔ q) : Decides x q := propext hpq ▸ h

theorem ok (a : α) (hp : p) : Decides (.ok a : Except Fault α) p where
  fine _ := .inr ⟨a, rfl⟩
  wrong h := absurd hp h

theorem aborts (hp : p) : Decides (.error .aborts : Except Fault α) p where
  fine _ := .inl rfl
  wrong h := absurd hp h

theorem require_endless (o : Option α) : Decides (require .endless o) (o.isSome = true) := by
  cases o with
  | none => exact ⟨fun h => Bool.noConfusion h, fun _ => .inr (.inr rfl)⟩
  | some a => exact ok a rfl

theorem error {fault : Fault} (h : Decides (.error fault : Except Fault α) p) :
    Decides (.error fault : Except Fault β) p where
  fine hp := by
    rcases h.fine hp with h | ⟨a, h⟩
    · cases h
      exact .inl rfl
    · cases h
  wrong hp := by simpa using h.wrong hp

theorem of_ok {a : α} (h : Decides (.ok a : Except Fault α) p) : p := by
  by_contra hp
  rcases h.wrong hp with h | h | h <;> cases h

/-- One step after the other. -/
theorem bind {f : α → Except Fault β} {q : α → Prop} (hx : Decides x p)
    (hf : ∀ a, x = .ok a → Decides (f a) (q a)) :
    Decides (x.bind f) (p ∧ ∀ a, x = .ok a → q a) := by
  cases x with
  | error fault => exact hx.error.congr ⟨fun hp => ⟨hp, nofun⟩, And.left⟩
  | ok a =>
    refine (hf a rfl).congr ⟨fun h => ⟨hx.of_ok, fun b hb => ?_⟩, fun h => h.2 a rfl⟩
    cases hb
    exact h

theorem map (f : α → β) (hx : Decides x p) : Decides (x.map f) p := by
  cases x with
  | error fault => exact hx.error
  | ok a => exact ok (f a) hx.of_ok

end Decides

/-! ## One message -/

/-- The header parser either leaves the buffer or finds the key and the words around it. -/
theorem checkHeader_eq (buffer : List UInt8) (hlen : 2 ≤ buffer.length) :
    checkHeader buffer = if (keyOf buffer).length + 5 ≤ buffer.length then
      .ok { key := keyOf buffer, dataLen := word buffer 0
            offset := word buffer ((keyOf buffer).length + 3)
            cursor := ((keyOf buffer).length + 5) % 65536 }
    else .error .headerRead := by
  unfold checkHeader
  rw [praseHeader_eq buffer hlen]
  split <;> rfl

/-- The addition goes through for a vector of the chunk's size at a node with children. -/
theorem exists_addChunk {s : SimpleMPI} {offset : Nat} {vec : List UInt64} (hvec : vec.length = k)
    (hsized : (s.chunk offset).data.length = vec.length) (hne : s.cGroup ≠ []) :
    ∃ t, s.addChunk offset vec = some t := by
  have hk : k = 100 := rfl
  unfold addChunk
  dsimp only
  rw [if_pos hsized]
  split
  · rename_i hcount
    have hpos := List.length_pos_of_ne_nil hne
    rw [avgVector_eq _ _ (by rw [length_sumVector]; omega) (by omega)]
    exact ⟨_, rfl⟩
  · exact ⟨_, rfl⟩

theorem decides_checkChunk (past : UInt64) (s : SimpleMPI) (offset : Nat) (vec : List UInt64)
    (hvec : vec.length = k) : Decides (checkChunk past s offset vec)
      (LastOfRound s offset → (s.curIter + 1) % 65536 ≠ 0 → Answerable s) := by
  unfold checkChunk
  cases hadd : s.addChunk offset vec with
  | none =>
    refine Decides.aborts fun hlast => ?_
    obtain ⟨t, ht⟩ := exists_addChunk hvec (hlast.sized.trans hvec.symm) hlast.children
    rw [hadd] at ht
    cases ht
  | some t =>
    obtain ⟨c, rfl, hsized, hcount, hne⟩ := addChunk_inv hadd
    show Decides (if _ then _ else _) _
    rw [chunk_setChunk_self]
    split
    · rename_i hfull
      have hgroup : s.cGroup.length < 256 := by
        have : c.count = s.cGroup.length := hfull
        omega
      refine (Decides.require_endless _).congr
        ((isSome_avgEnd_iff past (s.setChunk offset c) _ hgroup).trans ?_)
      -- the round is complete when the other chunks count the group
      have hround : (s.setChunk offset c).roundComplete (s.setChunk offset c).vsize = true ↔
          LastOfRound s offset := by
        rw [roundComplete_iff (s.setChunk offset c) hgroup (List.length_pos_of_ne_nil (hne hfull))]
        constructor
        · intro h
          refine ⟨hsized.trans hvec, hne hfull, hcount ▸ hfull, fun i hi hio => ?_⟩
          rw [← chunk_setChunk_of_ne s offset _ c hio]
          exact h i hi
        · intro hlast i hi
          by_cases hio : i * k = offset
          · rw [hio, chunk_setChunk_self]
            exact hfull
          · rw [chunk_setChunk_of_ne s offset _ c hio]
            exact hlast.others i hi hio
      rw [hround]
      exact Iff.rfl
    · rename_i hopen
      exact Decides.ok _ fun hlast => absurd (hcount.trans hlast.counted) hopen

theorem decides_checkVector (buffer : List UInt8) (n : Nat) (hbuf : 807 ≤ buffer.length) :
    Decides (checkVector buffer n (zeros k)) (n / 8 ≤ k) := by
  have hk : k = 100 := rfl
  by_cases hn : n / 8 ≤ k
  · obtain ⟨v, hv, -⟩ := checkVector_ok buffer n hn (by omega)
    rw [hv]
    exact Decides.ok v hn
  · refine ⟨fun h => absurd h hn, fun _ => .inr (.inl ?_)⟩
    unfold checkVector
    rw [length_zeros, if_pos (by omega)]

theorem length_of_checkVector {buffer : List UInt8} {n : Nat} {vec v : List UInt64}
    (h : checkVector buffer n vec = .ok v) : v.length = vec.length := by
  have hv := congrArg Except.toOption h
  rw [toOption_checkVector] at hv
  unfold praseVector at hv
  split at hv
  · exact (length_of_foldlM_praseElement _ v hv).1
  · cases hv

/-- What a response has to declare, and what its node has to be able to answer. -/
structure HarmlessResponse (s : SimpleMPI) (buffer : List UInt8) : Prop where
  header : 14 ≤ word buffer 0
  value : word buffer 0 ≤ 821
  answer : LastOfRound s (word buffer 12) → (s.curIter + 1) % 65536 ≠ 0 → Answerable s

theorem decides_checkResponseV (past : UInt64) (s : SimpleMPI) (buffer : List UInt8)
    (hlen : BASESIZE * 2 ≤ buffer.length) (hkey : keyOf buffer = commands .RESPONSEV) :
    Decides (checkResponseV past s buffer) (HarmlessResponse s buffer) := by
  have hk : k = 100 := rfl
  have hbase : BASESIZE * 2 = 2048 := rfl
  have hkeylen : (keyOf buffer).length = 9 := by rw [hkey, length_commands_RESPONSEV]
  -- the key itself needs a length of 11
  have hword : 11 ≤ word buffer 0 := by
    have := length_keyOf buffer
    omega
  have hlt := word_lt buffer 0
  unfold checkResponseV
  rw [checkHeader_eq buffer (by omega), hkeylen, if_pos (by omega)]
  show Decides (if word buffer 0 ≠ 0 then (checkVector (buffer.drop 14)
    ((word buffer 0 + 65536 - 14) % 65536) (zeros k)).bind (checkChunk past s (word buffer 12))
    else _) _
  rw [if_pos (by omega)]
  have hvec := decides_checkVector (buffer.drop 14) ((word buffer 0 + 65536 - 14) % 65536)
    (by rw [List.length_drop]; omega)
  refine (hvec.bind fun v hv => decides_checkChunk past s (word buffer 12) v
    ((length_of_checkVector hv).trans (length_zeros k))).congr ⟨fun ⟨hn, hall⟩ => ?_, fun h => ?_⟩
  · obtain ⟨v, hv, -⟩ := checkVector_ok (buffer.drop 14) _ hn (by rw [List.length_drop]; omega)
    exact ⟨by omega, by omega, hall v hv⟩
  · have := h.header
    have := h.value
    exact ⟨by omega, fun _ _ => h.answer⟩

/-- What a request has to ask for. -/
structure HarmlessRequest (s : SimpleMPI) (buffer : List UInt8) : Prop where
  group : s.cGroup.length < 256
  size : s.cGroup = [] → word buffer 13 ≤ 65532

theorem decides_checkRequestV (past : UInt64) (randVec : Nat → List UInt64) (s : SimpleMPI)
    (fromStr : Address) (buffer : List UInt8) (hrand : ∀ size, (randVec size).length = size)
    (hlen : BASESIZE * 2 ≤ buffer.length) (hkey : keyOf buffer = commands .REQUESTV) :
    Decides (checkRequestV past randVec s fromStr buffer) (HarmlessRequest s buffer) := by
  have hbase : BASESIZE * 2 = 2048 := rfl
  have hkeylen : (keyOf buffer).length = 8 := by rw [hkey, length_commands_REQUESTV]
  have hsize : praseInt16 (buffer.drop 13) = some (word buffer 13) := by
    unfold praseInt16 load word
    rw [if_pos (by rw [List.length_drop]; omega)]
    rfl
  have hlt := word_lt buffer 13
  unfold checkRequestV
  rw [checkHeader_eq buffer (by omega), hkeylen, if_pos (by omega)]
  show Decides ((require .valueRead (praseInt16 (buffer.drop 13))).bind _) _
  rw [hsize]
  let t : SimpleMPI := { s with vsize := word buffer 13, avg := zeros (word buffer 13) }
  have hrequests : (t.sendRequestVToAll (word buffer 13)).isSome = true ↔ s.cGroup.length < 256 :=
    isSome_sendRequestVToAll_iff t _
  have hanswer : (sendResponseVTo past fromStr (randVec (word buffer 13))).isSome = true ↔
      word buffer 13 ≤ 65532 := by
    rw [isSome_sendResponseVTo_iff, hrand, Nat.mod_eq_of_lt hlt]
  refine ((Decides.require_endless _).bind (q := fun _ => s.cGroup = [] → word buffer 13 ≤ 65532)
    fun requests _ => ?_).congr
      ⟨fun ⟨hgroup, hall⟩ => ?_, fun h => ⟨hrequests.2 h.group, fun _ _ => h.size⟩⟩
  · by_cases hleaf : s.cGroup = []
    · rw [if_pos (by exact List.length_eq_zero_iff.2 hleaf)]
      exact ((Decides.require_endless _).bind fun answers _ => Decides.ok _ trivial).congr
        ⟨fun h _ => hanswer.1 h.1, fun h => ⟨hanswer.2 (h hleaf), fun _ _ => trivial⟩⟩
    · rw [if_neg (by exact mt List.length_eq_zero_iff.1 hleaf)]
      exact Decides.ok _ fun h => absurd h hleaf
  · obtain ⟨requests, hsome⟩ := Option.isSome_iff_exists.1 hgroup
    refine ⟨hrequests.1 hgroup, hall requests ?_⟩
    rw [hsome]
    rfl

/-- **What a message may be** at a node in state `s`, in the buffer it was read to. -/
structure Harmless (s : SimpleMPI) (buffer : List UInt8) : Prop where
  header : (keyOf buffer).length + 5 ≤ buffer.length
  response : keyOf buffer = commands .RESPONSEV → HarmlessResponse s buffer
  request : keyOf buffer = commands .REQUESTV → HarmlessRequest s buffer

namespace World

variable (env : Env) (past : Nat → UInt64) (a peer : Address)

def checkRequest (w : World) (buffer : List UInt8) : Except Fault World :=
  let r := w.requests a
  (checkRequestV (past (w.link peer a).handled.length)
    (fun size => env.vector a r size (w.node a).rank) (w.node a) peer buffer).map
      ({ w.log peer a r buffer with requests := Function.update w.requests a (r + 1) }.perform env a)

def checkResponse (w : World) (buffer : List UInt8) : Except Fault World :=
  (checkResponseV (past (w.link peer a).handled.length) (w.node a) buffer).map
    ((w.log peer a ((w.node a).curIter + 1) buffer).perform env a)

/-- `func_map` as `SetupMPI` fills it. -/
def checkMap : CheckMap World := fun key =>
  if key = commands .REQUESTV then some (checkRequest env past a peer)
  else if key = commands .RESPONSEV then some (checkResponse env past a peer)
  else none

theorem toOption_checkRequest (w : World) (buffer : List UInt8) :
    (checkRequest env past a peer w buffer).toOption = onRequest env past a peer w buffer := by
  unfold checkRequest onRequest
  dsimp only
  rw [toOption_map, toOption_checkRequestV]

theorem toOption_checkResponse (w : World) (buffer : List UInt8) :
    (checkResponse env past a peer w buffer).toOption = onResponse env past a peer w buffer := by
  unfold checkResponse onResponse
  rw [toOption_map, toOption_checkResponseV]

theorem toFuncMap_checkMap : (checkMap env past a peer).toFuncMap = funcMap env past a peer := by
  funext key
  unfold CheckMap.toFuncMap checkMap funcMap
  split
  · exact congrArg some (funext fun w => funext fun buffer =>
      toOption_checkRequest _ _ _ _ w buffer)
  · split
    · exact congrArg some (funext fun w => funext fun buffer =>
        toOption_checkResponse _ _ _ _ w buffer)
    · rfl

theorem decides_checkDispatch (w : World) (buffer : List UInt8)
    (hlen : BASESIZE * 2 ≤ buffer.length) :
    Decides (checkDispatch (checkMap env past a peer) w buffer) (Harmless (w.node a) buffer) := by
  have hbase : BASESIZE * 2 = 2048 := rfl
  unfold checkDispatch
  rw [checkHeader_eq buffer (by omega)]
  by_cases hin : (keyOf buffer).length + 5 ≤ buffer.length
  · rw [if_pos hin]
    dsimp only [Except.bind]
    unfold checkMap
    by_cases hreq : keyOf buffer = commands .REQUESTV
    · rw [if_pos hreq]
      have hcheck := decides_checkRequestV (past (w.link peer a).handled.length)
        (fun size => env.vector a (w.requests a) size (w.node a).rank) (w.node a) peer buffer
        (fun size => length_genetrateRandomVector _ _ _ _) hlen hreq
      exact (hcheck.map _).congr
        ⟨fun h => ⟨hin, fun hresp => absurd (hreq.symm.trans hresp) commands_ne, fun _ => h⟩,
          fun h => h.request hreq⟩
    · rw [if_neg hreq]
      by_cases hresp : keyOf buffer = commands .RESPONSEV
      · rw [if_pos hresp]
        have hcheck := decides_checkResponseV (past (w.link peer a).handled.length) (w.node a) buffer
          hlen hresp
        exact (hcheck.map _).congr ⟨fun h => ⟨hin, fun _ => h, fun h => absurd h hreq⟩,
          fun h => h.response hresp⟩
      · rw [if_neg hresp]
        exact Decides.ok w ⟨hin, fun h => absurd h hresp, fun h => absurd h hreq⟩
  · rw [if_neg hin]
    exact ⟨fun h => absurd h.header hin, fun _ => .inl rfl⟩

end World

/-! ## A call -/

/-- The message buffers the loop fills, whatever is done with them. -/
def messagesFrom (heap : Nat → Nat → UInt8) : Nat → Nat → Nat → CircularBuffer → List (List UInt8)
  | 0, _, _, _ => []
  | fuel + 1, dataLen, bufferSize, ring =>
    if dataLen ≤ bufferSize ∧ 0 < dataLen then
      let (buffer, ring) := takeMessage (heap fuel) dataLen ring
      let bufferSize := ring.getSize % 65536
      buffer ::
        if bufferSize ≤ 2 then []
        else
          match ring.getHeadUint16 with
          | some dataLen => messagesFrom heap fuel dataLen bufferSize ring
          | none => []
    else []

/-- **The messages a call cuts out of a ring.** -/
def messages (heap : Nat → Nat → UInt8) (ring : CircularBuffer) : List (List UInt8) :=
  let bufferSize := ring.getSize % 65536
  match if 2 < bufferSize then ring.getHeadUint16 else some 0 with
  | some dataLen => messagesFrom heap (bufferSize + 1) dataLen bufferSize ring
  | none => []

/-- A message buffer has room for the bytes that are read, and two kilobytes at least. -/
theorem length_takeMessage (heap : Nat → UInt8) (dataLen : Nat) (ring : CircularBuffer) :
    BASESIZE * 2 ≤ (takeMessage heap dataLen ring).1.length := by
  unfold takeMessage
  dsimp only
  rw [List.length_append, List.length_map, List.length_range]
  split <;> omega

theorem size_takeMessage (heap : Nat → UInt8) (dataLen : Nat) (ring : CircularBuffer)
    (hle : dataLen ≤ ring.size) : (takeMessage heap dataLen ring).2.size = ring.size - dataLen := by
  show ring.size - (if ring.size < dataLen then ring.size else dataLen) = _
  rw [if_neg (by omega)]

theorem checkDispatch_eq_ok {σ : Type} (map : CheckMap σ) (s : σ) (buffer : List UInt8) (t : σ) :
    checkDispatch map s buffer = .ok t ↔ dispatch map.toFuncMap s buffer = some t := by
  rw [← toOption_checkDispatch]
  cases checkDispatch map s buffer <;> simp [Except.toOption]

section
variable {σ : Type} {map : CheckMap σ} {G : σ → List UInt8 → Prop}
  (hmessage : ∀ s buffer, BASESIZE * 2 ≤ buffer.length →
    Decides (checkDispatch map s buffer) (G s buffer))

include hmessage in
/-- A pass takes at least one byte, so the passes do not outnumber the bytes; each of them
is decided by its message. -/
theorem decides_checkLoop (heap : Nat → Nat → UInt8) (fuel : Nat) : ∀ dataLen bufferSize ring s,
    bufferSize = ring.getSize % 65536 → bufferSize < fuel →
      Decides (checkLoop map heap fuel dataLen bufferSize ring s)
        (Guarded (dispatch map.toFuncMap) G s (messagesFrom heap fuel dataLen bufferSize ring)) := by
  induction fuel with
  | zero =>
    intro dataLen bufferSize ring s _ hlt
    exact absurd hlt (Nat.not_lt_zero _)
  | succ fuel ih =>
    intro dataLen bufferSize ring s hsize hlt
    rw [checkLoop, messagesFrom]
    split
    · rename_i hin
      have hbytes : bufferSize ≤ ring.size := hsize ▸ Nat.mod_le _ _
      have hlen := length_takeMessage (heap fuel) dataLen ring
      have hrest := size_takeMessage (heap fuel) dataLen ring (by omega)
      generalize takeMessage (heap fuel) dataLen ring = taken at hlen hrest
      obtain ⟨buffer, rest⟩ := taken
      dsimp only at hlen hrest ⊢
      have hless : rest.getSize % 65536 < fuel := by
        have hring : ring.getSize = ring.size := rfl
        have hget : rest.getSize = rest.size := rfl
        omega
      refine ((hmessage s buffer hlen).bind fun t _ => ?_).congr (and_congr_right fun _ =>
        forall_congr' fun t => imp_congr_left (checkDispatch_eq_ok map s buffer t))
      by_cases hshort : rest.getSize % 65536 ≤ 2
      · rw [if_pos hshort, if_pos hshort]
        exact Decides.ok _ trivial
      · rw [if_neg hshort, if_neg hshort]
        cases rest.getHeadUint16 with
        | none => exact Decides.aborts trivial
        | some dataLen => exact ih dataLen _ rest t rfl hless
    · exact Decides.ok _ trivial

include hmessage in
theorem decides_checkReceive (heap : Nat → Nat → UInt8) (ring : CircularBuffer) (s : σ) :
    Decides (checkReceive map heap ring s)
      (Guarded (dispatch map.toFuncMap) G s (messages heap ring)) := by
  have hhead : (if 2 < ring.getSize % 65536 then require .aborts ring.getHeadUint16 else .ok 0) =
      require .aborts (if 2 < ring.getSize % 65536 then ring.getHeadUint16 else some 0) := by
    split <;> rfl
  unfold checkReceive messages
  dsimp only
  rw [hhead]
  cases (if 2 < ring.getSize % 65536 then ring.getHeadUint16 else some 0) with
  | none => exact Decides.aborts trivial
  | some dataLen =>
    exact decides_checkLoop hmessage heap _ dataLen _ ring s rfl (Nat.lt_succ_self _)

end

namespace World

section
variable (env : Env) (past : Nat → UInt64) (a peer : Address) (heap : Nat → Nat → UInt8)
  (ring : CircularBuffer) (w : World)

theorem toOption_receive : (checkReceive (checkMap env past a peer) heap ring w).toOption =
    receiveDataFrom (funcMap env past a peer) heap ring w := by
  rw [toOption_checkReceive, toFuncMap_checkMap]

/-- Each message of the call is harmless for the node it meets. -/
def AllHarmless : Prop :=
  Guarded (dispatch (funcMap env past a peer)) (fun w buffer => Harmless (w.node a) buffer) w
    (messages heap ring)

theorem decides_receive : Decides (checkReceive (checkMap env past a peer) heap ring w)
    (AllHarmless env past a peer heap ring w) := by
  have h := decides_checkReceive (decides_checkDispatch env past a peer) heap ring w
  rw [toFuncMap_checkMap] at h
  exact h

/-- **On which bytes a call is safe.**  The parsers of the values never read behind a message
buffer. -/
theorem receive_safe_iff :
    (Safe (checkReceive (checkMap env past a peer) heap ring w) ↔
      AllHarmless env past a peer heap ring w) ∧
    checkReceive (checkMap env past a peer) heap ring w ≠ .error .valueRead :=
  ⟨(decides_receive env past a peer heap ring w).safe_iff,
    (decides_receive env past a peer heap ring w).ne_valueRead⟩

end

/-- The command word of a response, and no more: `dataLen - headerOff` is 65533. -/
theorem receive_unsafe : ∃ apps,
    createAggTree (addressesOf chainAddr chain) 1 100 1234 chainGroups 3 "con0" [] 0 = some apps ∧
    ¬ ∀ data ring, (CircularBuffer.new fun _ => 0).write data = some ring →
      Safe (checkReceive (checkMap chainEnv (fun _ => 0) 2 3) (fun _ _ => 0) ring
        (World.init chainAddr (fun _ => 0) (fun _ _ _ => 0) apps)) := by
  have hrun : ((createAggTree (addressesOf chainAddr chain) 1 100 1234 chainGroups 3 "con0" []
      0).bind fun apps =>
      ((CircularBuffer.new fun _ => 0).write (leBytes 2 11 ++ commands .RESPONSEV)).bind fun ring =>
        match checkReceive (checkMap chainEnv (fun _ => 0) 2 3) (fun _ _ => 0) ring
          (World.init chainAddr (fun _ => 0) (fun _ _ _ => 0) apps) with
        | .error fault => some fault
        | .ok _ => none) = some .vectorStore := by decide +kernel
  obtain ⟨apps, happs, hrun⟩ := Option.bind_eq_some_iff.1 hrun
  obtain ⟨ring, hring, hrun⟩ := Option.bind_eq_some_iff.1 hrun
  refine ⟨apps, happs, fun hall => (hall _ ring hring).vector ?_⟩
  split at hrun
  · cases hrun
    assumption
  · cases hrun

end World

end InNetworkAgg
