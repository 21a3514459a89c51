import InNetworkAgg.ResponseLoop
import InNetworkAgg.Stops

/-!
# `ReceiveDataFrom` with reasons

`checkReceive` is `receiveDataFrom` with the reason where that has no result
(`toOption_checkReceive`); a call is `Safe` when it ends, `PraseHeader` reads inside
the message buffer and `PraseVector` stores inside its vector.
-/

namespace InNetworkAgg

open LittleEndian PartialRun SimpleMPI

/-! ## Reasons -/

inductive Fault where
  /-- `PraseHeader` reads behind the message buffer -/
  | headerRead
  /-- `PraseVector` or `PraseInt16` does -/
  | valueRead
  /-- `PraseVector` stores behind the vector it was given -/
  | vectorStore
  /-- a loop does not end -/
  | endless
  /-- an assertion fails, or an integer is divided by zero: the program ends -/
  | aborts
deriving DecidableEq, Repr

/-- What has to be there, and what it means when it is not. -/
def require {α : Type} (fault : Fault) : Option α → Except Fault α
  | some x => .ok x
  | none => .error fault

/-- The call ends, `PraseHeader` reads and `PraseVector` stores in place. -/
structure Safe {α : Type} (r : Except Fault α) : Prop where
  header : r ≠ .error .headerRead
  vector : r ≠ .error .vectorStore
  ends : r ≠ .error .endless

/-! ## The functions, with reasons -/

def checkHeader (buffer : List UInt8) : Except Fault Header :=
  require .headerRead (praseHeader buffer)

/-- With more elements than the vector has, some store is behind it, whatever is read. -/
def checkVector (buffer : List UInt8) (bufferSize : Nat) (vec : List UInt64) :
    Except Fault (List UInt64) :=
  if vec.length < bufferSize / 8 then .error .vectorStore
  else require .valueRead (praseVector buffer bufferSize vec)

/-- `receiveChunk`: the additions end, `AvgEnd` has loops of its own. -/
def checkChunk (past : UInt64) (s : SimpleMPI) (offset : Nat) (vec : List UInt64) :
    Except Fault (SimpleMPI × List Effect) :=
  (require .aborts (s.addChunk offset vec)).bind fun s =>
    if (s.chunk offset).count = s.cGroup.length then require .endless (s.avgEnd past s.vsize)
    else .ok (s, [])

def checkResponseV (past : UInt64) (s : SimpleMPI) (buffer : List UInt8) :
    Except Fault (SimpleMPI × List Effect) :=
  (checkHeader buffer).bind fun h =>
    if h.dataLen ≠ 0 then
      (checkVector (buffer.drop h.cursor) ((h.dataLen + 65536 - h.cursor) % 65536) (zeros k)).bind
        (checkChunk past s h.offset)
    else .error .aborts

def checkRequestV (past : UInt64) (randVec : Nat → List UInt64) (s : SimpleMPI)
    (fromStr : Address) (buffer : List UInt8) : Except Fault (SimpleMPI × List Effect) :=
  (checkHeader buffer).bind fun h =>
    (require .valueRead (praseInt16 (buffer.drop h.cursor))).bind fun size =>
      let s := { s with vsize := size, avg := zeros size }
      (require .endless (s.sendRequestVToAll size)).bind fun requests =>
        (if s.cGroup.length = 0 then require .endless (sendResponseVTo past fromStr (randVec size))
          else .ok []).bind fun answers => .ok (s, requests ++ answers)

section
variable {σ : Type}

/-- `func_map` -/
abbrev CheckMap (σ : Type) := Key → Option (σ → List UInt8 → Except Fault σ)

def checkDispatch (map : CheckMap σ) (s : σ) (buffer : List UInt8) : Except Fault σ :=
  (checkHeader buffer).bind fun h =>
    match map h.key with
    | some f => f s buffer
    | none => .ok s

/-- The message buffer of a pass, and the ring after the read. -/
def takeMessage (heap : Nat → UInt8) (dataLen : Nat) (ring : CircularBuffer) :
    List UInt8 × CircularBuffer :=
  let bs := if BASESIZE * 2 < dataLen then dataLen else BASESIZE * 2
  let (bytes, ring) := ring.read dataLen
  (bytes ++ (List.range (bs - bytes.length)).map heap, ring)

def checkLoop (map : CheckMap σ) (heap : Nat → Nat → UInt8) :
    Nat → Nat → Nat → CircularBuffer → σ → Except Fault (CircularBuffer × σ)
  | 0, _, _, _, _ => .error .endless
  | fuel + 1, dataLen, bufferSize, ring, s =>
    if dataLen ≤ bufferSize ∧ 0 < dataLen then
      let (buffer, ring) := takeMessage (heap fuel) dataLen ring
      (checkDispatch map s buffer).bind fun s =>
        let bufferSize := ring.getSize % 65536
        if bufferSize ≤ 2 then .ok (ring, s)
        else (require .aborts ring.getHeadUint16).bind fun dataLen =>
          checkLoop map heap fuel dataLen bufferSize ring s
    else .ok (ring, s)

def checkReceive (map : CheckMap σ) (heap : Nat → Nat → UInt8) (ring : CircularBuffer) (s : σ) :
    Except Fault (CircularBuffer × σ) :=
  let bufferSize := ring.getSize % 65536
  (if 2 < bufferSize then require .aborts ring.getHeadUint16 else .ok 0).bind fun dataLen =>
    checkLoop map heap (bufferSize + 1) dataLen bufferSize ring s

end

/-! ## They are the functions of the model -/

@[simp] theorem toOption_require {α : Type} (fault : Fault) (x : Option α) :
    (require fault x).toOption = x := by
  cases x <;> rfl

@[simp] theorem toOption_bind {α β : Type} (x : Except Fault α) (f : α → Except Fault β) :
    (x.bind f).toOption = x.toOption.bind fun a => (f a).toOption := by
  cases x <;> rfl

@[simp] theorem toOption_map {α β : Type} (x : Except Fault α) (f : α → β) :
    (x.map f).toOption = x.toOption.map f := by
  cases x <;> rfl

/-- Every pass of `PraseVector` that is made stores inside the vector. -/
theorem length_of_foldlM_praseElement {buffer : List UInt8} {vec : List UInt64} (n : Nat) :
    ∀ v, (List.range n).foldlM (praseElement buffer) vec = some v →
      v.length = vec.length ∧ n ≤ vec.length := by
  induction n with
  | zero =>
    intro v h
    cases h
    exact ⟨rfl, Nat.zero_le _⟩
  | succ n ih =>
    intro v h
    rw [List.range_succ, List.foldlM_append] at h
    obtain ⟨w, hw, h⟩ := Option.bind_eq_some_iff.1 h
    obtain ⟨hlen, -⟩ := ih w hw
    rw [List.foldlM_cons] at h
    obtain ⟨u, hu, h⟩ := Option.bind_eq_some_iff.1 h
    cases h
    unfold praseElement at hu
    obtain ⟨ele, -, hu⟩ := Option.bind_eq_some_iff.1 hu
    split at hu
    · cases hu
      rw [List.length_set]
      omega
    · cases hu

@[simp] theorem toOption_checkVector (buffer : List UInt8) (bufferSize : Nat) (vec : List UInt64) :
    (checkVector buffer bufferSize vec).toOption = praseVector buffer bufferSize vec := by
  unfold checkVector
  split
  · rename_i hlt
    show none = praseVector buffer bufferSize vec
    cases hv : praseVector buffer bufferSize vec with
    | none => rfl
    | some v =>
      unfold praseVector at hv
      split at hv
      · have := (length_of_foldlM_praseElement _ v hv).2
        omega
      · cases hv
  · exact toOption_require _ _

theorem toOption_checkChunk (past : UInt64) (s : SimpleMPI) (offset : Nat) (vec : List UInt64) :
    (checkChunk past s offset vec).toOption = receiveChunk past s offset vec := by
  unfold checkChunk receiveChunk
  rw [toOption_bind, toOption_require]
  apply Option.bind_congr
  intro t _
  split
  · exact toOption_require _ _
  · rfl

theorem toOption_checkResponseV (past : UInt64) (s : SimpleMPI) (buffer : List UInt8) :
    (checkResponseV past s buffer).toOption = handleResponseV past s buffer := by
  unfold checkResponseV handleResponseV checkHeader
  rw [toOption_bind, toOption_require]
  apply Option.bind_congr
  intro h _
  split
  · rw [toOption_bind, toOption_checkVector]
    apply Option.bind_congr
    intro vec _
    exact toOption_checkChunk _ _ _ _
  · rfl

theorem toOption_checkRequestV (past : UInt64) (randVec : Nat → List UInt64) (s : SimpleMPI)
    (fromStr : Address) (buffer : List UInt8) :
    (checkRequestV past randVec s fromStr buffer).toOption =
      handleRequestV past randVec s fromStr buffer := by
  unfold checkRequestV handleRequestV checkHeader
  rw [toOption_bind, toOption_require]
  apply Option.bind_congr
  intro h _
  rw [toOption_bind, toOption_require]
  apply Option.bind_congr
  intro size _
  dsimp only
  rw [toOption_bind, toOption_require]
  apply Option.bind_congr
  intro requests _
  rw [toOption_bind]
  split
  · rw [toOption_require]
    rfl
  · rfl

section
variable {σ : Type} (map : CheckMap σ) (heap : Nat → Nat → UInt8)

/-- The functions without the reasons. -/
def CheckMap.toFuncMap : FuncMap σ := fun key =>
  (map key).map fun f s buffer => (f s buffer).toOption

theorem toOption_checkDispatch (s : σ) (buffer : List UInt8) :
    (checkDispatch map s buffer).toOption = dispatch map.toFuncMap s buffer := by
  unfold checkDispatch dispatch checkHeader CheckMap.toFuncMap
  rw [toOption_bind, toOption_require]
  apply Option.bind_congr
  intro h _
  cases map h.key <;> rfl

theorem toOption_checkLoop (fuel : Nat) : ∀ dataLen bufferSize ring s,
    (checkLoop map heap fuel dataLen bufferSize ring s).toOption =
      receiveLoop map.toFuncMap heap fuel dataLen bufferSize ring s := by
  induction fuel with
  | zero => exact fun _ _ _ _ => rfl
  | succ fuel ih =>
    intro dataLen bufferSize ring s
    rw [checkLoop, receiveLoop]
    split
    · unfold takeMessage
      dsimp only
      rw [toOption_bind, toOption_checkDispatch]
      apply Option.bind_congr
      intro s' _
      split
      · rfl
      · rw [toOption_bind, toOption_require]
        apply Option.bind_congr
        intro dataLen' _
        exact ih _ _ _ _
    · rfl

/-- With reasons or without, a call does the same. -/
theorem toOption_checkReceive (ring : CircularBuffer) (s : σ) :
    (checkReceive map heap ring s).toOption = receiveDataFrom map.toFuncMap heap ring s := by
  unfold checkReceive receiveDataFrom
  dsimp only
  rw [toOption_bind]
  split
  · rw [toOption_require]
    apply Option.bind_congr
    intro dataLen _
    exact toOption_checkLoop map heap _ _ _ _ _
  · exact toOption_checkLoop map heap (ring.getSize % 65536 + 1) 0 (ring.getSize % 65536) ring s

end

end InNetworkAgg
