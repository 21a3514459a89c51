import InNetworkAgg.VectorOp
import InNetworkAgg.Lib.Counter

/-!
# `SimpleMPI` (innetwork-train/model/simple-MPI/simpleMPI.cc)

The state machine every node of the tree runs: consumer, aggregators and
producers differ only in their groups, `asEnd` and `maxIteration`.  A handler
takes the state and a message buffer to the next state and the list of what it
does to the outside (`Effect`), in order.  It has no result where the C++ fails an
assertion, leaves an allocation or never returns.

One store behind an allocation is not among these.  `WriteChunk2Vec` copies whole
chunks, so it overruns the heap when `vsize` is not a multiple of `k`, which with
`main` means 1 to 99 (64 among them, where large sizes wrap).  `writeChunk2Vec`
leaves these stores out and goes on: for such a size the runs below are those of a
program that survives them.

`HandleResponseV` is cut in three: the parse, `addChunk` (sum, count, average)
and `AvgEnd`.
-/

namespace InNetworkAgg

open LittleEndian

/-- The IPv4 address of a node; `Addr2Str` is injective on addresses, so the
address itself is the key of `socketPool`. -/
abbrev Address := Nat

/-- struct data chunk -/
structure MyChunk where
  /-- count the producer, a `uint8_t` -/
  count : Nat
  data : List UInt64
deriving DecidableEq, Repr

def MyChunk.new : MyChunk := { count := 0, data := zeros k }

/-- What a handler does outside its own object. -/
inductive Effect where
  /-- `socketPool[toStr]->Send` -/
  | send (toStr : Address) (packet : List UInt8)
  /-- the vector written in the completion branch of `AVG` -/
  | answer (avg : List UInt64)
  /-- the log line "start a new request" of `AVG` -/
  | newRequest
  /-- `Simulator::Stop` -/
  | stop
deriving DecidableEq, Repr

structure SimpleMPI where
  asEnd : Bool
  rank : Nat
  vsize : Nat
  curIter : Nat
  maxIteration : Nat
  avg : List UInt64
  cGroup : List Address
  sGroup : List Address
  chunkMap : Nat → Option MyChunk

/-- `size / k + (size % k != 0)` -/
def chunkCount (size : Nat) : Nat := size / k + if size % k ≠ 0 then 1 else 0

namespace SimpleMPI

/-! ## Set-up -/

/-- A new object: `vsize` (and the members `SetupMPI` sets) hold what was in memory. -/
def fresh (vsize : Nat) : SimpleMPI :=
  { asEnd := false, rank := 0, vsize := vsize, curIter := 0, maxIteration := 0, avg := [],
    cGroup := [], sGroup := [], chunkMap := fun _ => none }

def setupMPI (s : SimpleMPI) (itr rank : Nat) (sGroup cGroup : List Address) (asEnd : Bool) :
    SimpleMPI :=
  { s with
    asEnd := asEnd
    maxIteration := itr
    curIter := 0
    rank := rank
    sGroup := deepVectorCopy s.sGroup sGroup
    cGroup := deepVectorCopy s.cGroup cGroup }

def setVSize (s : SimpleMPI) (size : Nat) : SimpleMPI :=
  { s with vsize := size, avg := zeros size }

/-- The keys of `socketPool` after `CreateSocketPool`. -/
def socketPool (s : SimpleMPI) : List Address := s.sGroup ++ s.cGroup

/-! ## Sending -/

def sendRequestVTo (toStr : Address) (size : Nat) : Effect :=
  let (buffer, bufferSize) := createRequestV (commands .REQUESTV) size
  .send toStr (buffer.take bufferSize)

/-- `SendRequestVToAll`; the index is a `uint8_t`. -/
def sendRequestVToAll (s : SimpleMPI) (size : Nat) : Option (List Effect) := do
  let indices ← Counter.passes 256 1 s.cGroup.length
  some (indices.map fun i => sendRequestVTo (s.cGroup.getD i 0) size)

/-- One pass of the loop of `SendResponseVTo`: the packet for the chunk at `pos`,
out of a zeroed buffer of `BASESIZE * 2` bytes. -/
def responsePacket (past : UInt64) (vec : List UInt64) (pos : Nat) : Option (List UInt8) :=
  let (bytes, bufferSize) := creatResponseV past (commands .RESPONSEV) vec pos
  let bufferV := bytes ++ List.replicate (BASESIZE * 2 - bytes.length) 0
  if bufferSize ≠ 0 then some (bufferV.take bufferSize) else none

/-- `SendResponseVTo`; `pos` and `end` are `uint16_t`. -/
def sendResponseVTo (past : UInt64) (toStr : Address) (vec : List UInt64) :
    Option (List Effect) := do
  let positions ← Counter.passes 65536 k (vec.length % 65536)
  let packets ← positions.mapM (responsePacket past vec)
  some (packets.map (.send toStr))

/-- `SendResponseVToP`; the index is a `uint8_t`. -/
def sendResponseVToP (past : UInt64) (s : SimpleMPI) : Option (List Effect) := do
  let indices ← Counter.passes 256 1 s.sGroup.length
  let sends ← indices.mapM fun i => sendResponseVTo past (s.sGroup.getD i 0) s.avg
  some sends.flatten

/-! ## The chunk map -/

/-- `chunkMap[offset]` as a value: an absent entry reads as a new chunk. -/
def chunk (s : SimpleMPI) (offset : Nat) : MyChunk := (s.chunkMap offset).getD .new

def setChunk (s : SimpleMPI) (offset : Nat) (c : MyChunk) : SimpleMPI :=
  { s with chunkMap := Function.update s.chunkMap offset (some c) }

/-- The number of chunks `AvgEnd` and `WriteChunk2Vec` go over, a `uint8_t`. -/
def range (size : Nat) : Nat := chunkCount size % 256

def clearChunkMap (s : SimpleMPI) : SimpleMPI :=
  { s with chunkMap := fun o => (s.chunkMap o).map fun _ => { count := 0, data := zeros k } }

/-- The stores of `WriteChunk2Vec`, in order: index and value. -/
def chunkStores (s : SimpleMPI) (size : Nat) : List (Nat × UInt64) :=
  (List.range (range size)).flatMap fun i =>
    (s.chunk (i * k)).data.mapIdx fun j x => (i * k + j, x)

/-- `WriteChunk2Vec`.  `operator[]` creates the entries that were absent.  A store behind the end
of the vector (in `chunkStores` with an index of at least its length) is undefined in the C++; here
it changes no element and the handler goes on. -/
def writeChunk2Vec (s : SimpleMPI) (size : Nat) : SimpleMPI :=
  let offsets := (List.range (range size)).map (· * k)
  { s with
    avg := (s.chunkStores size).foldl (fun vec st => vec.set st.1 st.2) s.avg
    chunkMap := fun o => if o ∈ offsets then some (s.chunk o) else s.chunkMap o }

/-! ## One round -/

/-- `AVG` -/
def doAVG (past : UInt64) (s : SimpleMPI) : Option (SimpleMPI × List Effect) :=
  if s.asEnd then do
    let s := { s with asEnd := false }
    let (s, answers) ←
      if 0 < s.curIter then do
        let s := s.writeChunk2Vec s.vsize
        let sends ← sendResponseVToP past s
        some (s.clearChunkMap, .answer s.avg :: sends)
      else some (s, [])
    let stops := if s.maxIteration ≤ s.curIter then [.stop] else []
    let requests ←
      if s.curIter < s.maxIteration then (s.sendRequestVToAll s.vsize).map (.newRequest :: ·)
      else some []
    some (s, answers ++ stops ++ requests)
  else some (s, [])

/-- The test of `AvgEnd`: every entry is there and counts the whole group. -/
def roundComplete (s : SimpleMPI) (size : Nat) : Bool :=
  (List.range (range size)).all fun i =>
    match s.chunkMap (i * k) with
    | none => false
    | some c => c.count == s.cGroup.length % 256

/-- `AvgEnd` -/
def avgEnd (past : UInt64) (s : SimpleMPI) (size : Nat) : Option (SimpleMPI × List Effect) :=
  let res := s.roundComplete size
  doAVG past { s with
    asEnd := res
    curIter := if res then (s.curIter + 1) % 65536 else s.curIter }

/-- The part of `HandleResponseV` before `AvgEnd`: the vector is added to its
chunk, and the chunk is averaged when it counts the whole group. -/
def addChunk (s : SimpleMPI) (offset : Nat) (vec : List UInt64) : Option SimpleMPI := do
  let c := s.chunk offset
  if c.data.length = vec.length then
    let data := sumVector c.data c.data vec
    let count := (c.count + 1) % 256
    let data ← if count = s.cGroup.length then avgVector data count else some data
    some (s.setChunk offset { count := count, data := data })
  else none

/-- `HandleResponseV` on the parsed message. -/
def receiveChunk (past : UInt64) (s : SimpleMPI) (offset : Nat) (vec : List UInt64) :
    Option (SimpleMPI × List Effect) := do
  let s ← s.addChunk offset vec
  if (s.chunk offset).count = s.cGroup.length then s.avgEnd past s.vsize else some (s, [])

def handleResponseV (past : UInt64) (s : SimpleMPI) (buffer : List UInt8) :
    Option (SimpleMPI × List Effect) := do
  let h ← praseHeader buffer
  if h.dataLen ≠ 0 then
    let vec ← praseVector (buffer.drop h.cursor) ((h.dataLen + 65536 - h.cursor) % 65536) (zeros k)
    receiveChunk past s h.offset vec
  else none

/-- `HandleRequestV`; `randVec size` is what `GenetrateRandomVector` would fill a
vector of that size with in this call. -/
def handleRequestV (past : UInt64) (randVec : Nat → List UInt64) (s : SimpleMPI)
    (fromStr : Address) (buffer : List UInt8) : Option (SimpleMPI × List Effect) := do
  let h ← praseHeader buffer
  let size ← praseInt16 (buffer.drop h.cursor)
  let s := { s with vsize := size, avg := zeros size }
  let requests ← s.sendRequestVToAll size
  let answers ← if s.cGroup.length = 0 then sendResponseVTo past fromStr (randVec size) else some []
  some (s, requests ++ answers)

end SimpleMPI

end InNetworkAgg
