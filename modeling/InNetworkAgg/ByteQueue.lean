import InNetworkAgg.CircularBuffer
import InNetworkAgg.Lib.Fifo

/-!
# Whole runs of the ring (quic/model/circularbuffer.cc)

Any sequence of `write` and `read` calls on the constructed buffer is one of the
same calls on a byte queue of its capacity:

    (runs call (new heap) ops).map queue = runs (Fifo.step 10240) empty ops       (runs_queue)

so what is read is what was written, in order.  The length word is read without
wrapping, which is right unless the number of bytes read so far is one short of a
lap:

    PeekExact ring  ↔  returned.length % 10240 ≠ 10239               (getHeadUint16_exact_iff)
-/

namespace InNetworkAgg

open LittleEndian PartialRun Fifo

namespace CircularBuffer

/-! ## Calls -/

/-- A ring and the bytes that all calls so far have written and returned. -/
structure Recorded where
  ring : CircularBuffer
  written : List UInt8
  returned : List UInt8

def Recorded.new (heap : Nat → UInt8) : Recorded :=
  { ring := .new heap, written := [], returned := [] }

def call (r : Recorded) : Op UInt8 → Option Recorded
  | .write data =>
    (r.ring.write data).map fun ring => { r with ring := ring, written := r.written ++ data }
  | .read n =>
    let (bytes, ring) := r.ring.read n
    some { r with ring := ring, returned := r.returned ++ bytes }

/-- The queue it stands for. -/
def Recorded.queue (r : Recorded) : Queue UInt8 :=
  { stored := r.ring.contents, written := r.written, returned := r.returned }

/-- What the calls keep: the read position is where the bytes read so far end. -/
structure Recorded.Inv (r : Recorded) : Prop where
  wf : r.ring.WF
  cap : r.ring.capacity = 10240
  pos : r.ring.readPos = r.returned.length % 10240

theorem Recorded.new_inv (heap : Nat → UInt8) : (Recorded.new heap).Inv := ⟨new_wf heap, rfl, rfl⟩

theorem call_inv (r : Recorded) (op : Op UInt8) (r' : Recorded) (hr : r.Inv)
    (h : call r op = some r') : r'.Inv := by
  cases op with
  | write data =>
    obtain ⟨ring, hring, rfl⟩ := Option.map_eq_some_iff.1 h
    obtain ⟨hwf, -, hpos, hcap⟩ := r.ring.write_inv hr.wf hring
    exact ⟨hwf, hcap.trans hr.cap, hpos.trans hr.pos⟩
  | read n =>
    cases h
    obtain ⟨hbytes, hwf, -, hpos, hcap⟩ := r.ring.read_spec n hr.wf
    refine ⟨hwf, hcap.trans hr.cap, ?_⟩
    show (r.ring.read n).2.readPos = (r.returned ++ (r.ring.read n).1).length % 10240
    rw [hpos, hr.cap, hr.pos, hbytes, List.length_append, List.length_take, length_contents,
      Nat.mod_add_mod]

/-- One call on the ring is one call on the queue. -/
theorem call_queue (r : Recorded) (op : Op UInt8) (hr : r.Inv) :
    (call r op).map Recorded.queue = Fifo.step 10240 r.queue op := by
  cases op with
  | write data =>
    have hlen : r.queue.stored.length = r.ring.size := length_contents r.ring
    rw [Fifo.step, hlen, ← hr.cap]
    by_cases hfit : data.length ≤ r.ring.capacity - r.ring.size
    · obtain ⟨c', hc', -, hcont, -, -⟩ := r.ring.write_spec data hr.wf hfit
      rw [if_pos hfit, call, hc']
      show some ({ stored := c'.contents, written := _, returned := _ } : Queue UInt8) = _
      rw [hcont]
      rfl
    · rw [if_neg hfit, call, write_eq_none hfit]
      rfl
  | read n =>
    obtain ⟨hbytes, -, hcont, -, -⟩ := r.ring.read_spec n hr.wf
    show some ({ stored := (r.ring.read n).2.contents, written := r.written
                 returned := r.returned ++ (r.ring.read n).1 } : Queue UInt8) = _
    rw [hcont, hbytes]
    rfl

/-- The ring refines the queue, over whole runs. -/
theorem runs_queue (heap : Nat → UInt8) (ops : List (Op UInt8)) :
    (runs call (.new heap) ops).map Recorded.queue = runs (Fifo.step 10240) .empty ops :=
  runs_map call_queue call_inv ops (.new heap) (Recorded.new_inv heap)

/-! ## Reads -/

/-- A ring as a byte queue: what its calls return, and where its positions are. -/
structure IsQueue (r : Recorded) : Prop where
  returned : r.returned <+: r.written
  stored : r.returned ++ r.ring.contents = r.written
  read : ∀ n, (r.ring.read n).1.length = min n r.ring.getSize
  size : r.ring.getSize = r.written.length - r.returned.length
  size_le : r.ring.size ≤ r.ring.capacity
  read_lt : r.ring.readPos < r.ring.capacity
  write_eq : r.ring.writePos = (r.ring.readPos + r.ring.size) % r.ring.capacity

/-- After any run the ring is well-formed, and what it holds is what the record says. -/
theorem runs_inv (heap : Nat → UInt8) {ops : List (Op UInt8)} {r : Recorded}
    (h : runs call (.new heap) ops = some r) : r.Inv ∧ r.queue.Ok 10240 := by
  have hqueue : runs (Fifo.step 10240) .empty ops = some r.queue := by
    rw [← runs_queue heap ops, h]
    rfl
  exact ⟨runs_invariant call_inv (Recorded.new_inv heap) h, runs_ok hqueue⟩

/-- **`CircularBuffer` is a byte queue**, in every state that its calls can lead to. -/
theorem circularBuffer_isQueue (heap : Nat → UInt8) (ops : List (Op UInt8)) :
    (runs call (.new heap) ops).map Recorded.queue = runs (Fifo.step 10240) .empty ops ∧
      ∀ r, runs call (.new heap) ops = some r → IsQueue r := by
  refine ⟨runs_queue heap ops, fun r h => ?_⟩
  obtain ⟨hinv, hok⟩ := runs_inv heap h
  have hsize := hok.length_stored
  obtain ⟨-, hsize_le, hread_lt, hwrite_eq⟩ := hinv.wf
  refine ⟨hok.returned_prefix, hok.history, fun n => ?_, ?_, hsize_le, hread_lt, hwrite_eq⟩
  · obtain ⟨hbytes, -⟩ := r.ring.read_spec n hinv.wf
    rw [hbytes, List.length_take, length_contents]
    rfl
  · rw [← length_contents] at hsize_le
    exact (length_contents r.ring).symm.trans hsize

/-- Two writes around a read that asks for more than there is. -/
theorem circularBuffer_isQueue_three : ∃ r,
    runs call (.new fun _ => 0) [.write [1, 2, 3], .read 5, .write [4]] = some r ∧ IsQueue r := by
  have hsome : (runs call (.new fun _ => 0) [.write [1, 2, 3], .read 5, .write [4]]).isSome =
      true := by decide +kernel
  obtain ⟨r, hr⟩ := Option.isSome_iff_exists.1 hsome
  exact ⟨r, hr, (circularBuffer_isQueue (fun _ => 0) _).2 r hr⟩

/-! ## The peek -/

/-- `getHeadUint16` stays inside the buffer and announces what `read` would deliver. -/
structure PeekExact (c : CircularBuffer) : Prop where
  inside : ∀ i < 2, c.readPos + i < c.capacity
  value : ∀ dataLen, c.getHeadUint16 = some dataLen → dataLen = leValue (c.read 2).1

/-- **When the peek is right**: in every state with two stored bytes, unless the bytes
read so far end one short of the end of the ring. -/
theorem getHeadUint16_exact_iff (heap : Nat → UInt8) (ops : List (Op UInt8)) (r : Recorded)
    (h : runs call (.new heap) ops = some r) (hsize : 2 ≤ r.ring.getSize) :
    PeekExact r.ring ↔ r.returned.length % 10240 ≠ 10239 := by
  obtain ⟨hinv, -⟩ := runs_inv heap h
  have hpos := hinv.pos
  have hcap := hinv.cap
  constructor
  · intro hpeek hlast
    have := hpeek.inside 1 (by decide)
    omega
  · intro hlast
    have hlt := hinv.wf.read_lt
    refine ⟨fun i hi => by omega, fun dataLen hpeek => ?_⟩
    obtain ⟨hbytes, -⟩ := r.ring.read_spec 2 hinv.wf
    have hhead := head_of_getHeadUint16 r.ring hsize (by omega) hpeek
    rw [hbytes, hhead]

theorem getHeadUint16_exact_iff_three : ∃ r,
    runs call (.new fun _ => 0) [.write [1, 2, 3], .read 1] = some r ∧
      (PeekExact r.ring ↔ r.returned.length % 10240 ≠ 10239) := by
  have hsome : ((runs call (.new fun _ => 0) [.write [1, 2, 3], .read 1]).any
      fun r => decide (2 ≤ r.ring.getSize)) = true := by decide +kernel
  obtain ⟨r, hr, hsize⟩ := (Option.any_eq_true _ _).1 hsome
  exact ⟨r, hr, getHeadUint16_exact_iff (fun _ => 0) _ r hr (of_decide_eq_true hsize)⟩

/-- Calls after which the next word starts in the last cell. -/
def wrapped (data : List UInt8) : List (Op UInt8) := [.write data, .read 10239, .write [1, 0]]

theorem runs_wrapped (data : List UInt8) (hdata : data.length = 10239) :
    runs (Fifo.step 10240) .empty (wrapped data) =
      some { stored := [1, 0], written := data ++ [1, 0], returned := data } := by
  have hwrite : Fifo.step 10240 .empty (.write data) =
      some { stored := data, written := data, returned := [] } := if_pos (by rw [hdata]; decide)
  have hread : Fifo.step 10240 { stored := data, written := data, returned := [] } (.read 10239) =
      some { stored := [], written := data, returned := data } := by
    rw [Fifo.step, ← hdata, List.drop_length, List.take_length]
    rfl
  rw [wrapped, runs_cons, hwrite, Option.bind_some, runs_cons, hread]
  rfl

/-- There the second byte of the peek is not in the buffer. -/
theorem not_peekExact_wrapped (data : List UInt8) (hdata : data.length = 10239) : ∃ r,
    runs call (.new fun _ => 0) (wrapped data) = some r ∧ 2 ≤ r.ring.getSize ∧
      ¬ PeekExact r.ring := by
  have hmap := runs_queue (fun _ => 0) (wrapped data)
  rw [runs_wrapped data hdata] at hmap
  obtain ⟨r, hr, hqueue⟩ := Option.map_eq_some_iff.1 hmap
  obtain ⟨hinv, -⟩ := runs_inv _ hr
  have hstored : r.ring.contents = [1, 0] := congrArg Queue.stored hqueue
  have hreturned : r.returned = data := congrArg Queue.returned hqueue
  have hpos := hinv.pos
  have hcap := hinv.cap
  rw [hreturned, hdata] at hpos
  refine ⟨r, hr, ?_, fun hpeek => ?_⟩
  · show 2 ≤ r.ring.size
    rw [← length_contents, hstored]
    decide
  · have := hpeek.inside 1 (by decide)
    omega

theorem getHeadUint16_outside : ∃ r,
    runs call (.new fun _ => 0) (wrapped (List.replicate 10239 0)) = some r ∧
      2 ≤ r.ring.getSize ∧ ¬ PeekExact r.ring :=
  not_peekExact_wrapped _ List.length_replicate

end CircularBuffer

end InNetworkAgg
