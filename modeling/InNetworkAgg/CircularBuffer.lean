import InNetworkAgg.Lib.LittleEndian

/-!
# `CircularBuffer` (quic/model/circularbuffer.cc)

The ring every `MyChannel` puts its stream bytes in.  `contents` reads the
stored bytes off in order; against it the operations are those of a byte queue:

    write c data = some c'  →  contents c' = contents c ++ data        (write_spec)
    (read c n).1 = (contents c).take n,  contents (read c n).2 = (contents c).drop n   (read_spec)
    2 ≤ size, readPos + 1 < capacity  →  the peek is the head word     (getHeadUint16_spec)

The peek does not wrap, so the last fact needs the read position away from the
last cell of the ring.
-/

namespace InNetworkAgg

open LittleEndian

/-! ## The class -/

/-- `buffer i` is byte `i` from the malloc'ed pointer on; the cells from
`capacity` on are not part of the allocation. -/
structure CircularBuffer where
  buffer : Nat → UInt8
  capacity : Nat
  size : Nat
  readPos : Nat
  writePos : Nat

namespace CircularBuffer

/-- `init` on the memory that malloc returned. -/
def init (heap : Nat → UInt8) (capacity : Nat) : CircularBuffer :=
  { buffer := heap, capacity := capacity, size := 0, readPos := 0, writePos := 0 }

/-- The constructor. -/
def new (heap : Nat → UInt8) : CircularBuffer := init heap (1024 * 10)

/-- memcpy of `data` to the cells from `pos` on. -/
def memcpy (mem : Nat → UInt8) (pos : Nat) (data : List UInt8) : Nat → UInt8 :=
  fun i => if pos ≤ i ∧ i < pos + data.length then data.getD (i - pos) 0 else mem i

/-- memcpy of `n` bytes from the cells from `pos` on. -/
def cells (mem : Nat → UInt8) (pos n : Nat) : List UInt8 :=
  (List.range n).map fun i => mem (pos + i)

/-- The copies of `write`: past the end of the ring the data goes on at cell 0. -/
def store (c : CircularBuffer) (data : List UInt8) : Nat → UInt8 :=
  let firstPart := c.capacity - c.writePos
  if firstPart < data.length then
    memcpy (memcpy c.buffer c.writePos (data.take firstPart)) 0 (data.drop firstPart)
  else memcpy c.buffer c.writePos data

/-- `write`; `none` is the failed assertion that the data fits. -/
def write (c : CircularBuffer) (data : List UInt8) : Option CircularBuffer :=
  if data.length ≤ c.capacity - c.size then
    some { c with
      buffer := c.store data
      writePos := (c.writePos + data.length) % c.capacity
      size := c.size + data.length }
  else none

/-- The copies of `read`, for `bytes` already cut to the stored size. -/
def fetch (c : CircularBuffer) (bytes : Nat) : List UInt8 :=
  let firstPart := c.capacity - c.readPos
  if firstPart < bytes then
    cells c.buffer c.readPos firstPart ++ cells c.buffer 0 (bytes - firstPart)
  else cells c.buffer c.readPos bytes

/-- `read`: the bytes copied out (their number is the return value) and the
buffer afterwards. -/
def read (c : CircularBuffer) (bytes : Nat) : List UInt8 × CircularBuffer :=
  let bytes := if c.size < bytes then c.size else bytes
  let firstPart := c.capacity - c.readPos
  (c.fetch bytes,
    { c with
      readPos := if firstPart < bytes then bytes - firstPart else (c.readPos + bytes) % c.capacity
      size := c.size - bytes })

def getSize (c : CircularBuffer) : Nat := c.size

/-- `getHeadUint16`: copies two cells from the read position on without
wrapping; `none` is the failed assertion on the value. -/
def getHeadUint16 (c : CircularBuffer) : Option Nat :=
  let dataLen := leValue (cells c.buffer c.readPos 2)
  if dataLen ≤ c.capacity then some dataLen else none

/-! ## The queue it stands for -/

/-- The stored bytes, oldest first. -/
def contents (c : CircularBuffer) : List UInt8 :=
  (List.range c.size).map fun i => c.buffer ((c.readPos + i) % c.capacity)

/-- What every operation keeps. -/
structure WF (c : CircularBuffer) : Prop where
  pos : 0 < c.capacity
  size_le : c.size ≤ c.capacity
  read_lt : c.readPos < c.capacity
  write_eq : c.writePos = (c.readPos + c.size) % c.capacity

@[simp] theorem length_contents (c : CircularBuffer) : c.contents.length = c.size := by
  simp [contents]

@[simp] theorem length_cells (mem : Nat → UInt8) (pos n : Nat) : (cells mem pos n).length = n := by
  simp [cells]

theorem new_wf (heap : Nat → UInt8) : (new heap).WF where
  pos := Nat.zero_lt_succ _
  size_le := Nat.zero_le _
  read_lt := Nat.zero_lt_succ _
  write_eq := rfl

@[simp] theorem contents_new (heap : Nat → UInt8) : (new heap).contents = [] := rfl

theorem getElem_contents (c : CircularBuffer) (i : Nat) (h : i < c.contents.length) :
    c.contents[i] = c.buffer ((c.readPos + i) % c.capacity) := by
  simp [contents]

/-- Position `p < 2 * cap` on a ring of `cap` cells. -/
theorem mod_ring (p cap : Nat) (h : p < 2 * cap) : p % cap = if p < cap then p else p - cap := by
  split
  · exact Nat.mod_eq_of_lt ‹_›
  · rw [Nat.mod_eq_sub_mod (by omega), Nat.mod_eq_of_lt (by omega)]

theorem memcpy_at (mem : Nat → UInt8) (pos i : Nat) (data : List UInt8) (h : i < data.length) :
    memcpy mem pos data (pos + i) = data[i] := by
  unfold memcpy
  rw [if_pos (by omega), Nat.add_sub_cancel_left, List.getD_eq_getElem _ _ h]

theorem memcpy_off (mem : Nat → UInt8) (pos i : Nat) (data : List UInt8)
    (h : ¬ (pos ≤ i ∧ i < pos + data.length)) : memcpy mem pos data i = mem i := by
  unfold memcpy
  rw [if_neg h]

/-- The ring after the copies of `write`: cell `writePos + i` holds byte `i`
of the data, the other cells are untouched. -/
theorem store_cell (c : CircularBuffer) (data : List UInt8) (i : Nat)
    (hw : c.writePos < c.capacity) (hd : data.length ≤ c.capacity) (hi : i < c.capacity) :
    c.store data ((c.writePos + i) % c.capacity) =
      if h : i < data.length then data[i] else c.buffer ((c.writePos + i) % c.capacity) := by
  simp only [store]
  rw [mod_ring _ _ (by omega)]
  by_cases hwrap : c.capacity - c.writePos < data.length
  · rw [if_pos hwrap]
    by_cases hlt : c.writePos + i < c.capacity
    · -- in the first part, before the end of the ring
      rw [if_pos hlt, memcpy_off _ _ _ _ (by simp; omega), dif_pos (by omega)]
      rw [memcpy_at _ _ _ _ (by simp; omega), List.getElem_take]
    · rw [if_neg hlt]
      by_cases hin : i < data.length
      · -- in the second part, from cell 0 on
        rw [dif_pos hin]
        have he : c.writePos + i - c.capacity = 0 + (i - (c.capacity - c.writePos)) := by omega
        rw [he, memcpy_at _ _ _ _ (by simp; omega), List.getElem_drop]
        congr 1
        omega
      · rw [dif_neg hin, memcpy_off _ _ _ _ (by simp; omega), memcpy_off _ _ _ _ (by simp; omega)]
  · rw [if_neg hwrap]
    by_cases hin : i < data.length
    · rw [dif_pos hin, if_pos (by omega), memcpy_at _ _ _ _ hin]
    · rw [dif_neg hin]
      split
      · rw [memcpy_off _ _ _ _ (by omega)]
      · rw [memcpy_off _ _ _ _ (by omega)]

/-- The copies of `read` follow the ring from the read position on. -/
theorem fetch_eq (c : CircularBuffer) (b : Nat) (hc : c.WF) (hb : b ≤ c.size) :
    c.fetch b = c.contents.take b := by
  obtain ⟨hpos, hsize, hread, -⟩ := hc
  unfold fetch
  by_cases hwrap : c.capacity - c.readPos < b
  · simp only [if_pos hwrap]
    apply List.ext_getElem
    · simp
      omega
    · intro i h1 h2
      have hi : i < b := by simp at h2; omega
      rw [List.getElem_take, getElem_contents, mod_ring _ _ (by omega)]
      by_cases hlt : i < c.capacity - c.readPos
      · have hlt' : c.readPos + i < c.capacity := by omega
        rw [List.getElem_append_left (by simpa using hlt), if_pos hlt']
        simp [cells]
      · have hlt' : ¬ c.readPos + i < c.capacity := by omega
        have hk : 0 + (i - (c.capacity - c.readPos)) = c.readPos + i - c.capacity := by omega
        rw [List.getElem_append_right (by simp; omega), if_neg hlt']
        simp only [cells, List.getElem_map, List.getElem_range, List.length_map, List.length_range]
        rw [hk]
  · simp only [if_neg hwrap]
    apply List.ext_getElem
    · simp
      omega
    · intro i h1 h2
      have hi : i < b := by simp at h2; omega
      rw [List.getElem_take, getElem_contents, Nat.mod_eq_of_lt (by omega)]
      simp [cells]

/-- A write that fits appends to the queue. -/
theorem write_spec (c : CircularBuffer) (data : List UInt8) (hc : c.WF)
    (hfit : data.length ≤ c.capacity - c.size) :
    ∃ c', c.write data = some c' ∧ c'.WF ∧ c'.contents = c.contents ++ data ∧
      c'.readPos = c.readPos ∧ c'.capacity = c.capacity := by
  obtain ⟨hpos, hsize, hread, hwrite⟩ := hc
  have hw : c.writePos < c.capacity := by rw [hwrite]; exact Nat.mod_lt _ hpos
  let c' : CircularBuffer := { c with
    buffer := c.store data
    writePos := (c.writePos + data.length) % c.capacity
    size := c.size + data.length }
  refine ⟨c', by rw [write, if_pos hfit], ⟨hpos, ?_, hread, ?_⟩, ?_, rfl, rfl⟩
  · show c.size + data.length ≤ c.capacity
    omega
  · show (c.writePos + data.length) % c.capacity = (c.readPos + (c.size + data.length)) % c.capacity
    rw [hwrite, Nat.mod_add_mod, Nat.add_assoc]
  · apply List.ext_getElem
    · simp [c']
    · intro i h1 h2
      have hi' : i < c.size + data.length := by simpa [c'] using h1
      rw [getElem_contents]
      show c.store data ((c.readPos + i) % c.capacity) = _
      by_cases hi : i < c.size
      · -- an old byte: the data lies beyond it on the ring
        rw [List.getElem_append_left (by simpa using hi), getElem_contents]
        have hk : (c.readPos + i) % c.capacity =
            (c.writePos + (c.capacity - c.size + i)) % c.capacity := by
          rw [hwrite, Nat.mod_add_mod, show c.readPos + c.size + (c.capacity - c.size + i) =
            c.readPos + i + c.capacity by omega, Nat.add_mod_right]
        rw [hk, store_cell c data _ hw (by omega) (by omega), dif_neg (by omega)]
      · -- a new byte
        rw [List.getElem_append_right (by simpa using hi)]
        have hk : (c.readPos + i) % c.capacity = (c.writePos + (i - c.size)) % c.capacity := by
          rw [hwrite, Nat.mod_add_mod]
          congr 1
          omega
        rw [hk, store_cell c data _ hw (by omega) (by omega), dif_pos (by omega)]
        simp

theorem write_eq_none {c : CircularBuffer} {data : List UInt8}
    (h : ¬ data.length ≤ c.capacity - c.size) : c.write data = none := by
  rw [write, if_neg h]

/-- A write that was made fitted. -/
theorem write_inv (c : CircularBuffer) {data : List UInt8} {c' : CircularBuffer} (hc : c.WF)
    (h : c.write data = some c') :
    c'.WF ∧ c'.contents = c.contents ++ data ∧ c'.readPos = c.readPos ∧ c'.capacity = c.capacity := by
  have hfit : data.length ≤ c.capacity - c.size := by
    by_contra hfull
    rw [write_eq_none hfull] at h
    cases h
  obtain ⟨d, hd, hspec⟩ := c.write_spec data hc hfit
  rw [hd] at h
  cases h
  exact hspec

/-- `read` takes bytes off the front of the queue. -/
theorem read_spec (c : CircularBuffer) (n : Nat) (hc : c.WF) :
    (c.read n).1 = c.contents.take n ∧ (c.read n).2.WF ∧
      (c.read n).2.contents = c.contents.drop n ∧
      (c.read n).2.readPos = (c.readPos + min n c.size) % c.capacity ∧
      (c.read n).2.capacity = c.capacity := by
  have hfetch := fetch_eq c (min n c.size) hc (by omega)
  obtain ⟨hpos, hsize, hread, hwrite⟩ := hc
  have hbytes : (if c.size < n then c.size else n) = min n c.size := by split <;> omega
  have hread' : (c.read n).2.readPos = (c.readPos + min n c.size) % c.capacity := by
    simp only [read, hbytes]
    split
    · -- the wrapped branch sets `bytes - firstPart`, which is the same cell
      rw [mod_ring _ _ (by omega), if_neg (by omega)]
      omega
    · rfl
  have hsize' : (c.read n).2.size = c.size - min n c.size := by simp only [read, hbytes]
  refine ⟨?_, ⟨hpos, ?_, ?_, ?_⟩, ?_, hread', rfl⟩
  · simp only [read, hbytes, hfetch]
    rcases Nat.le_total n c.size with h | h
    · rw [Nat.min_eq_left h]
    · rw [Nat.min_eq_right h, List.take_of_length_le (by simp), List.take_of_length_le (by simpa)]
  · rw [hsize']
    show _ ≤ c.capacity
    omega
  · rw [hread']
    exact Nat.mod_lt _ hpos
  · rw [hread', hsize']
    show c.writePos = _ % c.capacity
    rw [hwrite, Nat.mod_add_mod]
    congr 1
    omega
  · apply List.ext_getElem
    · simp [hsize']
      omega
    · intro i h1 h2
      have hi : n < c.size := by simp at h2; omega
      rw [getElem_contents, List.getElem_drop, getElem_contents, hread']
      show c.buffer (((c.readPos + min n c.size) % c.capacity + i) % c.capacity) = _
      rw [Nat.mod_add_mod, Nat.min_eq_left (by omega), Nat.add_assoc]

/-- Away from the last cell of the ring the peek copies the first two bytes. -/
theorem cells_readPos (c : CircularBuffer) (hsize : 2 ≤ c.size) (hp : c.readPos + 1 < c.capacity) :
    cells c.buffer c.readPos 2 = c.contents.take 2 := by
  apply List.ext_getElem
  · simp; omega
  · intro i h1 h2
    simp at h1
    rw [List.getElem_take, getElem_contents, Nat.mod_eq_of_lt (by omega)]
    simp [cells]

/-- There it is the word a read of two bytes would deliver, -/
theorem getHeadUint16_spec (c : CircularBuffer) (hsize : 2 ≤ c.size)
    (hp : c.readPos + 1 < c.capacity) (hle : leValue (c.contents.take 2) ≤ c.capacity) :
    c.getHeadUint16 = some (leValue (c.contents.take 2)) := by
  simp only [getHeadUint16, cells_readPos c hsize hp]
  rw [if_pos hle]

/-- whenever the assertion on the value holds. -/
theorem head_of_getHeadUint16 (c : CircularBuffer) (hsize : 2 ≤ c.size)
    (hp : c.readPos + 1 < c.capacity) {dataLen : Nat} (h : c.getHeadUint16 = some dataLen) :
    dataLen = leValue (c.contents.take 2) := by
  simp only [getHeadUint16, cells_readPos c hsize hp] at h
  split at h
  · exact (Option.some.inj h).symm
  · cases h

end CircularBuffer

end InNetworkAgg
