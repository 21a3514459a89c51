import InNetworkAgg.Lib.LittleEndian

/-!
# Message codec (innetwork-train/utils/utils.cc, simple-MPI/parameter.cc)

A message is `| dataLen | key ':' | offset | value |`: two length bytes, the
command name, two offset bytes, then a vector size (REQUESTV) or a chunk of
8-byte elements (RESPONSEV).  `messageOf` is this layout; the encoders produce
it and the parsers read it back, whatever bytes follow it in memory:

    createRequestV key size = messageOf key 0 (leBytes 2 size)         (createRequestV_eq)
    creatResponseV past key vec offset = messageOf key offset (elements …)  (creatResponseV_eq)
    praseHeader (messageOf key offset value ++ tail) = some ⟨key, …⟩     (praseHeader_messageOf)
    praseVector (elements xs ++ tail) (8 * n) vec = some (xs ++ vec.drop n)  (praseVector_elements)
-/

namespace InNetworkAgg

open LittleEndian

/-! ## Parameters -/

/-- chunk size -/
def k : Nat := 100

def BASESIZE : Nat := 1024

inductive COMMAND where
  | REQUESTV
  | RESPONSEV
  | AGGREGATE
deriving DecidableEq, Repr

/-- A `std::string` is its bytes. -/
abbrev Key := List UInt8

def ascii (cs : List Char) : Key := cs.map fun c => UInt8.ofNat c.toNat

def commands : COMMAND → Key
  | .REQUESTV => ascii ['R', 'E', 'Q', 'U', 'E', 'S', 'T', 'V']
  | .RESPONSEV => ascii ['R', 'E', 'S', 'P', 'O', 'N', 'S', 'E', 'V']
  | .AGGREGATE => ascii ['A', 'G', 'G', 'R', 'E', 'G', 'A', 'T', 'E']

/-- `':'` -/
def colon : UInt8 := 58

/-! ## Parsers

A buffer is the list of the bytes of its allocation; a parser that would read
or store outside an allocation has no result. -/

structure Header where
  key : Key
  dataLen : Nat
  offset : Nat
  /-- the return value: where the value starts -/
  cursor : Nat
deriving DecidableEq, Repr

/-- The scan for `':'`: how far `len` gets, for the bytes from the key on and
the bound `dataLen - startOff`. -/
def keyLen : List UInt8 → Nat → Option Nat
  | [], _ => none
  | _ :: _, 0 => some 0
  | b :: bs, bound + 1 => if b = colon then some 0 else (keyLen bs bound).map (· + 1)

def praseHeader (buffer : List UInt8) : Option Header := do
  let dataLen ← load 2 buffer 0
  let len ← keyLen (buffer.drop 2) (dataLen - 2)
  let offset ← load 2 buffer (2 + len + 1)
  some { key := (buffer.drop 2).take len, dataLen, offset, cursor := (2 + len + 1 + 2) % 65536 }

/-- One pass of the loop of `PraseVector`: element `i` is loaded and stored. -/
def praseElement (buffer : List UInt8) (vec : List UInt64) (i : Nat) : Option (List UInt64) := do
  let ele ← load 8 buffer (i * 8)
  if i < vec.length then some (vec.set i (UInt64.ofNat ele)) else none

/-- `PraseVector` on `bufferSize` bytes.  The index is a `uint8_t`, which never
reaches a bound of 256 or more. -/
def praseVector (buffer : List UInt8) (bufferSize : Nat) (vec : List UInt64) :
    Option (List UInt64) :=
  if bufferSize / 8 < 256 then (List.range (bufferSize / 8)).foldlM (praseElement buffer) vec
  else none

def praseInt16 (buffer : List UInt8) : Option Nat := load 2 buffer 0

/-! ## Encoders: the bytes they write from the start of the buffer, and the size they return -/

def createRequestV (header : Key) (size : Nat) : List UInt8 × Nat :=
  let newheader := header ++ [colon]
  let bufferSize := (newheader.length + 2 + 2 + 2) % 65536
  (leBytes 2 bufferSize ++ (newheader ++ (leBytes 2 0 ++ leBytes 2 size)), bufferSize)

/-- `end - offset + 1`, the number of elements `CreatResponseV` writes. -/
def responseCount (vSize offset : Nat) : Int :=
  let fin : Nat := if (vSize : Int) - offset < k then vSize else (offset + k - 1) % 65536
  (fin : Int) - offset + 1

/-- The indices of `vec` that `CreatResponseV` reads, in order. -/
def responseReads (vSize offset : Nat) : List Nat :=
  (List.range (responseCount vSize offset).toNat).map (offset + ·)

/-- The elements it copies; `past` is what lies in memory behind the vector. -/
def responseElements (past : UInt64) (vec : List UInt64) (offset : Nat) : List UInt64 :=
  (responseReads (vec.length % 65536) offset).map fun i => vec.getD i past

/-- Elements as the bytes they have in memory. -/
def elementBytes (xs : List UInt64) : List UInt8 := xs.flatMap fun x => leBytes 8 x.toNat

def creatResponseV (past : UInt64) (header : Key) (vec : List UInt64) (offset : Nat) :
    List UInt8 × Nat :=
  let newheader := header ++ [colon]
  let vSize := vec.length % 65536
  let offOff := 2 + newheader.length + 2
  let bufferSize := (((offOff : Int) + 8 * responseCount vSize offset) % 65536).toNat
  (leBytes 2 bufferSize ++ (newheader ++ (leBytes 2 offset ++
    elementBytes (responseElements past vec offset))), bufferSize)

/-! ## The layout -/

/-- `| dataLen | key ':' | offset | value |` -/
def messageOf (key : Key) (offset : Nat) (value : List UInt8) : List UInt8 :=
  leBytes 2 (2 + (key.length + 1) + 2 + value.length) ++
    (key ++ ([colon] ++ (leBytes 2 offset ++ value)))

@[simp] theorem length_messageOf (key : Key) (offset : Nat) (value : List UInt8) :
    (messageOf key offset value).length = key.length + 5 + value.length := by
  simp [messageOf]
  omega

/-- The value lies behind the offset word. -/
theorem drop_messageOf (key : Key) (offset : Nat) (value tail : List UInt8) :
    (messageOf key offset value ++ tail).drop (key.length + 5) = value ++ tail := by
  have hpre : (leBytes 2 (2 + (key.length + 1) + 2 + value.length) ++
      (key ++ ([colon] ++ leBytes 2 offset))).length = key.length + 5 := by
    simp
    omega
  have hsplit : messageOf key offset value ++ tail =
      leBytes 2 (2 + (key.length + 1) + 2 + value.length) ++
        (key ++ ([colon] ++ leBytes 2 offset)) ++ (value ++ tail) := by
    unfold messageOf
    simp only [List.append_assoc]
  rw [hsplit]
  exact List.drop_left' hpre

@[simp] theorem length_elementBytes (xs : List UInt64) :
    (elementBytes xs).length = 8 * xs.length := by
  induction xs with
  | nil => rfl
  | cons x xs ih =>
    rw [elementBytes, List.flatMap_cons, List.length_append, length_leBytes]
    rw [elementBytes] at ih
    rw [ih, List.length_cons]
    omega

theorem createRequestV_eq (key : Key) (size : Nat) (hlen : key.length + 7 < 65536) :
    createRequestV key size = (messageOf key 0 (leBytes 2 size), key.length + 7) := by
  have hsize : ((key ++ [colon]).length + 2 + 2 + 2) % 65536 = key.length + 7 := by
    rw [Nat.mod_eq_of_lt (by simp; omega)]
    simp
  have hsum : 2 + (key.length + 1) + 2 + 2 = key.length + 7 := by omega
  simp only [createRequestV, hsize, messageOf, length_leBytes, List.append_assoc, hsum]

/-- On a full chunk the encoder writes `k` elements. -/
theorem responseCount_full (vSize offset : Nat) (h : offset + k ≤ vSize) (hv : vSize < 65536) :
    responseCount vSize offset = k := by
  have hk : k = 100 := rfl
  rw [responseCount, if_neg (by omega), Nat.mod_eq_of_lt (by omega)]
  omega

/-- On a short chunk it writes one element more than the vector has left. -/
theorem responseCount_short (vSize offset : Nat) (h : vSize < offset + k) :
    responseCount vSize offset = vSize - offset + 1 := by
  rw [responseCount, if_pos (by omega)]

theorem length_responseElements (past : UInt64) (vec : List UInt64) (offset : Nat) :
    (responseElements past vec offset).length =
      (responseCount (vec.length % 65536) offset).toNat := by
  simp [responseElements, responseReads]

theorem creatResponseV_eq (past : UInt64) (key : Key) (vec : List UInt64) (offset : Nat)
    (hcount : 0 ≤ responseCount (vec.length % 65536) offset)
    (hlen : key.length + 5 + 8 * (responseElements past vec offset).length < 65536) :
    creatResponseV past key vec offset =
      (messageOf key offset (elementBytes (responseElements past vec offset)),
        key.length + 5 + 8 * (responseElements past vec offset).length) := by
  have hcnt := length_responseElements past vec offset
  have hsize : ((((2 + (key ++ [colon]).length + 2 : Nat) : Int) +
      8 * responseCount (vec.length % 65536) offset) % 65536).toNat =
      key.length + 5 + 8 * (responseElements past vec offset).length := by
    rw [hcnt] at hlen ⊢
    rw [List.length_append, List.length_singleton]
    omega
  simp only [creatResponseV, hsize, messageOf, length_elementBytes, List.append_assoc]
  congr 3
  omega

/-- A full chunk is the `k` elements from `offset` on. -/
theorem responseElements_full (past : UInt64) (vec : List UInt64) (offset : Nat)
    (h : offset + k ≤ vec.length % 65536) :
    responseElements past vec offset = (vec.drop offset).take k := by
  have hle := Nat.mod_le vec.length 65536
  rw [responseElements, responseReads,
    responseCount_full _ _ h (Nat.mod_lt _ (by decide))]
  apply List.ext_getElem
  · simp
    omega
  · intro i h1 h2
    have hi : i < k := by simpa using h1
    simp only [Int.toNat_natCast, List.map_map, List.getElem_map, List.getElem_range,
      Function.comp, List.getElem_take, List.getElem_drop]
    rw [List.getD_eq_getElem _ _ (by omega)]

/-! ## Reading a message back -/

/-- The scan stops at the first `':'`. -/
theorem keyLen_append (key : Key) (hkey : colon ∉ key) (post : List UInt8) (bound : Nat)
    (hb : key.length ≤ bound) : keyLen (key ++ colon :: post) bound = some key.length := by
  induction key generalizing bound with
  | nil => cases bound <;> simp [keyLen]
  | cons b key ih =>
    obtain ⟨bound, rfl⟩ : ∃ n, bound = n + 1 := ⟨bound - 1, by simp at hb; omega⟩
    have hne : b ≠ colon := fun h => hkey (h ▸ List.mem_cons_self)
    have hrest : colon ∉ key := fun h => hkey (List.mem_cons_of_mem _ h)
    rw [List.cons_append, keyLen, if_neg hne, ih hrest bound (by simpa using hb)]
    rfl

/-- Header round trip, whatever follows the message in memory. -/
theorem praseHeader_messageOf (key : Key) (offset : Nat) (value tail : List UInt8)
    (hkey : colon ∉ key) (hlen : key.length + 5 + value.length < 65536) (hoff : offset < 65536) :
    praseHeader (messageOf key offset value ++ tail) =
      some { key := key, dataLen := key.length + 5 + value.length, offset := offset
             cursor := key.length + 5 } := by
  have hsize : 2 + (key.length + 1) + 2 + value.length = key.length + 5 + value.length := by omega
  have hload : load 2 (messageOf key offset value ++ tail) 0 =
      some (key.length + 5 + value.length) := by
    have h := load_leBytes 2 (key.length + 5 + value.length) []
      (key ++ ([colon] ++ (leBytes 2 offset ++ value)) ++ tail)
    rw [Nat.mod_eq_of_lt (by simpa using hlen)] at h
    rw [messageOf, hsize, List.append_assoc]
    exact h
  have hdrop : (messageOf key offset value ++ tail).drop 2 =
      key ++ colon :: (leBytes 2 offset ++ (value ++ tail)) := by
    rw [messageOf, List.append_assoc, List.drop_left' (length_leBytes 2 _)]
    simp
  have hoffset : load 2 (messageOf key offset value ++ tail) (2 + key.length + 1) =
      some offset := by
    have h := load_leBytes 2 offset (leBytes 2 (key.length + 5 + value.length) ++ (key ++ [colon]))
      (value ++ tail)
    have hl : (leBytes 2 (key.length + 5 + value.length) ++ (key ++ [colon])).length =
        2 + key.length + 1 := by simp; omega
    rw [hl, Nat.mod_eq_of_lt (by simpa using hoff)] at h
    rw [messageOf, hsize, ← h]
    simp
  have hscan := keyLen_append key hkey (leBytes 2 offset ++ (value ++ tail))
    (key.length + 5 + value.length - 2) (by omega)
  simp only [praseHeader, hload, hdrop, hscan, hoffset, Option.bind_eq_bind, Option.bind_some]
  rw [List.take_left, Nat.mod_eq_of_lt (by omega)]
  congr 2
  omega

theorem praseInt16_leBytes (size : Nat) (hsize : size < 65536) (tail : List UInt8) :
    praseInt16 (leBytes 2 size ++ tail) = some size := by
  have h := load_leBytes 2 size [] tail
  rw [Nat.mod_eq_of_lt (by simpa using hsize)] at h
  exact h

theorem elementBytes_append (xs ys : List UInt64) :
    elementBytes (xs ++ ys) = elementBytes xs ++ elementBytes ys := by
  simp [elementBytes]

/-- The first `j` passes of the loop leave the first `j` elements. -/
theorem foldlM_praseElement (xs : List UInt64) (tail : List UInt8) (vec : List UInt64)
    (hvec : xs.length ≤ vec.length) (j : Nat) (hj : j ≤ xs.length) :
    (List.range j).foldlM (praseElement (elementBytes xs ++ tail)) vec =
      some (xs.take j ++ vec.drop j) := by
  induction j with
  | zero => simp
  | succ j ih =>
    have hsplit : xs = xs.take j ++ (xs[j] :: xs.drop (j + 1)) := by
      rw [List.getElem_cons_drop, List.take_append_drop]
    have hload : load 8 (elementBytes xs ++ tail) (j * 8) = some xs[j].toNat := by
      have h := load_leBytes 8 xs[j].toNat (elementBytes (xs.take j))
        (elementBytes (xs.drop (j + 1)) ++ tail)
      have hl : (elementBytes (xs.take j)).length = j * 8 := by simp; omega
      have hx : xs[j].toNat % 256 ^ 8 = xs[j].toNat := Nat.mod_eq_of_lt xs[j].toNat_lt
      rw [hl, hx] at h
      rw [← h]
      conv => lhs; rw [hsplit, elementBytes_append]
      rw [elementBytes, elementBytes, elementBytes, List.flatMap_cons]
      simp only [List.append_assoc]
    rw [List.range_succ, List.foldlM_append, ih (by omega)]
    simp only [List.foldlM_cons, List.foldlM_nil, Option.bind_eq_bind, Option.bind_some,
      praseElement, hload]
    have hl : j < (xs.take j ++ vec.drop j).length := by simp; omega
    have htl : (xs.take j).length = j := by simp; omega
    rw [if_pos hl, UInt64.ofNat_toNat, List.set_append_right _ _ (by omega), htl, Nat.sub_self]
    rw [List.drop_eq_getElem_cons (by omega : j < vec.length), List.set_cons_zero]
    rw [List.take_succ_eq_append_getElem (by omega)]
    simp only [List.append_assoc, List.singleton_append]
    rfl

/-- Vector round trip: the elements replace the front of `vec`. -/
theorem praseVector_elementBytes (xs : List UInt64) (tail : List UInt8) (vec : List UInt64)
    (hvec : xs.length ≤ vec.length) (hlen : xs.length < 256) :
    praseVector (elementBytes xs ++ tail) (8 * xs.length) vec =
      some (xs ++ vec.drop xs.length) := by
  have hn : 8 * xs.length / 8 = xs.length := by omega
  rw [praseVector, hn, if_pos hlen, foldlM_praseElement xs tail vec hvec _ (Nat.le_refl _)]
  simp

/-! ## The two commands that are sent -/

theorem colon_not_mem_commands (c : COMMAND) : colon ∉ commands c := by
  cases c <;> decide

theorem length_commands_REQUESTV : (commands .REQUESTV).length = 8 := rfl

theorem length_commands_RESPONSEV : (commands .RESPONSEV).length = 9 := rfl

theorem commands_ne : commands .REQUESTV ≠ commands .RESPONSEV := by decide

end InNetworkAgg
