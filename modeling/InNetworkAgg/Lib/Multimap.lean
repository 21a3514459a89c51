import Mathlib

/-!
An ordered map with repeated keys, its entries reached through tokens
(`std::multimap` and its iterators).  Entries stand in key order, a new one behind
the entries with its key.  A token is never given out twice, so one that was
erased denotes nothing any more.

    mem_insert, mem_erase, mem_upTo, mem_after : the entries after an operation
    begin_le : the first entry has the least key
-/

/-- An entry and the token that denotes it. -/
structure Multimap.Entry (κ ν : Type*) where
  token : Nat
  key : κ
  value : ν

/-- Entries in key order with tokens below `next`. -/
structure Multimap (κ ν : Type*) [LinearOrder κ] where
  entries : List (Multimap.Entry κ ν)
  next : Nat
  sorted : entries.Pairwise fun a b => a.key ≤ b.key
  nodup : (entries.map Multimap.Entry.token).Nodup
  issued : ∀ e ∈ entries, e.token < next

namespace Multimap

variable {κ ν : Type*} [LinearOrder κ]

/-! ## Operations -/

def empty (next : Nat) : Multimap κ ν where
  entries := []
  next := next
  sorted := List.Pairwise.nil
  nodup := List.nodup_nil
  issued := fun _ h => nomatch h

/-- The place behind the entries whose key is not greater. -/
def place (e : Entry κ ν) : List (Entry κ ν) → List (Entry κ ν)
  | [] => [e]
  | x :: l => if e.key < x.key then e :: x :: l else x :: place e l

theorem place_perm (e : Entry κ ν) (l : List (Entry κ ν)) : (place e l).Perm (e :: l) := by
  induction l with
  | nil => exact List.Perm.refl _
  | cons x l ih =>
    rw [place]
    split
    · exact List.Perm.refl _
    · exact (ih.cons x).trans (List.Perm.swap e x l)

theorem place_sorted (e : Entry κ ν) {l : List (Entry κ ν)}
    (h : l.Pairwise fun a b => a.key ≤ b.key) : (place e l).Pairwise fun a b => a.key ≤ b.key := by
  induction l with
  | nil => exact List.pairwise_singleton _ _
  | cons x l ih =>
    obtain ⟨hx, hl⟩ := List.pairwise_cons.1 h
    rw [place]
    split
    · rename_i hlt
      refine List.pairwise_cons.2 ⟨fun y hy => ?_, h⟩
      rcases List.mem_cons.1 hy with rfl | hy
      · exact hlt.le
      · exact hlt.le.trans (hx y hy)
    · rename_i hle
      refine List.pairwise_cons.2 ⟨fun y hy => ?_, ih hl⟩
      rcases List.mem_cons.1 ((place_perm e l).mem_iff.1 hy) with rfl | hy
      · exact not_lt.1 hle
      · exact hx y hy

/-- The map with one more entry; the token of the entry is the old `next`. -/
def insert (m : Multimap κ ν) (key : κ) (value : ν) : Multimap κ ν where
  entries := place { token := m.next, key := key, value := value } m.entries
  next := m.next + 1
  sorted := place_sorted _ m.sorted
  nodup := by
    refine ((place_perm _ m.entries).map Entry.token).nodup_iff.2 ?_
    refine List.nodup_cons.2 ⟨fun h => ?_, m.nodup⟩
    obtain ⟨e, he, heq⟩ := List.mem_map.1 h
    exact absurd heq (Nat.ne_of_lt (m.issued e he))
  issued := by
    intro e he
    rcases List.mem_cons.1 ((place_perm _ m.entries).mem_iff.1 he) with rfl | he
    · exact Nat.lt_succ_self _
    · exact Nat.lt_succ_of_lt (m.issued e he)

def erase (m : Multimap κ ν) (token : Nat) : Multimap κ ν where
  entries := m.entries.filter fun e => e.token ≠ token
  next := m.next
  sorted := m.sorted.filter _
  nodup := m.nodup.sublist (List.filter_sublist.map Entry.token)
  issued := fun e he => m.issued e (List.mem_filter.1 he).1

/-- The entry a token denotes. -/
def find (m : Multimap κ ν) (token : Nat) : Option (Entry κ ν) :=
  m.entries.find? fun e => e.token = token

/-- The first entry in key order. -/
def first (m : Multimap κ ν) : Option (Entry κ ν) := m.entries.head?

/-- The entries from the first on, up to a key. -/
def upTo (m : Multimap κ ν) (key : κ) : List (Entry κ ν) :=
  m.entries.takeWhile fun e => e.key ≤ key

/-- The map without them. -/
def after (m : Multimap κ ν) (key : κ) : Multimap κ ν where
  entries := m.entries.dropWhile fun e => e.key ≤ key
  next := m.next
  sorted := m.sorted.sublist (List.dropWhile_sublist _)
  nodup := m.nodup.sublist ((List.dropWhile_sublist _).map Entry.token)
  issued := fun e he => m.issued e ((List.dropWhile_sublist _).subset he)

/-! ## Entries -/

@[simp] theorem mem_empty {next : Nat} {e : Entry κ ν} : e ∉ (empty next : Multimap κ ν).entries :=
  List.not_mem_nil

@[simp] theorem mem_insert {m : Multimap κ ν} {key : κ} {value : ν} {e : Entry κ ν} :
    e ∈ (m.insert key value).entries ↔
      e = { token := m.next, key := key, value := value } ∨ e ∈ m.entries := by
  rw [insert, (place_perm _ m.entries).mem_iff, List.mem_cons]

@[simp] theorem mem_erase {m : Multimap κ ν} {token : Nat} {e : Entry κ ν} :
    e ∈ (m.erase token).entries ↔ e ∈ m.entries ∧ e.token ≠ token := by
  simp [erase]

theorem takeWhile_eq_filter (key : κ) {l : List (Entry κ ν)}
    (h : l.Pairwise fun a b => a.key ≤ b.key) :
    (l.takeWhile fun e => e.key ≤ key) = l.filter fun e => e.key ≤ key := by
  induction l with
  | nil => rfl
  | cons x l ih =>
    obtain ⟨hx, hl⟩ := List.pairwise_cons.1 h
    by_cases hk : x.key ≤ key
    · simp [hk, ih hl]
    · have hnone : (l.filter fun e => e.key ≤ key) = [] := by
        refine List.filter_eq_nil_iff.2 fun y hy hyk => hk ?_
        exact (hx y hy).trans (by simpa using hyk)
      simp [hk, hnone]

theorem dropWhile_eq_filter (key : κ) {l : List (Entry κ ν)}
    (h : l.Pairwise fun a b => a.key ≤ b.key) :
    (l.dropWhile fun e => e.key ≤ key) = l.filter fun e => key < e.key := by
  induction l with
  | nil => rfl
  | cons x l ih =>
    obtain ⟨hx, hl⟩ := List.pairwise_cons.1 h
    by_cases hk : x.key ≤ key
    · simp [hk, ih hl]
    · have hall : (l.filter fun e => key < e.key) = l := by
        refine List.filter_eq_self.2 fun y hy => ?_
        simpa using (not_le.1 hk).trans_le (hx y hy)
      simp [hk, not_le.1 hk, hall]

@[simp] theorem mem_after {m : Multimap κ ν} {key : κ} {e : Entry κ ν} :
    e ∈ (m.after key).entries ↔ e ∈ m.entries ∧ key < e.key := by
  have h : (m.after key).entries = m.entries.filter fun e => key < e.key :=
    dropWhile_eq_filter key m.sorted
  simp [h]

@[simp] theorem mem_upTo {m : Multimap κ ν} {key : κ} {e : Entry κ ν} :
    e ∈ m.upTo key ↔ e ∈ m.entries ∧ e.key ≤ key := by
  rw [upTo, takeWhile_eq_filter key m.sorted]
  simp

/-- Two entries with one token are the same. -/
theorem token_inj {m : Multimap κ ν} {e e' : Entry κ ν} (he : e ∈ m.entries) (he' : e' ∈ m.entries)
    (h : e.token = e'.token) : e = e' :=
  List.inj_on_of_nodup_map m.nodup he he' h

theorem find_eq_some {m : Multimap κ ν} {token : Nat} {e : Entry κ ν} :
    m.find token = some e ↔ e ∈ m.entries ∧ e.token = token := by
  constructor
  · intro h
    exact ⟨List.mem_of_find?_eq_some h, by simpa using List.find?_some h⟩
  · rintro ⟨he, rfl⟩
    cases hf : m.find e.token with
    | none =>
      have hnone := List.find?_eq_none.1 hf e he
      simp at hnone
    | some e' =>
      have he' : e' ∈ m.entries := List.mem_of_find?_eq_some hf
      have ht : e'.token = e.token := by simpa using List.find?_some hf
      rw [token_inj he' he ht]

theorem first_eq_none {m : Multimap κ ν} : m.first = none ↔ m.entries = [] := by
  rw [first, List.head?_eq_none_iff]

theorem first_mem {m : Multimap κ ν} {e : Entry κ ν} (h : m.first = some e) : e ∈ m.entries :=
  List.mem_of_head? h

theorem first_le {m : Multimap κ ν} {e : Entry κ ν} (h : m.first = some e) :
    ∀ x ∈ m.entries, e.key ≤ x.key := by
  intro x hx
  have hs := m.sorted
  rw [first] at h
  cases hl : m.entries with
  | nil => rw [hl] at hx; cases hx
  | cons y l =>
    rw [hl] at h hx hs
    cases h
    rcases List.mem_cons.1 hx with rfl | hx
    · exact le_refl _
    · exact (List.pairwise_cons.1 hs).1 x hx

end Multimap
