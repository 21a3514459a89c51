import Mathlib

/-!
Search trees that ask one strict comparison `lt` only, as the ordered maps of
imperative libraries do.  `find` goes down to the lower bound and compares once
more; `insertUnique` goes down with the comparison the other way round.  How the tree
is rebalanced is a parameter (`Rebalance`): any way that keeps the order of the
entries.

    StrictWeakOrderOn S lt, keys and x in S, t sorted  →
      find lt x t = some p  ↔  p ∈ t.toList, p.1 equivalent to x (find_eq_some_iff)
      insertUnique keeps t sorted                                (sorted_insertUnique)
      and adds the entry of a key that is new                    (mem_insertUnique)

In a partial order, comparing by `¬ b ≤ a` is a strict weak order on the chains
and on no other sets (`strictWeakOrderOn_iff_isChain`), and a key that is not
comparable to all others is not found again where it was put
(`find_insertLeaf_crossing`).
-/

namespace SearchTree

/-- The laws an ordered map wants of its comparison, on the keys in `S`. -/
structure StrictWeakOrderOn {κ : Type*} (S : Set κ) (lt : κ → κ → Prop) : Prop where
  asymm : ∀ a ∈ S, ∀ b ∈ S, lt a b → ¬ lt b a
  trans : ∀ a ∈ S, ∀ b ∈ S, ∀ c ∈ S, lt a b → lt b c → lt a c
  incomp_trans : ∀ a ∈ S, ∀ b ∈ S, ∀ c ∈ S,
    ¬ lt a b ∧ ¬ lt b a → ¬ lt b c ∧ ¬ lt c b → ¬ lt a c ∧ ¬ lt c a

inductive OrdTree (κ ν : Type*) where
  | leaf : OrdTree κ ν
  | node (left : OrdTree κ ν) (key : κ) (val : ν) (right : OrdTree κ ν) : OrdTree κ ν

variable {κ ν : Type*}

namespace OrdTree

/-- The entries in order. -/
def toList : OrdTree κ ν → List (κ × ν)
  | leaf => []
  | node l y w r => l.toList ++ (y, w) :: r.toList

@[simp] theorem toList_leaf : (leaf : OrdTree κ ν).toList = [] := rfl

@[simp] theorem toList_node (l r : OrdTree κ ν) (y : κ) (w : ν) :
    (node l y w r).toList = l.toList ++ (y, w) :: r.toList := rfl

section Search

variable (lt : κ → κ → Prop) [DecidableRel lt]

/-- The first entry on the way down that is not below `x`; `best` is the last one seen. -/
def lowerBound (x : κ) : OrdTree κ ν → Option (κ × ν) → Option (κ × ν)
  | leaf, best => best
  | node l y w r, best =>
    if lt y x then lowerBound x r best else lowerBound x l (some (y, w))

/-- The lower bound, unless `x` is below it. -/
def find (x : κ) (t : OrdTree κ ν) : Option (κ × ν) :=
  (lowerBound lt x t none).filter fun p => ¬ lt x p.1

/-- A new leaf in place of the one where the search for `x` ends, if `x` is above
the last key it passed on the right. -/
def insertLeaf (x : κ) (v : ν) : OrdTree κ ν → Option κ → OrdTree κ ν
  | leaf, passed => if ∀ y ∈ passed, lt y x then node leaf x v leaf else leaf
  | node l y w r, passed =>
    if lt x y then node (insertLeaf x v l passed) y w r
    else node l y w (insertLeaf x v r (some y))

end Search

/-- Each key is below those behind it. -/
def Sorted (lt : κ → κ → Prop) (t : OrdTree κ ν) : Prop := t.toList.Pairwise fun p q => lt p.1 q.1

theorem sorted_leaf (lt : κ → κ → Prop) : Sorted lt (leaf : OrdTree κ ν) := List.Pairwise.nil

theorem sorted_node {lt : κ → κ → Prop} {l r : OrdTree κ ν} {y : κ} {w : ν} :
    Sorted lt (node l y w r) ↔ Sorted lt l ∧ Sorted lt r ∧ (∀ p ∈ l.toList, lt p.1 y) ∧
      (∀ q ∈ r.toList, lt y q.1) ∧ ∀ p ∈ l.toList, ∀ q ∈ r.toList, lt p.1 q.1 := by
  unfold Sorted
  rw [toList_node, List.pairwise_append, List.pairwise_cons]
  constructor
  · rintro ⟨hl, ⟨hy, hr⟩, hlr⟩
    exact ⟨hl, hr, fun p hp => hlr p hp _ List.mem_cons_self, fun q hq => hy q hq,
      fun p hp q hq => hlr p hp q (List.mem_cons_of_mem _ hq)⟩
  · rintro ⟨hl, hr, hly, hyr, hlr⟩
    refine ⟨hl, ⟨fun q hq => hyr q hq, hr⟩, fun p hp q hq => ?_⟩
    rcases List.mem_cons.1 hq with rfl | hq
    · exact hly p hp
    · exact hlr p hp q hq

end OrdTree

open OrdTree

/-! ## Searching -/

section Find

variable {lt : κ → κ → Prop} [DecidableRel lt]

/-- Where the keys below `x` come first, the lower bound is the first other entry. -/
theorem lowerBound_eq_find? (x : κ) (t : OrdTree κ ν)
    (h : t.toList.Pairwise fun p q => lt q.1 x → lt p.1 x) :
    ∀ best, lowerBound lt x t best = (t.toList.find? fun p => ¬ lt p.1 x).or best := by
  induction t with
  | leaf => exact fun best => rfl
  | node l y w r ihl ihr =>
    intro best
    rw [toList_node, List.pairwise_append, List.pairwise_cons] at h
    obtain ⟨hl, ⟨-, hr⟩, hlr⟩ := h
    rw [lowerBound, toList_node, List.find?_append]
    by_cases hy : lt y x
    · have hnone : (l.toList.find? fun p => ¬ lt p.1 x) = none := by
        rw [List.find?_eq_none]
        intro p hp
        simpa using hlr p hp (y, w) List.mem_cons_self hy
      rw [if_pos hy, ihr hr, hnone, List.find?_cons_of_neg (by simpa using hy)]
      rfl
    · rw [if_neg hy, ihl hl, List.find?_cons_of_pos (by simpa using hy)]
      cases l.toList.find? fun p => ¬ lt p.1 x <;> rfl

theorem mem_of_lowerBound {x : κ} {p : κ × ν} (t : OrdTree κ ν) :
    ∀ best, lowerBound lt x t best = some p → (p ∈ t.toList ∧ ¬ lt p.1 x) ∨ best = some p := by
  induction t with
  | leaf => exact fun best h => .inr h
  | node l y w r ihl ihr =>
    intro best h
    rw [lowerBound] at h
    rw [toList_node, List.mem_append, List.mem_cons]
    split at h
    · exact (ihr best h).imp_left fun hp => ⟨.inr (.inr hp.1), hp.2⟩
    · rename_i hy
      rcases ihl _ h with hp | hp
      · exact .inl ⟨.inl hp.1, hp.2⟩
      · cases hp
        exact .inl ⟨.inr (.inl rfl), hy⟩

/-- Whatever the comparison and the tree, an entry that is found has an equivalent key. -/
theorem mem_of_find {x : κ} {t : OrdTree κ ν} {p : κ × ν} (h : find lt x t = some p) :
    p ∈ t.toList ∧ ¬ lt p.1 x ∧ ¬ lt x p.1 := by
  rw [find, Option.filter_eq_some_iff] at h
  rcases mem_of_lowerBound t none h.1 with hp | hp
  · exact ⟨hp.1, hp.2, by simpa using h.2⟩
  · cases hp

/-- In a sorted tree the entry with a key equivalent to `x` is found, and nothing else. -/
theorem find_eq_some_iff {S : Set κ} (ho : StrictWeakOrderOn S lt) {t : OrdTree κ ν} {x : κ}
    (ht : t.Sorted lt) (hS : ∀ p ∈ t.toList, p.1 ∈ S) (hx : x ∈ S) (p : κ × ν) :
    find lt x t = some p ↔ p ∈ t.toList ∧ ¬ lt p.1 x ∧ ¬ lt x p.1 := by
  have hbelow : t.toList.Pairwise fun p q => lt q.1 x → lt p.1 x :=
    List.Pairwise.imp_of_mem (fun hp hq hpq hqx => ho.trans _ (hS _ hp) _ (hS _ hq) _ hx hpq hqx) ht
  constructor
  · exact mem_of_find
  · rintro ⟨hp, hlow, hup⟩
    rw [find, lowerBound_eq_find? x t hbelow none, Option.or_none, Option.filter_eq_some_iff]
    refine ⟨?_, by simpa using hup⟩
    obtain ⟨as, bs, hsplit⟩ := List.append_of_mem hp
    rw [List.find?_eq_some_iff_append]
    refine ⟨by simpa using hlow, as, bs, hsplit, fun q hq => ?_⟩
    have hqS : q.1 ∈ S := hS q (by rw [hsplit]; exact List.mem_append_left _ hq)
    have hqp : lt q.1 p.1 := by
      rw [OrdTree.Sorted, hsplit, List.pairwise_append] at ht
      exact ht.2.2 q hq p List.mem_cons_self
    -- a key before `p` that is not below `x` would be equivalent to `p`
    have hqx : lt q.1 x := by
      by_contra hnot
      have hxq : ¬ lt x q.1 := fun hxq => hup (ho.trans _ hx _ hqS _ (hS p hp) hxq hqp)
      exact (ho.incomp_trans _ hqS _ hx _ (hS p hp) ⟨hnot, hxq⟩ ⟨hup, hlow⟩).1 hqp
    simpa using hqx

end Find

/-! ## Inserting -/

section Insert

variable {lt : κ → κ → Prop} [DecidableRel lt]

/-- No entry is lost. -/
theorem mem_insertLeaf_of_mem {x : κ} {v : ν} {p : κ × ν} (t : OrdTree κ ν) :
    ∀ passed, p ∈ t.toList → p ∈ (insertLeaf lt x v t passed).toList := by
  induction t with
  | leaf =>
    intro passed hp
    cases hp
  | node l y w r ihl ihr =>
    intro passed hp
    rw [toList_node, List.mem_append, List.mem_cons] at hp
    rw [insertLeaf]
    split
    · rw [toList_node, List.mem_append, List.mem_cons]
      exact hp.imp_left (ihl passed)
    · rw [toList_node, List.mem_append, List.mem_cons]
      exact hp.imp_right (Or.imp_right (ihr (some y)))

theorem eq_of_mem_insertLeaf {x : κ} {v : ν} {p : κ × ν} (t : OrdTree κ ν) :
    ∀ passed, p ∈ (insertLeaf lt x v t passed).toList → p ∈ t.toList ∨ p = (x, v) := by
  induction t with
  | leaf =>
    intro passed hp
    rw [insertLeaf] at hp
    split at hp
    · exact .inr (List.mem_singleton.1 hp)
    · cases hp
  | node l y w r ihl ihr =>
    intro passed hp
    rw [insertLeaf] at hp
    split at hp <;> rw [toList_node, List.mem_append, List.mem_cons] at hp <;>
      rw [toList_node, List.mem_append, List.mem_cons]
    · rcases hp with hp | hp | hp
      · exact (ihl passed hp).imp_left Or.inl
      · exact .inl (.inr (.inl hp))
      · exact .inl (.inr (.inr hp))
    · rcases hp with hp | hp | hp
      · exact .inl (.inl hp)
      · exact .inl (.inr (.inl hp))
      · exact (ihr (some y) hp).imp_left fun h => .inr (.inr h)

theorem length_insertLeaf_le (lt : κ → κ → Prop) [DecidableRel lt] (x : κ) (v : ν)
    (t : OrdTree κ ν) :
    ∀ passed, (insertLeaf lt x v t passed).toList.length ≤ t.toList.length + 1 := by
  induction t with
  | leaf =>
    intro passed
    rw [insertLeaf]
    split <;> simp
  | node l y w r ihl ihr =>
    intro passed
    rw [insertLeaf]
    split <;> simp only [toList_node, List.length_append, List.length_cons]
    · have := ihl passed
      omega
    · have := ihr (some y)
      omega

/-- A key that is above or below every other one gets its entry. -/
theorem mem_insertLeaf_self {x : κ} {v : ν} (t : OrdTree κ ν) :
    ∀ passed : Option κ, (∀ y ∈ passed, lt y x) → (∀ p ∈ t.toList, lt p.1 x ∨ lt x p.1) →
      (x, v) ∈ (insertLeaf lt x v t passed).toList := by
  induction t with
  | leaf =>
    intro passed hpassed _
    rw [insertLeaf, if_pos hpassed]
    exact List.mem_singleton.2 rfl
  | node l y w r ihl ihr =>
    intro passed hpassed hcomp
    rw [insertLeaf]
    split
    · exact List.mem_append_left _
        (ihl passed hpassed fun p hp => hcomp p (List.mem_append_left _ hp))
    · rename_i hy
      have hmem : (y, w) ∈ (node l y w r).toList := List.mem_append_right _ List.mem_cons_self
      have hyx : lt y x := (hcomp (y, w) hmem).resolve_right hy
      refine List.mem_append_right _ (List.mem_cons_of_mem _ (ihr (some y) ?_ fun p hp => ?_))
      · rintro _ ⟨⟩
        exact hyx
      · exact hcomp p (List.mem_append_right _ (List.mem_cons_of_mem _ hp))

/-- An entry that was not there before is above the key passed on the right. -/
theorem passed_lt_of_mem_insertLeaf {S : Set κ} (ho : StrictWeakOrderOn S lt) {x : κ} {v : ν}
    (hx : x ∈ S) (t : OrdTree κ ν) :
    ∀ passed : Option κ, t.Sorted lt → (∀ p ∈ t.toList, p.1 ∈ S) →
      (∀ z ∈ passed, z ∈ S ∧ ∀ p ∈ t.toList, lt z p.1) →
      ∀ p ∈ (insertLeaf lt x v t passed).toList, p ∉ t.toList → ∀ z ∈ passed, lt z x := by
  induction t with
  | leaf =>
    intro passed _ _ _ p hp _
    rw [insertLeaf] at hp
    split at hp
    · assumption
    · cases hp
  | node l y w r ihl ihr =>
    intro passed ht hS hpassed p hp hnew z hz
    obtain ⟨hl, hr, -, hyr, -⟩ := sorted_node.1 ht
    have hyS : y ∈ S := hS (y, w) (List.mem_append_right _ List.mem_cons_self)
    rw [toList_node, List.mem_append, List.mem_cons, not_or, not_or] at hnew
    rw [insertLeaf] at hp
    split at hp <;> rw [toList_node, List.mem_append, List.mem_cons] at hp
    · refine ihl passed hl (fun q hq => hS q (List.mem_append_left _ hq)) (fun z hz => ?_) p
        (hp.resolve_right fun h => h.elim hnew.2.1 hnew.2.2) hnew.1 z hz
      exact ⟨(hpassed z hz).1, fun q hq => (hpassed z hz).2 q (List.mem_append_left _ hq)⟩
    · have hyx : lt y x := by
        refine ihr (some y) hr
          (fun q hq => hS q (List.mem_append_right _ (List.mem_cons_of_mem _ hq))) ?_ p
          ((hp.resolve_left hnew.1).resolve_left hnew.2.1) hnew.2.2 y rfl
        rintro _ ⟨⟩
        exact ⟨hyS, hyr⟩
      exact ho.trans _ (hpassed z hz).1 _ hyS _ hx
        ((hpassed z hz).2 (y, w) (List.mem_append_right _ List.mem_cons_self)) hyx

theorem sorted_insertLeaf {S : Set κ} (ho : StrictWeakOrderOn S lt) {x : κ} {v : ν} (hx : x ∈ S)
    (t : OrdTree κ ν) :
    ∀ passed : Option κ, t.Sorted lt → (∀ p ∈ t.toList, p.1 ∈ S) →
      (insertLeaf lt x v t passed).Sorted lt := by
  induction t with
  | leaf =>
    intro passed _ _
    rw [insertLeaf]
    split
    · exact List.pairwise_singleton _ _
    · exact sorted_leaf lt
  | node l y w r ihl ihr =>
    intro passed ht hS
    obtain ⟨hl, hr, hly, hyr, hlr⟩ := sorted_node.1 ht
    have hlS : ∀ p ∈ l.toList, p.1 ∈ S := fun p hp => hS p (List.mem_append_left _ hp)
    have hrS : ∀ p ∈ r.toList, p.1 ∈ S :=
      fun p hp => hS p (List.mem_append_right _ (List.mem_cons_of_mem _ hp))
    have hyS : y ∈ S := hS (y, w) (List.mem_append_right _ List.mem_cons_self)
    rw [insertLeaf]
    split
    · -- the new key is below `y`, so below everything on the right
      rename_i hxy
      rw [sorted_node]
      refine ⟨ihl passed hl hlS, hr, fun p hp => ?_, hyr, fun p hp q hq => ?_⟩
      · rcases eq_of_mem_insertLeaf l passed hp with hp | rfl
        · exact hly p hp
        · exact hxy
      · rcases eq_of_mem_insertLeaf l passed hp with hp | rfl
        · exact hlr p hp q hq
        · exact ho.trans _ hx _ hyS _ (hrS q hq) hxy (hyr q hq)
    · -- the new key was put above `y`, so above everything on the left
      have hpassed : ∀ z ∈ some y, z ∈ S ∧ ∀ p ∈ r.toList, lt z p.1 := by
        rintro _ ⟨⟩
        exact ⟨hyS, hyr⟩
      have habove : ∀ q ∈ (insertLeaf lt x v r (some y)).toList, lt y q.1 := by
        intro q hq
        by_cases hold : q ∈ r.toList
        · exact hyr q hold
        · have hyx := passed_lt_of_mem_insertLeaf ho hx r (some y) hr hrS hpassed q hq hold y rfl
          obtain rfl := (eq_of_mem_insertLeaf r (some y) hq).resolve_left hold
          exact hyx
      rw [sorted_node]
      refine ⟨hl, ihr (some y) hr hrS, hly, habove, fun p hp q hq => ?_⟩
      by_cases hold : q ∈ r.toList
      · exact hlr p hp q hold
      · obtain hq' := (eq_of_mem_insertLeaf r (some y) hq).resolve_left hold
        have hqS : q.1 ∈ S := by
          rw [hq']
          exact hx
        exact ho.trans _ (hlS p hp) _ hyS _ hqS (hly p hp) (habove q hq)

end Insert

/-- A way to rebalance a tree after an insertion. -/
structure Rebalance (κ ν : Type*) where
  run : OrdTree κ ν → OrdTree κ ν
  toList_run : ∀ t, (run t).toList = t.toList

/-- No rebalancing. -/
def Rebalance.none : Rebalance κ ν := { run := id, toList_run := fun _ => rfl }

/-- Two entries are never out of balance. -/
def Rebalance.KeepsSmall (balance : Rebalance κ ν) : Prop :=
  ∀ t, t.toList.length ≤ 2 → balance.run t = t

/-- A new entry, unless there is one with an equivalent key. -/
def insertUnique (lt : κ → κ → Prop) [DecidableRel lt] (balance : Rebalance κ ν) (x : κ) (v : ν)
    (t : OrdTree κ ν) : OrdTree κ ν :=
  balance.run (insertLeaf lt x v t .none)

section

variable {lt : κ → κ → Prop} [DecidableRel lt] {S : Set κ}

theorem sorted_insertUnique (ho : StrictWeakOrderOn S lt) (balance : Rebalance κ ν) {x : κ} {v : ν}
    {t : OrdTree κ ν} (ht : t.Sorted lt) (hS : ∀ p ∈ t.toList, p.1 ∈ S) (hx : x ∈ S) :
    (insertUnique lt balance x v t).Sorted lt := by
  unfold OrdTree.Sorted
  rw [insertUnique, balance.toList_run]
  exact sorted_insertLeaf ho hx t .none ht hS

theorem mem_insertUnique (balance : Rebalance κ ν) {x : κ} {v : ν} {t : OrdTree κ ν}
    (hnew : ∀ p ∈ t.toList, lt p.1 x ∨ lt x p.1) (p : κ × ν) :
    p ∈ (insertUnique lt balance x v t).toList ↔ p ∈ t.toList ∨ p = (x, v) := by
  rw [insertUnique, balance.toList_run]
  constructor
  · exact eq_of_mem_insertLeaf t .none
  · rintro (hp | rfl)
    · exact mem_insertLeaf_of_mem t .none hp
    · exact mem_insertLeaf_self t .none (fun y hy => by cases hy) hnew

end

/-! ## Comparing by `¬ b ≤ a` -/

section PartialOrder

variable [PartialOrder κ] {lt : κ → κ → Prop} (hlt : ∀ a b, lt a b ↔ ¬ b ≤ a)
include hlt

/-- Two keys that are equivalent for the comparison are equal. -/
theorem eq_of_not_lt {a b : κ} (h : ¬ lt a b) (h' : ¬ lt b a) : a = b := by
  rw [hlt, not_not] at h h'
  exact le_antisymm h' h

/-- The comparison is one an ordered map can use on the chains, and on no other sets. -/
theorem strictWeakOrderOn_iff_isChain (S : Set κ) :
    StrictWeakOrderOn S lt ↔ IsChain (· ≤ ·) S := by
  constructor
  · intro h a ha b hb _
    by_contra hcross
    rw [not_or] at hcross
    exact h.asymm a ha b hb ((hlt a b).2 hcross.2) ((hlt b a).2 hcross.1)
  · intro h
    -- on a chain, not at or below means strictly above
    have hlt' : ∀ a ∈ S, ∀ b ∈ S, lt a b ↔ a < b := by
      intro a ha b hb
      rw [hlt]
      exact ⟨fun hab => lt_of_le_not_ge ((h.total ha hb).resolve_right hab) hab, not_le_of_gt⟩
    refine ⟨fun a ha b hb hab hba => ?_, fun a ha b hb c hc hab hbc => ?_,
      fun a ha b hb c hc hab hbc => ?_⟩
    · rw [hlt' a ha b hb] at hab
      rw [hlt' b hb a ha] at hba
      exact lt_asymm hab hba
    · rw [hlt' a ha b hb] at hab
      rw [hlt' b hb c hc] at hbc
      rw [hlt' a ha c hc]
      exact hab.trans hbc
    · rw [eq_of_not_lt hlt hab.1 hab.2]
      exact hbc

theorem OrdTree.Sorted.le_of_isChain {S : Set κ} (hchain : IsChain (· ≤ ·) S) {t : OrdTree κ ν}
    (ht : t.Sorted lt) (hS : ∀ p ∈ t.toList, p.1 ∈ S) : t.Sorted (· ≤ ·) :=
  List.Pairwise.imp_of_mem (fun hp hq hpq =>
    (hchain.total (hS _ hp) (hS _ hq)).resolve_right ((hlt _ _).1 hpq)) ht

/-- A key that is comparable to some, but not to all others is put where the search
does not come by. -/
theorem lowerBound_insertLeaf_crossing [DecidableRel lt] {x c : κ} {v : ν} (hcx : ¬ c ≤ x)
    (hxc : ¬ x ≤ c) (t : OrdTree κ ν) :
    ∀ (passed : Option κ) (best : Option (κ × ν)), t.Sorted (· ≤ ·) → (∀ p ∈ t.toList, p.1 ≠ x) →
      (∃ p ∈ t.toList, p.1 = c) → (∀ p ∈ best, p.1 ≠ x) →
      ∀ p ∈ lowerBound lt x (insertLeaf lt x v t passed) best, p.1 ≠ x := by
  induction t with
  | leaf =>
    rintro passed best _ _ ⟨p, hp, -⟩
    cases hp
  | node l y w r ihl ihr =>
    rintro passed best ht hx ⟨pc, hpc, hc⟩ hbest p hp
    obtain ⟨hl, hr, hly, hyr, -⟩ := sorted_node.1 ht
    have hxl : ∀ p ∈ l.toList, p.1 ≠ x := fun p hp => hx p (List.mem_append_left _ hp)
    have hxr : ∀ p ∈ r.toList, p.1 ≠ x :=
      fun p hp => hx p (List.mem_append_right _ (List.mem_cons_of_mem _ hp))
    have hyx : y ≠ x := hx (y, w) (List.mem_append_right _ List.mem_cons_self)
    rw [toList_node, List.mem_append, List.mem_cons] at hpc
    rw [insertLeaf] at hp
    split at hp
    · rename_i hleft
      rw [lowerBound] at hp
      split at hp
      · -- `y` is not comparable to `x`: the search goes the other way
        rcases mem_of_lowerBound r best hp with hp | hp
        · exact hxr p hp.1
        · exact hbest p hp
      · rename_i hxy
        rw [hlt, not_not] at hxy
        have hpcl : pc ∈ l.toList := by
          rcases hpc with hpc | hpc | hpc
          · exact hpc
          · rw [← hc, hpc] at hxc
            exact absurd hxy hxc
          · exact absurd (hxy.trans (hc ▸ hyr pc hpc)) hxc
        refine ihl passed (some (y, w)) hl hxl ⟨pc, hpcl, hc⟩ ?_ p hp
        rintro _ ⟨⟩
        exact hyx
    · rename_i hright
      rw [hlt, not_not] at hright
      have hpcr : pc ∈ r.toList := by
        rcases hpc with hpc | hpc | hpc
        · exact absurd ((hc ▸ hly pc hpc).trans hright) hcx
        · rw [← hc, hpc] at hcx
          exact absurd hright hcx
        · exact hpc
      have hnot : lt y x := (hlt y x).2 fun h => hyx (le_antisymm hright h)
      rw [lowerBound, if_pos hnot] at hp
      exact ihr (some y) best hr hxr ⟨pc, hpcr, hc⟩ hbest p hp

theorem find_insertLeaf_crossing [DecidableRel lt] {x c : κ} {v : ν} {t : OrdTree κ ν}
    (ht : t.Sorted (· ≤ ·)) (hx : ∀ p ∈ t.toList, p.1 ≠ x) (hc : ∃ p ∈ t.toList, p.1 = c)
    (hcx : ¬ c ≤ x) (hxc : ¬ x ≤ c) : find lt x (insertLeaf lt x v t none) = none := by
  by_contra hfound
  obtain ⟨p, hp⟩ := Option.ne_none_iff_exists'.1 hfound
  have hpx := eq_of_not_lt hlt (mem_of_find hp).2.1 (mem_of_find hp).2.2
  rw [find, Option.filter_eq_some_iff] at hp
  refine lowerBound_insertLeaf_crossing hlt hcx hxc t none none ht hx hc ?_ p hp.1 hpx
  rintro _ ⟨⟩

end PartialOrder

end SearchTree
