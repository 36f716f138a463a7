import Mathlib.Data.Multiset.AddSub
import Mathlib.Data.List.Perm.Subperm
import AutomataLab.Proofs.Automaton.Paths

/-!
# Closures are what empty moves reach

A closure holds the states that empty moves lead to from the members of a set (`mem_closure_iff`),
so what is known of reachability holds of closures: nothing is lost, more members reach no less, and
what has been closed is closed.

The closure is made by passes over all of its members. A search that follows the empty moves of one
state after the other makes the same set (`Search`). It has to keep the states whose empty moves are
still to be followed, and it may take any of them next; they are kept without order here. Each state
of the closure is followed once (`Underway.count`), also where empty moves lead in a circle, and
once all have been followed the closure has been found.
-/

namespace AutomataLab

/-! ## The number of members -/

namespace SortedSet

variable {α : Type} [Ord α] [Std.LawfulEqOrd α]

theorem nodup_toList (s : SortedSet α) : s.toList.Nodup :=
  s.sorted.imp fun hlt heq => by
    rw [heq, Std.ReflOrd.compare_self] at hlt
    exact absurd hlt (by simp)

theorem size_le_of_subset {s t : SortedSet α} (h : ∀ a ∈ s, a ∈ t) : s.size ≤ t.size :=
  (List.subperm_of_subset s.nodup_toList h).length_le

theorem size_union [Std.TransOrd α] [DecidableEq α] (s t : SortedSet α) :
    (s ∪ t).size = s.size + (t \ s).size := by
  have hdisjoint : s.toList.Disjoint (t \ s).toList := fun _ ha hb => (mem_sdiff.1 hb).2 ha
  have hparts : (s.toList ++ (t \ s).toList).Nodup :=
    s.nodup_toList.append (t \ s).nodup_toList hdisjoint
  have hperm : (s ∪ t).toList.Perm (s.toList ++ (t \ s).toList) := by
    refine (List.perm_ext_iff_of_nodup (s ∪ t).nodup_toList hparts).2 fun a => ?_
    rw [List.mem_append, ← mem_def, ← mem_def, ← mem_def, mem_union, mem_sdiff]
    tauto
  rw [size, hperm.length_eq, List.length_append]
  rfl

end SortedSet

namespace NFA

/-! ## Reachability by empty moves -/

/-- One state leads to another by an empty move that can be taken. -/
def EmptyMove (n : NFA) (p q : String) : Prop := q ∈ n.targets p .epsilon

section

variable {n m : NFA} {s t : StateSet} {p q : String}

/-- **A closure holds what empty moves reach.** -/
theorem mem_closure_iff :
    q ∈ n.closure s ↔ ∃ p ∈ s, Relation.ReflTransGen n.EmptyMove p q := by
  -- the closure of the graph is defined by its rules, which are those of reachability
  have hmembers : ∀ q, q ∈ n.closure s ↔ q ∈ n.graph.εClosure s.members :=
    Set.ext_iff.1 (members_closure n s)
  rw [hmembers]
  constructor
  · intro hq
    induction hq with
    | base q hq => exact ⟨q, hq, .refl⟩
    | step p q hpq _ ih =>
      obtain ⟨a, ha, hap⟩ := ih
      exact ⟨a, ha, hap.tail hpq⟩
  · rintro ⟨p, hp, hpq⟩
    induction hpq with
    | refl => exact εNFA.εClosure.base p hp
    | tail _ hstep ih => exact εNFA.εClosure.step _ _ hstep ih

theorem subset_closure (hq : q ∈ s) : q ∈ n.closure s := mem_closure_iff.2 ⟨q, hq, .refl⟩

theorem closure_mono (h : ∀ q ∈ s, q ∈ t) (hq : q ∈ n.closure s) : q ∈ n.closure t := by
  obtain ⟨p, hp, hpq⟩ := mem_closure_iff.1 hq
  exact mem_closure_iff.2 ⟨p, h p hp, hpq⟩

/-- An empty move does not lead out of a closure. -/
theorem mem_closure_of_emptyMove (hp : p ∈ n.closure s) (hpq : n.EmptyMove p q) :
    q ∈ n.closure s := by
  obtain ⟨a, ha, hap⟩ := mem_closure_iff.1 hp
  exact mem_closure_iff.2 ⟨a, ha, hap.tail hpq⟩

/-- A closure is the least set around `s` that empty moves do not lead out of. -/
theorem closure_least (hs : ∀ q ∈ s, q ∈ t) (hclosed : ∀ p ∈ t, ∀ q, n.EmptyMove p q → q ∈ t)
    (hq : q ∈ n.closure s) : q ∈ t := by
  obtain ⟨p, hp, hpq⟩ := mem_closure_iff.1 hq
  induction hpq with
  | refl => exact hs p hp
  | tail _ hstep ih => exact hclosed _ (ih (mem_closure_iff.2 ⟨p, hp, ‹_›⟩)) _ hstep

theorem closure_closure (n : NFA) (s : StateSet) : n.closure (n.closure s) = n.closure s := by
  ext q
  exact ⟨closure_least (fun _ hp => hp) fun p hp q hpq => mem_closure_of_emptyMove hp hpq,
    subset_closure⟩

theorem closure_union (n : NFA) (s t : StateSet) :
    n.closure (s ∪ t) = n.closure s ∪ n.closure t := by
  ext q
  rw [SortedSet.mem_union, mem_closure_iff, mem_closure_iff, mem_closure_iff]
  simp only [SortedSet.mem_union, or_and_right, exists_or]

/-- Automata with the same empty moves have the same closures. -/
theorem closure_congr (h : ∀ p, m.targets p .epsilon = n.targets p .epsilon) (s : StateSet) :
    m.closure s = n.closure s := by
  have hmove : m.EmptyMove = n.EmptyMove := by
    funext p q
    rw [EmptyMove, EmptyMove, h]
  ext q
  rw [mem_closure_iff, mem_closure_iff, hmove]

end

/-! ## Searches -/

/-- A search from the members of `s` that has followed the empty moves of `k` states. It has found
the states of a set; pending are those of them that it has still to follow. Which one it takes next
is left open. -/
inductive Search (n : NFA) (s : StateSet) : Nat → StateSet → Multiset String → Prop
  | start : Search n s 0 s s.toList
  | follow {k : Nat} {found : StateSet} {p : String} {pending : Multiset String} :
      Search n s k found (p ::ₘ pending) →
        Search n s (k + 1) (found ∪ n.targets p .epsilon)
          (pending + (n.targets p .epsilon \ found).toList)

/-- What is known of a search at any time. -/
structure Underway (n : NFA) (s : StateSet) (k : Nat) (found : StateSet)
    (pending : Multiset String) : Prop where
  /-- Nothing that the search started from is lost. -/
  base : ∀ q ∈ s, q ∈ found
  /-- Nothing is found but what empty moves lead to. -/
  reached : ∀ q ∈ found, q ∈ n.closure s
  /-- Only what was found is still to be followed. -/
  pending_found : ∀ q ∈ pending, q ∈ found
  /-- A state that was found is pending, or where it leads has been found as well. -/
  followed : ∀ p ∈ found, p ∉ pending → ∀ q ∈ n.targets p .epsilon, q ∈ found
  /-- No state is followed twice. -/
  count : found.size = k + pending.card

section

variable {n : NFA} {s found : StateSet} {k : Nat} {pending : Multiset String} {p : String}

theorem underway_follow (h : n.Underway s k found (p ::ₘ pending)) :
    n.Underway s (k + 1) (found ∪ n.targets p .epsilon)
      (pending + (n.targets p .epsilon \ found).toList) where
  base := fun q hq => SortedSet.mem_union.2 (Or.inl (h.base q hq))
  reached := by
    intro q hq
    rcases SortedSet.mem_union.1 hq with hq | hq
    · exact h.reached q hq
    · -- one empty move away from `p`, which the closure has
      have hp := h.reached p (h.pending_found p (Multiset.mem_cons_self p pending))
      exact mem_closure_of_emptyMove hp hq
  pending_found := by
    intro q hq
    rcases Multiset.mem_add.1 hq with hq | hq
    · exact SortedSet.mem_union.2 (Or.inl (h.pending_found q (Multiset.mem_cons_of_mem hq)))
    · exact SortedSet.mem_union.2 (Or.inr (SortedSet.mem_sdiff.1 hq).1)
  followed := by
    intro a ha hnot q hq
    rw [Multiset.mem_add, not_or] at hnot
    by_cases hap : a = p
    · exact SortedSet.mem_union.2 (Or.inr (hap ▸ hq))
    · -- what is new is pending, so `a` had been found before
      have hold : a ∈ found := by
        by_contra hnew
        refine hnot.2 (SortedSet.mem_sdiff.2 ⟨?_, hnew⟩)
        exact (SortedSet.mem_union.1 ha).resolve_left hnew
      have hnone : a ∉ p ::ₘ pending := by simp [hap, hnot.1]
      exact SortedSet.mem_union.2 (Or.inl (h.followed a hold hnone q hq))
  count := by
    have hcount := h.count
    rw [Multiset.card_cons] at hcount
    have hnew : (n.targets p .epsilon \ found).size
      = ((n.targets p .epsilon \ found).toList : Multiset String).card := rfl
    rw [SortedSet.size_union, Multiset.card_add, ← hnew]
    omega

/-- What is known of a search holds from its start on. -/
theorem Search.underway (h : n.Search s k found pending) : n.Underway s k found pending := by
  induction h with
  | start =>
    exact
      { base := fun _ hq => hq
        reached := fun _ => subset_closure
        pending_found := fun _ hq => hq
        followed := fun p hp hnot => absurd hp hnot
        count := (Nat.zero_add _).symm }
  | follow _ ih => exact underway_follow ih

theorem Underway.le_size (h : n.Underway s k found pending) : k ≤ (n.closure s).size := by
  have hcount := h.count
  have hsize := SortedSet.size_le_of_subset h.reached
  omega

/-- With nothing pending the closure has been found, and each of its states has been followed. -/
theorem Underway.eq_closure (h : n.Underway s k found 0) :
    found = n.closure s ∧ k = (n.closure s).size := by
  -- what was found is closed, so the least closed set is within it
  have hfound : found = n.closure s := by
    ext q
    refine ⟨h.reached q, fun hq => closure_least h.base (fun p hp q hpq => ?_) hq⟩
    exact h.followed p hp (Multiset.notMem_zero p) q hpq
  refine ⟨hfound, ?_⟩
  have hcount := h.count
  rw [hfound, Multiset.card_zero] at hcount
  omega

/-- A search is over as soon as it has followed as many states as the closure has. -/
theorem Underway.pending_eq_zero_iff (h : n.Underway s k found pending) :
    pending = 0 ↔ k = (n.closure s).size := by
  constructor
  · rintro rfl
    exact h.eq_closure.2
  · rintro rfl
    -- a pending state would be one more than the closure has
    have hcount := h.count
    have hsize := SortedSet.size_le_of_subset h.reached
    exact Multiset.card_eq_zero.1 (by omega)

/-- Every search can be brought to its end. -/
theorem Search.finish (h : n.Search s k found pending) :
    n.Search s (n.closure s).size (n.closure s) 0 := by
  -- with every state that is followed fewer are left
  induction hleft : (n.closure s).size - k generalizing k found pending with
  | zero =>
    have hk : k = (n.closure s).size := Nat.le_antisymm h.underway.le_size (by omega)
    obtain rfl := h.underway.pending_eq_zero_iff.2 hk
    rwa [hk, h.underway.eq_closure.1] at h
  | succ left ih =>
    rcases Multiset.empty_or_exists_mem pending with rfl | ⟨p, hp⟩
    · have hk := h.underway.pending_eq_zero_iff.1 rfl
      omega
    · -- any of the pending states will do
      obtain ⟨rest, rfl⟩ := Multiset.exists_cons_of_mem hp
      exact ih (.follow h) (by omega)

end

/--
**A closure holds what empty moves reach, in whatever order they are followed.**

If empty moves are turned on, these are the states that any number of them lead to from a member,
and otherwise the members alone. So no member is lost, more members do not reach less, what is
closed is its own closure, and a closure can be made in parts. A search that follows one state after
the other, whichever it takes next, follows each state of the closure once, even where empty moves
lead in a circle; it ends then, and not before, and what it has found is the closure.
-/
theorem closure_exact (n : NFA) (s : StateSet) :
    ((n.usesEpsilon = true → ∀ q, q ∈ n.closure s
          ↔ ∃ p ∈ s, Relation.ReflTransGen (fun p q => q ∈ n.listed p .epsilon) p q)
        ∧ (n.usesEpsilon = false → n.closure s = s))
      ∧ n.Search s (n.closure s).size (n.closure s) 0
      ∧ (∀ k found pending, n.Search s k found pending →
        k ≤ (n.closure s).size ∧ (pending = 0 ↔ k = (n.closure s).size)
          ∧ (pending = 0 → found = n.closure s))
      ∧ (∀ q ∈ s, q ∈ n.closure s)
      ∧ (∀ t : StateSet, (∀ q ∈ s, q ∈ t) → ∀ q ∈ n.closure s, q ∈ n.closure t)
      ∧ n.closure (n.closure s) = n.closure s
      ∧ ∀ t, n.closure (s ∪ t) = n.closure s ∪ n.closure t := by
  refine ⟨⟨fun hon q => ?_, fun hoff => ?_⟩, Search.start.finish, fun k found pending h => ?_,
    fun q => subset_closure, fun t h q => closure_mono h, n.closure_closure s, n.closure_union s⟩
  · have hmove : n.EmptyMove = fun p q => q ∈ n.listed p .epsilon := by
      funext p q
      simp [EmptyMove, targets, enables, hon]
    rw [mem_closure_iff, hmove]
  · simp [closure, hoff]
  · refine ⟨h.underway.le_size, h.underway.pending_eq_zero_iff, ?_⟩
    rintro rfl
    exact h.underway.eq_closure.1

theorem looping_closure_exact :
    (∃ p ∈ ({"1"} : StateSet),
        Relation.ReflTransGen (fun p q => q ∈ looping.listed p .epsilon) p "2")
      ∧ (looping.setUsesEpsilon false).closure {"1"} = {"1"}
      ∧ looping.Search {"1"} 2 (.ofList ["1", "2"]) 0 ∧ looping.closure {"1"} = .ofList ["1", "2"]
      ∧ "ghost" ∈ looping.closure {"ghost"} ∧ "2" ∈ looping.closure (.ofList ["ghost", "1"]) := by
  obtain ⟨⟨hon, -⟩, -, hsearch, -, hmono, -⟩ := closure_exact looping {"1"}
  -- the empty moves of the two states lead in a circle
  have hstart : looping.Search {"1"} 0 {"1"} ("1" ::ₘ 0) := .start
  have hfirst : looping.Search {"1"} 1 (.ofList ["1", "2"]) ("2" ::ₘ 0) := .follow hstart
  have hsecond : looping.Search {"1"} 2 (.ofList ["1", "2"]) 0 := .follow hfirst
  have hclosure := (hsearch _ _ _ hsecond).2.2 rfl
  have htwo : "2" ∈ looping.closure {"1"} := hclosure ▸ by decide
  refine ⟨(hon rfl "2").1 htwo, (closure_exact (looping.setUsesEpsilon false) _).1.2 rfl, hsecond,
    hclosure.symm, (closure_exact looping {"ghost"}).2.2.2.1 _ (by decide), ?_⟩
  exact hmono _ (by decide) _ htwo

end NFA

end AutomataLab
