/-!
# Sorted sets

A finite set is kept as the strictly increasing list of its members. Two sets with the same
members are therefore the same value (`SortedSet.ext`), and listing a set needs no further
decision about order. Each operation below comes with the statement of which members it has.
-/

namespace AutomataLab

/-- A finite set, listed in strictly increasing order. -/
structure SortedSet (α : Type) [Ord α] where
  toList : List α
  sorted : toList.Pairwise (fun a b => compare a b = .lt)
  deriving DecidableEq

namespace SortedSet

variable {α : Type} [Ord α]

instance : Membership α (SortedSet α) := ⟨fun s a => a ∈ s.toList⟩

theorem mem_def {s : SortedSet α} {a : α} : a ∈ s ↔ a ∈ s.toList := Iff.rfl

instance [DecidableEq α] (a : α) (s : SortedSet α) : Decidable (a ∈ s) :=
  inferInstanceAs (Decidable (a ∈ s.toList))

/-- The set without members. -/
def empty : SortedSet α := ⟨[], .nil⟩

instance : EmptyCollection (SortedSet α) := ⟨empty⟩

instance : Inhabited (SortedSet α) := ⟨empty⟩

@[simp] theorem toList_empty : (∅ : SortedSet α).toList = [] := rfl

@[simp] theorem not_mem_empty (a : α) : a ∉ (∅ : SortedSet α) := List.not_mem_nil

/-- The set whose only member is `a`. -/
def singleton (a : α) : SortedSet α := ⟨[a], List.pairwise_singleton _ _⟩

instance : Singleton α (SortedSet α) := ⟨singleton⟩

@[simp] theorem toList_singleton (a : α) : ({a} : SortedSet α).toList = [a] := rfl

@[simp] theorem mem_singleton {a b : α} : b ∈ ({a} : SortedSet α) ↔ b = a := List.mem_singleton

/-- The number of members. -/
def size (s : SortedSet α) : Nat := s.toList.length

/-- Whether there are no members. -/
def isEmpty (s : SortedSet α) : Bool := s.toList.isEmpty

/-- The members for which `p` holds. -/
def filter (s : SortedSet α) (p : α → Bool) : SortedSet α :=
  ⟨s.toList.filter p, s.sorted.filter p⟩

@[simp] theorem mem_filter {s : SortedSet α} {p : α → Bool} {a : α} :
    a ∈ s.filter p ↔ a ∈ s ∧ p a = true := List.mem_filter

/-- The set without `a`. -/
def erase [DecidableEq α] (s : SortedSet α) (a : α) : SortedSet α := s.filter (· ≠ a)

@[simp] theorem mem_erase [DecidableEq α] {s : SortedSet α} {a b : α} :
    b ∈ s.erase a ↔ b ∈ s ∧ b ≠ a := by simp [erase]

/-- The members of `s` that are not in `t`. -/
def sdiff [DecidableEq α] (s t : SortedSet α) : SortedSet α := s.filter (· ∉ t)

instance [DecidableEq α] : SDiff (SortedSet α) := ⟨sdiff⟩

@[simp] theorem mem_sdiff [DecidableEq α] {s t : SortedSet α} {a : α} :
    a ∈ s \ t ↔ a ∈ s ∧ a ∉ t := by
  simp [SDiff.sdiff, sdiff]

/-! ## A member goes in before the first larger one -/

/-- Put `a` into an increasing list, unless it is there already. -/
def place (a : α) : List α → List α
  | [] => [a]
  | b :: rest =>
    match compare a b with
    | .lt => a :: b :: rest
    | .eq => b :: rest
    | .gt => b :: place a rest

theorem mem_place [Std.LawfulEqOrd α] {a x : α} : ∀ {l : List α}, x ∈ place a l ↔ x = a ∨ x ∈ l
  | [] => by simp [place]
  | b :: rest => by
    unfold place
    split
    · simp
    · next h => simp [Std.LawfulEqOrd.eq_of_compare h]
    · simp [mem_place (l := rest), or_left_comm]

section

variable [Std.TransOrd α] [Std.LawfulEqOrd α]

theorem sorted_place (a : α) :
    ∀ {l : List α}, l.Pairwise (fun a b => compare a b = .lt) →
      (place a l).Pairwise (fun a b => compare a b = .lt)
  | [], _ => by simp [place]
  | b :: rest, h => by
    rw [List.pairwise_cons] at h
    unfold place
    split
    · next hab =>
      refine List.pairwise_cons.2 ⟨fun x hx => ?_, List.pairwise_cons.2 h⟩
      rcases List.mem_cons.1 hx with rfl | hx
      · exact hab
      · exact Std.TransCmp.lt_trans hab (h.1 x hx)
    · exact List.pairwise_cons.2 h
    · next hab =>
      refine List.pairwise_cons.2 ⟨fun x hx => ?_, sorted_place a h.2⟩
      rcases mem_place.1 hx with rfl | hx
      · exact Std.OrientedCmp.gt_iff_lt.1 hab
      · exact h.1 x hx

/-- The set with `a` added. -/
def insert (s : SortedSet α) (a : α) : SortedSet α := ⟨place a s.toList, sorted_place a s.sorted⟩

@[simp] theorem mem_insert {s : SortedSet α} {a b : α} : b ∈ s.insert a ↔ b = a ∨ b ∈ s :=
  mem_place

/-- The members of a list, each once. -/
def ofList (l : List α) : SortedSet α := l.foldr (fun a s => s.insert a) ∅

@[simp] theorem mem_ofList {l : List α} {a : α} : a ∈ ofList l ↔ a ∈ l := by
  induction l with
  | nil => simp [ofList]
  | cons b rest ih =>
    have h : ofList (b :: rest) = (ofList rest).insert b := rfl
    simp [h, ih]

/-- The members of either set. -/
def union (s t : SortedSet α) : SortedSet α := t.toList.foldr (fun a u => u.insert a) s

instance : Union (SortedSet α) := ⟨union⟩

@[simp] theorem mem_union {s t : SortedSet α} {a : α} : a ∈ s ∪ t ↔ a ∈ s ∨ a ∈ t := by
  suffices h : ∀ l : List α, a ∈ l.foldr (fun a (u : SortedSet α) => u.insert a) s ↔ a ∈ s ∨ a ∈ l
    from h t.toList
  intro l
  induction l with
  | nil => simp
  | cons b rest ih => simp [ih, or_left_comm]

/-! ## Sets with the same members are equal -/

theorem eq_of_sorted : ∀ {l m : List α}, l.Pairwise (fun a b => compare a b = .lt) →
    m.Pairwise (fun a b => compare a b = .lt) → (∀ a, a ∈ l ↔ a ∈ m) → l = m
  | [], [], _, _, _ => rfl
  | [], b :: _, _, _, h => absurd ((h b).2 (by simp)) (by simp)
  | a :: _, [], _, _, h => absurd ((h a).1 (by simp)) (by simp)
  | a :: l, b :: m, hl, hm, h => by
    rw [List.pairwise_cons] at hl hm
    have irrefl : ∀ x : α, compare x x ≠ .lt := fun x => by simp [Std.ReflCmp.compare_self]
    have heq : a = b := by
      rcases List.mem_cons.1 ((h a).1 (by simp)) with rfl | ha
      · rfl
      · rcases List.mem_cons.1 ((h b).2 (by simp)) with rfl | hb
        · rfl
        · exact absurd (Std.TransCmp.lt_trans (hm.1 a ha) (hl.1 b hb)) (irrefl b)
    subst heq
    congr 1
    refine eq_of_sorted hl.2 hm.2 fun x => ⟨fun hx => ?_, fun hx => ?_⟩
    · rcases List.mem_cons.1 ((h x).1 (List.mem_cons_of_mem a hx)) with rfl | hx'
      · exact absurd (hl.1 x hx) (irrefl x)
      · exact hx'
    · rcases List.mem_cons.1 ((h x).2 (List.mem_cons_of_mem a hx)) with rfl | hx'
      · exact absurd (hm.1 x hx) (irrefl x)
      · exact hx'

@[ext] theorem ext {s t : SortedSet α} (h : ∀ a, a ∈ s ↔ a ∈ t) : s = t := by
  cases s with
  | mk l hl =>
    cases t with
    | mk m hm => congr 1; exact eq_of_sorted hl hm h

theorem erase_eq_self [DecidableEq α] {s : SortedSet α} {a : α} (h : a ∉ s) : s.erase a = s := by
  ext b
  rw [mem_erase]
  exact ⟨fun hb => hb.1, fun hb => ⟨hb, fun hba => h (hba ▸ hb)⟩⟩

theorem ofList_toList (s : SortedSet α) : ofList s.toList = s := by
  ext a
  exact mem_ofList

end

end SortedSet

end AutomataLab
