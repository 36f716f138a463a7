/-!
# Sorted maps

A finite map is kept as the list of its entries, strictly increasing by key. As with sorted
sets, a map is determined by what it answers (`SortedMap.ext`), and its entries come in the
order of the keys. Each operation below comes with the statement of what a look-up answers
after it.
-/

namespace AutomataLab

/-- A finite map, its entries listed in strictly increasing order of the keys. -/
structure SortedMap (κ : Type) (ν : Type) [Ord κ] where
  entries : List (κ × ν)
  sorted : entries.Pairwise (fun a b => compare a.1 b.1 = .lt)
  deriving DecidableEq

namespace SortedMap

variable {κ ν : Type} [Ord κ]

/-- The map without entries. -/
def empty : SortedMap κ ν := ⟨[], .nil⟩

instance : EmptyCollection (SortedMap κ ν) := ⟨empty⟩

instance : Inhabited (SortedMap κ ν) := ⟨empty⟩

@[simp] theorem entries_empty : (∅ : SortedMap κ ν).entries = [] := rfl

/-- The values, in the order of their keys. -/
def values (m : SortedMap κ ν) : List ν := m.entries.map Prod.snd

/-- Apply `f` to every entry, the keys staying as they are. -/
def map {μ : Type} (f : κ → ν → μ) (m : SortedMap κ ν) : SortedMap κ μ :=
  ⟨m.entries.map fun e => (e.1, f e.1 e.2), List.pairwise_map.2 m.sorted⟩

theorem map_self (m : SortedMap κ ν) : (m.map fun _ v => v) = m := by
  cases m
  simp [map]

/-- The entries for which `p` holds. -/
def filter (p : κ → ν → Bool) (m : SortedMap κ ν) : SortedMap κ ν :=
  ⟨m.entries.filter fun e => p e.1 e.2, m.sorted.filter _⟩

section

variable [DecidableEq κ]

/-- What the map holds under a key. -/
def get? (m : SortedMap κ ν) (k : κ) : Option ν := m.entries.lookup k

/-- The map without the entry of `k`. -/
def erase (m : SortedMap κ ν) (k : κ) : SortedMap κ ν := m.filter fun a _ => a ≠ k

@[simp] theorem get?_empty (k : κ) : (∅ : SortedMap κ ν).get? k = none := rfl

omit [Ord κ] in
theorem lookup_map {μ : Type} (f : κ → ν → μ) (k : κ) : ∀ l : List (κ × ν),
    (l.map fun e => (e.1, f e.1 e.2)).lookup k = (l.lookup k).map (f k)
  | [] => rfl
  | (a, v) :: rest => by
    by_cases h : k = a
    · subst h; simp
    · have h' : (k == a) = false := by simpa using h
      simp [List.lookup_cons, h', lookup_map f k rest]

@[simp] theorem get?_map {μ : Type} (f : κ → ν → μ) (m : SortedMap κ ν) (k : κ) :
    (m.map f).get? k = (m.get? k).map (f k) := lookup_map f k m.entries

omit [Ord κ] in
theorem lookup_filter_key (p : κ → Bool) (k : κ) : ∀ l : List (κ × ν),
    (l.filter fun e => p e.1).lookup k = if p k then l.lookup k else none
  | [] => by simp
  | (a, v) :: rest => by
    by_cases h : k = a
    · subst h
      cases hp : p k <;> simp [List.filter, hp, lookup_filter_key p k rest]
    · have h' : (k == a) = false := by simpa using h
      cases hp : p a <;> simp [List.filter, hp, List.lookup_cons, h', lookup_filter_key p k rest]

@[simp] theorem get?_erase (m : SortedMap κ ν) (a k : κ) :
    (m.erase a).get? k = if k = a then none else m.get? k := by
  have h := lookup_filter_key (fun b => decide (b ≠ a)) k m.entries
  by_cases hk : k = a
  · simpa [get?, erase, filter, hk] using h
  · simpa [get?, erase, filter, hk] using h

/-! ## What all entries have in common -/

/-- Each entry has a key with the one property and a value with the other. -/
def All (K : κ → Prop) (V : ν → Prop) (m : SortedMap κ ν) : Prop :=
  ∀ k v, m.get? k = some v → K k ∧ V v

section

variable {K K' : κ → Prop} {V V' : ν → Prop} {m : SortedMap κ ν}

theorem all_empty : (∅ : SortedMap κ ν).All K V := by
  intro k v hv
  simp at hv

theorem All.mono (h : m.All K V) (hK : ∀ k, K k → K' k) (hV : ∀ v, V v → V' v) : m.All K' V' :=
  fun k v hv => ⟨hK k (h k v hv).1, hV v (h k v hv).2⟩

theorem All.get?_eq_none (h : m.All K V) {k : κ} (hk : ¬K k) : m.get? k = none :=
  Option.eq_none_iff_forall_ne_some.2 fun v hv => hk (h k v hv).1

/-- What stands for missing values has to have the property as well. -/
theorem All.getD (h : m.All K V) {d : ν} (hd : V d) (k : κ) : V ((m.get? k).getD d) := by
  cases hv : m.get? k with
  | none => exact hd
  | some v => exact (h k v hv).2

theorem All.map {μ : Type} {W : μ → Prop} {f : κ → ν → μ} (h : m.All K V)
    (hf : ∀ k v, V v → W (f k v)) : (m.map f).All K W := by
  intro k w hw
  rw [get?_map] at hw
  obtain ⟨v, hv, rfl⟩ := Option.map_eq_some_iff.1 hw
  exact ⟨(h k v hv).1, hf k v (h k v hv).2⟩

theorem All.erase (h : m.All K V) (a : κ) : (m.erase a).All (fun k => K k ∧ k ≠ a) V := by
  intro k v hv
  rw [get?_erase] at hv
  split at hv
  · exact absurd hv (by simp)
  · next hka => exact ⟨⟨(h k v hv).1, hka⟩, (h k v hv).2⟩

end

end

/-! ## An entry goes in before the first larger key -/

/-- Put an entry into an increasing list, in place of the one with the same key if there is one. -/
def place (k : κ) (v : ν) : List (κ × ν) → List (κ × ν)
  | [] => [(k, v)]
  | e :: rest =>
    match compare k e.1 with
    | .lt => (k, v) :: e :: rest
    | .eq => (k, v) :: rest
    | .gt => e :: place k v rest

theorem mem_place {k : κ} {v : ν} {x : κ × ν} :
    ∀ {l : List (κ × ν)}, x ∈ place k v l → x = (k, v) ∨ x ∈ l
  | [] => by simp [place]
  | e :: rest => by
    unfold place
    split
    · simp
    · intro h
      rcases List.mem_cons.1 h with h | h
      · exact .inl h
      · exact .inr (List.mem_cons_of_mem e h)
    · intro h
      rcases List.mem_cons.1 h with h | h
      · exact .inr (by simp [h])
      · rcases mem_place h with h | h
        · exact .inl h
        · exact .inr (List.mem_cons_of_mem e h)

section

variable [Std.TransOrd κ] [Std.LawfulEqOrd κ]

theorem sorted_place (k : κ) (v : ν) :
    ∀ {l : List (κ × ν)}, l.Pairwise (fun a b => compare a.1 b.1 = .lt) →
      (place k v l).Pairwise (fun a b => compare a.1 b.1 = .lt)
  | [], _ => by simp [place]
  | e :: rest, h => by
    rw [List.pairwise_cons] at h
    unfold place
    split
    · next hke =>
      refine List.pairwise_cons.2 ⟨fun x hx => ?_, List.pairwise_cons.2 h⟩
      rcases List.mem_cons.1 hx with rfl | hx
      · exact hke
      · exact Std.TransCmp.lt_trans hke (h.1 x hx)
    · next hke =>
      refine List.pairwise_cons.2 ⟨fun x hx => ?_, h.2⟩
      rw [show k = e.1 from Std.LawfulEqOrd.eq_of_compare hke]
      exact h.1 x hx
    · next hke =>
      refine List.pairwise_cons.2 ⟨fun x hx => ?_, sorted_place k v h.2⟩
      rcases mem_place hx with rfl | hx
      · exact Std.OrientedCmp.gt_iff_lt.1 hke
      · exact h.1 x hx

/-- The map with `v` under `k`, in place of whatever was there. -/
def insert (m : SortedMap κ ν) (k : κ) (v : ν) : SortedMap κ ν :=
  ⟨place k v m.entries, sorted_place k v m.sorted⟩

/-- The entries of a list; of two with one key the later one counts. -/
def ofList (l : List (κ × ν)) : SortedMap κ ν := l.foldl (fun m e => m.insert e.1 e.2) ∅

theorem eq_of_sorted : ∀ {l m : List (κ × ν)},
    l.Pairwise (fun a b => compare a.1 b.1 = .lt) →
    m.Pairwise (fun a b => compare a.1 b.1 = .lt) → (∀ e, e ∈ l ↔ e ∈ m) → l = m
  | [], [], _, _, _ => rfl
  | [], b :: _, _, _, h => absurd ((h b).2 (by simp)) (by simp)
  | a :: _, [], _, _, h => absurd ((h a).1 (by simp)) (by simp)
  | a :: l, b :: m, hl, hm, h => by
    rw [List.pairwise_cons] at hl hm
    have irrefl : ∀ x : κ, compare x x ≠ .lt := fun x => by simp [Std.ReflCmp.compare_self]
    have heq : a = b := by
      rcases List.mem_cons.1 ((h a).1 (by simp)) with rfl | ha
      · rfl
      · rcases List.mem_cons.1 ((h b).2 (by simp)) with rfl | hb
        · rfl
        · exact absurd (Std.TransCmp.lt_trans (hm.1 a ha) (hl.1 b hb)) (irrefl b.1)
    subst heq
    congr 1
    refine eq_of_sorted hl.2 hm.2 fun x => ⟨fun hx => ?_, fun hx => ?_⟩
    · rcases List.mem_cons.1 ((h x).1 (List.mem_cons_of_mem a hx)) with rfl | hx'
      · exact absurd (hl.1 x hx) (irrefl x.1)
      · exact hx'
    · rcases List.mem_cons.1 ((h x).2 (List.mem_cons_of_mem a hx)) with rfl | hx'
      · exact absurd (hm.1 x hx) (irrefl x.1)
      · exact hx'

variable [DecidableEq κ]

theorem lookup_place (k : κ) (v : ν) (a : κ) : ∀ l : List (κ × ν),
    (place k v l).lookup a = if a = k then some v else l.lookup a
  | [] => by
    by_cases h : a = k
    · subst h; simp [place]
    · have h' : (a == k) = false := by simpa using h
      simp [place, List.lookup_cons, h, h']
  | (b, w) :: rest => by
    unfold place
    split
    · by_cases h : a = k
      · subst h; simp
      · have h' : (a == k) = false := by simpa using h
        simp [List.lookup_cons, h, h']
    · next hkb =>
      have hkb' : k = b := Std.LawfulEqOrd.eq_of_compare hkb
      subst hkb'
      by_cases h : a = k
      · subst h; simp
      · have h' : (a == k) = false := by simpa using h
        simp [List.lookup_cons, h, h']
    · next hkb =>
      by_cases h : a = b
      · subst h
        have hne : a ≠ k := by
          rintro rfl
          simp [Std.ReflCmp.compare_self] at hkb
        simp [hne]
      · have h' : (a == b) = false := by simpa using h
        simp [List.lookup_cons, h', lookup_place k v a rest]

@[simp] theorem get?_insert (m : SortedMap κ ν) (k : κ) (v : ν) (a : κ) :
    (m.insert k v).get? a = if a = k then some v else m.get? a := lookup_place k v a m.entries

/-- Replace what is under `k`, or the absence of anything, by `f` of it. -/
def update (m : SortedMap κ ν) (k : κ) (f : Option ν → ν) : SortedMap κ ν :=
  m.insert k (f (m.get? k))

@[simp] theorem get?_update (m : SortedMap κ ν) (k : κ) (f : Option ν → ν) (a : κ) :
    (m.update k f).get? a = if a = k then some (f (m.get? k)) else m.get? a := by
  simp [update]

theorem All.insert {K : κ → Prop} {V : ν → Prop} {m : SortedMap κ ν} {k : κ} {v : ν}
    (h : m.All K V) (hk : K k) (hv : V v) : (m.insert k v).All K V := by
  intro a w hw
  rw [get?_insert] at hw
  split at hw
  · next hak =>
    obtain rfl := Option.some.inj hw
    exact ⟨hak ▸ hk, hv⟩
  · exact h a w hw

theorem All.update {K : κ → Prop} {V : ν → Prop} {m : SortedMap κ ν} {k : κ}
    {f : Option ν → ν} (h : m.All K V) (hk : K k) (hv : V (f (m.get? k))) :
    (m.update k f).All K V := h.insert hk hv

theorem get?_foldl_insert (l : List (κ × ν)) (m : SortedMap κ ν) (k : κ) :
    (l.foldl (fun m e => m.insert e.1 e.2) m).get? k = (l.reverse.lookup k).or (m.get? k) := by
  induction l generalizing m with
  | nil => simp
  | cons e rest ih =>
    obtain ⟨a, v⟩ := e
    rw [List.foldl_cons, ih, List.reverse_cons, List.lookup_append, get?_insert, Option.or_assoc]
    by_cases h : k = a
    · subst h; simp
    · have h' : (k == a) = false := by simpa using h
      simp [List.lookup_cons, h, h']

theorem get?_ofList (l : List (κ × ν)) (k : κ) : (ofList l).get? k = l.reverse.lookup k := by
  rw [ofList, get?_foldl_insert, get?_empty, Option.or_none]

/-! ## Maps that answer alike are equal -/

theorem lookup_eq_some_iff {k : κ} {v : ν} :
    ∀ {l : List (κ × ν)}, l.Pairwise (fun a b => compare a.1 b.1 = .lt) →
      (l.lookup k = some v ↔ (k, v) ∈ l)
  | [], _ => by simp
  | (a, w) :: rest, h => by
    rw [List.pairwise_cons] at h
    by_cases hk : k = a
    · subst hk
      simp only [List.lookup_cons, beq_self_eq_true, Option.some.injEq, List.mem_cons, Prod.mk.injEq,
        true_and]
      constructor
      · rintro rfl; exact .inl rfl
      · rintro (rfl | hmem)
        · rfl
        · exact absurd (h.1 _ hmem) (by simp [Std.ReflCmp.compare_self])
    · have hk' : (k == a) = false := by simpa using hk
      simp [List.lookup_cons, hk', hk, lookup_eq_some_iff h.2]

/-- An entry is in the list exactly if the look-up of its key answers its value. -/
theorem get?_eq_some_iff {m : SortedMap κ ν} {k : κ} {v : ν} :
    m.get? k = some v ↔ (k, v) ∈ m.entries := lookup_eq_some_iff m.sorted

@[ext] theorem ext {m n : SortedMap κ ν} (h : ∀ k, m.get? k = n.get? k) : m = n := by
  have hmem : ∀ e, e ∈ m.entries ↔ e ∈ n.entries := fun e => by
    rw [← get?_eq_some_iff (k := e.1) (v := e.2), ← get?_eq_some_iff (k := e.1) (v := e.2), h]
  cases m with
  | mk l hl =>
    cases n with
    | mk l' hl' => congr 1; exact eq_of_sorted hl hl' hmem

theorem erase_eq_self {m : SortedMap κ ν} {k : κ} (h : m.get? k = none) : m.erase k = m := by
  ext1 a
  rw [get?_erase]
  split
  · next ha => rw [ha, h]
  · rfl

/-! ## Entry by entry -/

theorem map_eq_self {m : SortedMap κ ν} {f : κ → ν → ν} (h : ∀ k v, m.get? k = some v → f k v = v) :
    m.map f = m := by
  ext1 k
  rw [get?_map]
  cases hv : m.get? k with
  | none => rfl
  | some v => rw [Option.map_some, h k v hv]

theorem get?_filter {p : κ → ν → Bool} {m : SortedMap κ ν} {k : κ} :
    (m.filter p).get? k = (m.get? k).filter (p k) := by
  ext v
  rw [get?_eq_some_iff, Option.filter_eq_some_iff, get?_eq_some_iff]
  exact List.mem_filter

theorem forall_mem_entries_iff {P : κ → ν → Prop} {m : SortedMap κ ν} :
    (∀ e ∈ m.entries, P e.1 e.2) ↔ ∀ k v, m.get? k = some v → P k v := by
  simp only [get?_eq_some_iff, Prod.forall]

/-- If a value has a property under any key, it can stand for missing ones. -/
theorem forall_mem_entries_iff_getD {P : κ → ν → Prop} {m : SortedMap κ ν} {d : ν}
    (hd : ∀ k, P k d) : (∀ e ∈ m.entries, P e.1 e.2) ↔ ∀ k, P k ((m.get? k).getD d) := by
  rw [forall_mem_entries_iff]
  refine forall_congr' fun k => ?_
  cases m.get? k with
  | none => simpa using hd k
  | some v => simp

/-- What can be seen at one key of a fold over the entries depends only on the entry of that key. -/
theorem foldl_entries {σ τ : Type} {f : σ → κ × ν → σ} {k : κ} (view : σ → τ) (enter : ν → τ → τ)
    (hsame : ∀ s v, view (f s (k, v)) = enter v (view s))
    (hother : ∀ s e, e.1 ≠ k → view (f s e) = view s) (m : SortedMap κ ν) (s : σ) :
    view (m.entries.foldl f s) = (m.get? k).elim (view s) (enter · (view s)) := by
  obtain ⟨l, hl⟩ := m
  unfold get?
  induction l generalizing s with
  | nil => rfl
  | cons e rest ih =>
    obtain ⟨a, v⟩ := e
    obtain ⟨hfirst, hrest⟩ := List.pairwise_cons.1 hl
    rw [List.foldl_cons, ih _ hrest]
    by_cases ha : a = k
    · subst ha
      have hnone : rest.lookup a = none := by
        refine Option.eq_none_iff_forall_ne_some.2 fun w hw => ?_
        have hlt := hfirst _ ((lookup_eq_some_iff hrest).1 hw)
        simp [Std.ReflCmp.compare_self] at hlt
      rw [hnone, hsame, List.lookup_cons_self]
      rfl
    · have ha' : (k == a) = false := by simpa using Ne.symm ha
      rw [hother s _ ha, List.lookup_cons, ha']

end

end SortedMap

end AutomataLab
