/-!
# Checks that pass

Declarations, edits and validations are chains of checks, each of which may refuse. A chain passes
exactly if every check in it does; so whatever came through can be taken apart check by check.
-/

namespace AutomataLab

/-- A chain passes if its first check does, and the rest of it with what the first one gave. -/
theorem bind_eq_ok_iff {ε α β : Type} {x : Except ε α} {f : α → Except ε β} {b : β} :
    x >>= f = .ok b ↔ ∃ a, x = .ok a ∧ f a = .ok b := by
  cases x with
  | error e => simp [bind, Except.bind]
  | ok a => simp [bind, Except.bind]

theorem check_bind_eq_ok_iff {ε α : Type} {x : Except ε Unit} {f : Unit → Except ε α} {a : α} :
    x >>= f = .ok a ↔ x = .ok () ∧ f () = .ok a := by
  rw [bind_eq_ok_iff]
  exact ⟨fun ⟨(), hx, hf⟩ => ⟨hx, hf⟩, fun ⟨hx, hf⟩ => ⟨(), hx, hf⟩⟩

theorem pure_eq_ok_iff {ε α : Type} {a b : α} : (pure a : Except ε α) = .ok b ↔ b = a :=
  ⟨fun h => (Except.ok.inj h).symm, fun h => congrArg _ h.symm⟩

theorem bind_pure_eq_ok_iff {ε α β : Type} {x : Except ε α} {f : α → β} {b : β} :
    (x >>= fun a => pure (f a)) = .ok b ↔ ∃ a, x = .ok a ∧ b = f a := by
  simp only [bind_eq_ok_iff, pure_eq_ok_iff]

theorem map_eq_ok_iff {ε α β : Type} {x : Except ε α} {f : α → β} {b : β} :
    x.map f = .ok b ↔ ∃ a, x = .ok a ∧ b = f a := by
  cases x with
  | error e => simp [Except.map]
  | ok a => simp [Except.map, eq_comm]

theorem map_mapError_eq_ok_iff {ε δ α β : Type} {x : Except ε α} {f : α → β} {g : ε → δ} {b : β} :
    (x.map f).mapError g = .ok b ↔ ∃ a, x = .ok a ∧ b = f a := by
  cases x with
  | error e =>
    have hstop : ((Except.error e : Except ε α).map f).mapError g = .error (g e) := rfl
    rw [hstop]
    simp
  | ok a =>
    have hpass : ((Except.ok a : Except ε α).map f).mapError g = .ok (f a) := rfl
    rw [hpass]
    simp [eq_comm]

/-- What a chain makes of a result does not matter to whether there is one. -/
theorem exists_bind_pure_eq_ok_iff {ε α β : Type} {x : Except ε α} {f : α → β} :
    (∃ b, (x >>= fun a => pure (f a)) = .ok b) ↔ ∃ a, x = .ok a := by
  simp only [bind_pure_eq_ok_iff]
  exact ⟨fun ⟨_, a, ha, _⟩ => ⟨a, ha⟩, fun ⟨a, ha⟩ => ⟨f a, a, ha, rfl⟩⟩

/-- A chain that begins by refusing under a condition passes if the condition does not hold and the
rest passes. -/
theorem guard_eq_ok_iff {ε α β : Type} {c : Prop} [Decidable c] {e : ε} {f : β → Except ε α}
    {x : Except ε α} {a : α} :
    (if c then .error e >>= f else x) = .ok a ↔ ¬c ∧ x = .ok a := by
  by_cases h : c
  · simp [h, bind, Except.bind]
  · simp [h]

theorem forM_eq_ok_iff {ε α : Type} {f : α → Except ε Unit} {l : List α} :
    l.forM f = .ok () ↔ ∀ a ∈ l, f a = .ok () := by
  induction l with
  | nil => exact ⟨fun _ a ha => absurd ha List.not_mem_nil, fun _ => rfl⟩
  | cons b rest ih =>
    -- the simp lemmas on `forM` are about the method of the class
    rw [List.forM_eq_forM, List.forM_cons, check_bind_eq_ok_iff, ← List.forM_eq_forM, ih,
      List.forall_mem_cons]

/-- A chain whose steps check the members of a list, and change what has come up so far, passes if
all members are good. -/
theorem foldlM_eq_ok_iff {ε α σ τ : Type} (f : τ → σ) {step : σ → α → Except ε σ}
    {good : α → Prop} {g : τ → α → τ}
    (hstep : ∀ t a s, step (f t) a = .ok s ↔ good a ∧ s = f (g t a)) {l : List α} {t : τ} {s : σ} :
    l.foldlM step (f t) = .ok s ↔ (∀ a ∈ l, good a) ∧ s = f (l.foldl g t) := by
  induction l generalizing t with
  | nil => simpa using pure_eq_ok_iff
  | cons a rest ih =>
    rw [List.foldlM_cons, bind_eq_ok_iff, List.forall_mem_cons, List.foldl_cons, and_assoc, ← ih]
    constructor
    · -- the member has passed, and what it made of the result is what the fold makes of it
      rintro ⟨u, hu, hrest⟩
      obtain ⟨ha, rfl⟩ := (hstep t a u).1 hu
      exact ⟨ha, hrest⟩
    · rintro ⟨ha, hrest⟩
      exact ⟨_, (hstep t a _).2 ⟨ha, rfl⟩, hrest⟩

/-- What every step of a chain keeps, the chain keeps. -/
theorem foldlM_invariant {ε α σ : Type} {P : σ → Prop} {f : σ → α → Except ε σ}
    (hstep : ∀ s a t, P s → f s a = .ok t → P t) {l : List α} {s t : σ} (hs : P s)
    (h : l.foldlM f s = .ok t) : P t := by
  induction l generalizing s with
  | nil => exact pure_eq_ok_iff.1 h ▸ hs
  | cons a rest ih =>
    rw [List.foldlM_cons] at h
    obtain ⟨u, hu, hrest⟩ := bind_eq_ok_iff.1 h
    exact ih (hstep s a u hs hu) hrest

/-- Two attempts end alike: both come through, with results that are related, or both are refused for
the same cause. -/
inductive Agree {ε α β : Type} (R : α → β → Prop) : Except ε α → Except ε β → Prop
  | ok {a : α} {b : β} : R a b → Agree R (.ok a) (.ok b)
  | error (cause : ε) : Agree R (.error cause) (.error cause)

end AutomataLab
