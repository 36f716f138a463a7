import Mathlib.Logic.Function.Iterate
import AutomataLab.Saturation

/-!
# What saturation arrives at

Saturation ends in a state from which one more pass finds nothing that was missing
(`saturate_spec`), and it makes no more passes than it takes to get there (`saturate_eq_iterate`).
Where the missing members of a finite stock are counted, a pass that finds one of them lowers the
count (`countP_lt_of_mem`); so at the end none is left to be found.
-/

namespace AutomataLab

/-- The result is the last of the passes. What every pass keeps holds before it, and it finds
nothing that was missing. -/
theorem saturate_spec {σ : Type} (pass : σ → σ) (missing : σ → Nat) {P : σ → Prop}
    (hpass : ∀ t, P t → P (pass t)) {s : σ} (hs : P s) :
    ∃ t, P t ∧ saturate pass missing s = pass t ∧ missing t ≤ missing (pass t) := by
  fun_induction saturate pass missing s with
  | case1 s _ ih => exact ih (hpass s hs)
  | case2 s hlt => exact ⟨s, hs, rfl, Nat.le_of_not_lt hlt⟩

/-- The passes that are made are those that find something missing, and one that does not. -/
theorem saturate_eq_iterate {σ : Type} (pass : σ → σ) (missing : σ → Nat) (s : σ) :
    ∃ k, saturate pass missing s = pass^[k + 1] s
      ∧ ∀ i ≤ k, missing (pass (pass^[i] s)) < missing (pass^[i] s) ↔ i < k := by
  fun_induction saturate pass missing s with
  | case1 s hlt ih =>
    obtain ⟨k, heq, hpasses⟩ := ih
    refine ⟨k + 1, heq, fun i hi => ?_⟩
    cases i with
    | zero => exact iff_of_true hlt (Nat.succ_pos k)
    | succ i =>
      -- the passes after the first one are those of the rest
      rw [Function.iterate_succ_apply, hpasses i (Nat.le_of_succ_le_succ hi)]
      exact Nat.succ_lt_succ_iff.symm
  | case2 s hlt =>
    -- the first pass finds nothing, and it is the last one
    refine ⟨0, rfl, fun i hi => ?_⟩
    obtain rfl := Nat.le_zero.1 hi
    exact iff_of_false hlt (Nat.lt_irrefl 0)

/-- Fewer members of a list pass a stricter test that one of them fails. -/
theorem countP_lt_of_mem {α : Type} {p q : α → Bool} {l : List α} (hle : ∀ a ∈ l, q a → p a)
    {a : α} (ha : a ∈ l) (hp : p a = true) (hq : q a = false) : l.countP q < l.countP p := by
  obtain ⟨before, after, rfl⟩ := List.append_of_mem ha
  obtain ⟨hbefore, hafter⟩ := List.forall_mem_append.1 hle
  have hb := List.countP_mono_left hbefore
  have hc := List.countP_mono_left (List.forall_mem_cons.1 hafter).2
  rw [List.countP_append, List.countP_append, List.countP_cons_of_pos hp,
    List.countP_cons_of_neg (Bool.not_eq_true _ ▸ hq)]
  omega

end AutomataLab
