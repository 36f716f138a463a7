/-!
# Saturation

Some sets are built by passes that only ever add to them, until a pass adds nothing. What is
still missing, counted against a finite stock, falls with every pass but the last.
-/

namespace AutomataLab

/-- Repeat `pass` for as long as it lowers the count of what is missing. -/
def saturate {σ : Type} (pass : σ → σ) (missing : σ → Nat) (s : σ) : σ :=
  if missing (pass s) < missing s then saturate pass missing (pass s) else pass s
termination_by missing s

end AutomataLab
