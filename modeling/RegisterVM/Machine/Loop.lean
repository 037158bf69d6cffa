/-!
# Running a machine

A machine is a function that makes one step or stops with a result. A run has a budget of steps;
within the budget it ends with the result, and without a result otherwise. A larger budget never
changes a result that was reached (`iterate_of_le`), and what every step keeps shows in the result
(`iterate_invariant`).
-/

namespace RegisterVM

/-- What one step does. -/
inductive Transition (σ ρ : Type) where
  | next (s : σ)
  | halt (r : ρ)

/-- Steps until the machine stops, at most as many as the budget allows. -/
def iterate {σ ρ : Type} (step : σ → Transition σ ρ) : Nat → σ → Option ρ
  | 0, _ => none
  | budget + 1, s =>
    match step s with
    | .next t => iterate step budget t
    | .halt r => some r

/-- **A result does not depend on the budget.** A run that ends within a budget ends the same way
within a larger one. -/
theorem iterate_of_le {σ ρ : Type} {step : σ → Transition σ ρ} {m n : Nat} {s : σ} {r : ρ}
    (h : iterate step m s = some r) (hmn : m ≤ n) : iterate step n s = some r := by
  induction m generalizing n s with
  | zero => simp [iterate] at h
  | succ m ih =>
    obtain ⟨n, rfl⟩ : ∃ k, n = k + 1 := ⟨n - 1, by omega⟩
    cases hs : step s with
    | halt r' => simpa [iterate, hs] using h
    | next t =>
      simp only [iterate, hs] at h ⊢
      exact ih h (by omega)

/-- **What every step keeps shows in the result.** -/
theorem iterate_invariant {σ ρ : Type} {step : σ → Transition σ ρ} {I : σ → Prop} {Q : ρ → Prop}
    (hnext : ∀ s t, I s → step s = .next t → I t) (hhalt : ∀ s r, I s → step s = .halt r → Q r) {n : Nat}
    {s : σ} {r : ρ} (hs : I s) (h : iterate step n s = some r) : Q r := by
  induction n generalizing s with
  | zero => simp [iterate] at h
  | succ n ih =>
    cases hstep : step s with
    | halt r' =>
      obtain rfl : r' = r := by simpa [iterate, hstep] using h
      exact hhalt s r' hs hstep
    | next t =>
      simp only [iterate, hstep] at h
      exact ih (hnext s t hs hstep) h

end RegisterVM
