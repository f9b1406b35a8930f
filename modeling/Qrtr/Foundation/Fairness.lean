/-
Module: Qrtr.Foundation.Fairness
Layer: Foundation
Purpose: Infinite executions. An action is treated fairly if it cannot be possible for ever without being
  taken. What is missing and gets less with every such action is there from some time on, if nothing else
  makes it more.
Imports: none
Main exports: Fair, Fair.exists_zero, Fair.eventually
Open obligations: none
-/
import Mathlib.Order.Filter.AtTopBot.Finite

namespace Qrtr.Fairness

variable {S : Type}

/-- Again and again the action is not possible or is taken. -/
def Fair (enabled : S → Prop) (action : S → S → Prop) (run : Nat → S) : Prop :=
  ∀ n, ∃ k, n ≤ k ∧ (¬ enabled (run k) ∨ action (run k) (run (k + 1)))

/-- What holds at some time and is kept holds from then on. -/
theorem eventually_of_kept {p : S → Prop} {run : Nat → S} (hkept : ∀ n, p (run n) → p (run (n + 1)))
    {n : Nat} (h : p (run n)) : ∀ᶠ m in Filter.atTop, p (run m) := by
  refine Filter.eventually_atTop.2 ⟨n, fun m hm => ?_⟩
  induction m, hm using Nat.le_induction with
  | base => exact h
  | succ m _ ih => exact hkept m ih

variable {enabled : S → Prop} {action : S → S → Prop} {run : Nat → S} {missing : Nat → S → Prop}

/-- With `k` missing at some time, nothing is missing at a later one. -/
theorem Fair.exists_zero (hfair : Fair enabled action run)
    (hstep : ∀ n k, missing k (run n) → ∃ k', k' ≤ k ∧ missing k' (run (n + 1)))
    (haction : ∀ n k, missing (k + 1) (run n) → action (run n) (run (n + 1)) →
      ∃ k', k' ≤ k ∧ missing k' (run (n + 1)))
    (henabled : ∀ n k, missing (k + 1) (run n) → enabled (run n)) (k : Nat) :
    ∀ n, missing k (run n) → ∃ m, missing 0 (run m) := by
  induction k using Nat.strongRecOn with
  | ind k ih =>
      intro n hn
      cases k with
      | zero => exact ⟨n, hn⟩
      | succ k =>
          -- until the action is taken no more than this is missing, so that it stays possible
          obtain ⟨m, hm, hlater⟩ := hfair n
          have huntil : ∀ d, (∃ k', k' ≤ k ∧ ∃ m, missing k' (run m)) ∨ missing (k + 1) (run (n + d)) := by
            intro d
            induction d with
            | zero => exact Or.inr hn
            | succ d ihd =>
                rcases ihd with hless | hsame
                · exact Or.inl hless
                · obtain ⟨k', hk', hnext⟩ := hstep (n + d) (k + 1) hsame
                  by_cases heq : k' = k + 1
                  · exact Or.inr (heq ▸ hnext)
                  · exact Or.inl ⟨k', by omega, n + d + 1, hnext⟩
          obtain ⟨k', hk', m', hm'⟩ : ∃ k', k' ≤ k ∧ ∃ m, missing k' (run m) := by
            rcases huntil (m - n) with hless | hsame
            · exact hless
            · rw [Nat.add_sub_cancel' hm] at hsame
              rcases hlater with hoff | htaken
              · exact absurd (henabled m k hsame) hoff
              · obtain ⟨k', hk', hnext⟩ := haction m k hsame htaken
                exact ⟨k', hk', m + 1, hnext⟩
          exact ih k' (by omega) m' hm'

/-- With something missing at some time, nothing is missing from a later one on. -/
theorem Fair.eventually (hfair : Fair enabled action run)
    (hstep : ∀ n k, missing k (run n) → ∃ k', k' ≤ k ∧ missing k' (run (n + 1)))
    (haction : ∀ n k, missing (k + 1) (run n) → action (run n) (run (n + 1)) →
      ∃ k', k' ≤ k ∧ missing k' (run (n + 1)))
    (henabled : ∀ n k, missing (k + 1) (run n) → enabled (run n)) {k n : Nat}
    (h : missing k (run n)) : ∀ᶠ m in Filter.atTop, missing 0 (run m) := by
  obtain ⟨m, hm⟩ := hfair.exists_zero hstep haction henabled k n h
  refine eventually_of_kept (fun m hm => ?_) hm
  obtain ⟨k', hk', hnext⟩ := hstep m 0 hm
  rwa [Nat.le_zero.1 hk'] at hnext

end Qrtr.Fairness
