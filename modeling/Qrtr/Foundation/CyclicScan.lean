/-
Module: Qrtr.Foundation.CyclicScan
Layer: Foundation
Purpose: Search along a cyclic walk. A walk starts at an index and steps by one modulo a table size;
  `scan` returns the first index on it at which a test holds. The module gives the two
  characterizations the open-addressing proofs use (`scan_eq_some_iff`, `scan_eq_none_iff`) and the
  fact that a walk of `size` steps meets every index once (`stop_dist`, `stop_injective`).
Imports: Mathlib.Data.Nat.ModEq
Main exports: stop, dist, scan, scan_eq_some_iff, scan_eq_none_iff, stop_dist, stop_injective
Open obligations: none
-/
import Mathlib.Data.Nat.ModEq

namespace Qrtr.CyclicScan

/-- The `i`-th stop of the cyclic walk that starts at `start` in a table of `size` indices. -/
def stop (size start i : Nat) : Nat := (start + i) % size

/-- The number of steps the cyclic walk from `start` takes to reach `idx`. -/
def dist (size start idx : Nat) : Nat := (idx + size - start) % size

/-- The first of the next `steps` stops, beginning with `idx`, at which `test` holds. -/
def scan (test : Nat → Bool) (size : Nat) : Nat → Nat → Option Nat
  | 0, _ => none
  | steps + 1, idx => if test idx then some idx else scan test size steps ((idx + 1) % size)

@[simp] theorem stop_zero {size start : Nat} (h : start < size) : stop size start 0 = start := by
  simp [stop, Nat.mod_eq_of_lt h]

/-- Walking one step first shifts every later stop by one. -/
theorem stop_succ_start (size start i : Nat) :
    stop size ((start + 1) % size) i = stop size start (i + 1) := by
  simp only [stop, Nat.mod_add_mod]
  congr 1
  omega

theorem stop_lt {size start i : Nat} (h : 0 < size) : stop size start i < size :=
  Nat.mod_lt _ h

theorem dist_lt {size start idx : Nat} (h : 0 < size) : dist size start idx < size :=
  Nat.mod_lt _ h

/-- The walk reaches `idx` after `dist` steps. -/
theorem stop_dist {size start idx : Nat} (hstart : start < size) (hidx : idx < size) :
    stop size start (dist size start idx) = idx := by
  simp only [stop, dist, Nat.add_mod_mod]
  rw [show start + (idx + size - start) = idx + size by omega, Nat.add_mod_right,
    Nat.mod_eq_of_lt hidx]

/-- Fewer than `size` steps never meet an index twice. -/
theorem stop_injective {size start i j : Nat} (hi : i < size) (hj : j < size)
    (h : stop size start i = stop size start j) : i = j := by
  have hmod : i ≡ j [MOD size] := Nat.ModEq.add_left_cancel' start h
  rwa [Nat.ModEq, Nat.mod_eq_of_lt hi, Nat.mod_eq_of_lt hj] at hmod

/-- The number of steps to the `i`-th stop is `i`. -/
theorem dist_stop {size start i : Nat} (hstart : start < size) (hi : i < size) :
    dist size start (stop size start i) = i := by
  have hpos : 0 < size := Nat.zero_lt_of_lt hi
  exact stop_injective (dist_lt hpos) hi (stop_dist hstart (stop_lt hpos))

/-- A successful scan returns the first stop at which the test holds. -/
theorem scan_eq_some_iff (test : Nat → Bool) {size : Nat} :
    ∀ {steps idx j : Nat}, idx < size →
      (scan test size steps idx = some j ↔
        ∃ i < steps, j = stop size idx i ∧ test j = true ∧
          ∀ l < i, test (stop size idx l) = false)
  | 0, _, _, _ => by simp [scan]
  | steps + 1, idx, j, hidx => by
      have hpos : 0 < size := Nat.zero_lt_of_lt hidx
      by_cases hhit : test idx = true
      · rw [scan, if_pos hhit]
        constructor
        · rintro ⟨⟩
          exact ⟨0, Nat.succ_pos _, (stop_zero hidx).symm, hhit, by simp⟩
        · rintro ⟨i, -, rfl, -, hbefore⟩
          cases i with
          | zero => rw [stop_zero hidx]
          | succ i =>
              have hmiss := hbefore 0 (Nat.succ_pos _)
              rw [stop_zero hidx, hhit] at hmiss
              simp at hmiss
      · have hmiss : test idx = false := by simpa using hhit
        rw [scan, if_neg hhit, scan_eq_some_iff test (Nat.mod_lt _ hpos)]
        constructor
        · rintro ⟨i, hi, rfl, hj, hbefore⟩
          refine ⟨i + 1, by omega, stop_succ_start _ _ _, hj, ?_⟩
          intro l hl
          cases l with
          | zero => rwa [stop_zero hidx]
          | succ l => rw [← stop_succ_start]; exact hbefore l (by omega)
        · rintro ⟨i, hi, rfl, hj, hbefore⟩
          cases i with
          | zero => rw [stop_zero hidx] at hj; exact absurd hj hhit
          | succ i =>
              refine ⟨i, by omega, (stop_succ_start _ _ _).symm, hj, ?_⟩
              intro l hl
              rw [stop_succ_start]
              exact hbefore (l + 1) (by omega)

/-- A failed scan means that the test fails at every stop. -/
theorem scan_eq_none_iff (test : Nat → Bool) {size : Nat} :
    ∀ {steps idx : Nat}, idx < size →
      (scan test size steps idx = none ↔ ∀ i < steps, test (stop size idx i) = false)
  | 0, _, _ => by simp [scan]
  | steps + 1, idx, hidx => by
      have hpos : 0 < size := Nat.zero_lt_of_lt hidx
      by_cases hhit : test idx = true
      · rw [scan, if_pos hhit]
        simp only [reduceCtorEq, false_iff, not_forall]
        exact ⟨0, Nat.succ_pos _, by simp [stop_zero hidx, hhit]⟩
      · rw [scan, if_neg hhit, scan_eq_none_iff test (Nat.mod_lt _ hpos)]
        constructor
        · intro hall i hi
          cases i with
          | zero => simpa [stop_zero hidx] using hhit
          | succ i => rw [← stop_succ_start]; exact hall i (by omega)
        · intro hall i hi
          rw [stop_succ_start]
          exact hall (i + 1) (by omega)

/-- A full turn of the walk that fails has tested every index. -/
theorem scan_full_eq_none_iff (test : Nat → Bool) {size idx : Nat} (hidx : idx < size) :
    scan test size size idx = none ↔ ∀ j < size, test j = false := by
  rw [scan_eq_none_iff test hidx]
  constructor
  · intro hall j hj
    rw [← stop_dist hidx hj]
    exact hall _ (dist_lt (Nat.zero_lt_of_lt hidx))
  · intro hall i _
    exact hall _ (stop_lt (Nat.zero_lt_of_lt hidx))

end Qrtr.CyclicScan
