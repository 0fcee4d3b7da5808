import Mathlib.Tactic
import Mathlib.Order.CompletePartialOrder
import Mathlib.Order.Interval.Set.Disjoint

/-! Scanning an increasing list with a moving lower bound, and half-open ranges of a
fixed width. -/
namespace EnosKernel
namespace SortedScan

variable {α : Type*} [LinearOrder α]

/-- What lies at or above the bound starts with the least such element. -/
theorem filter_le_eq_cons {xs : List α} (hxs : xs.Pairwise (· < ·)) {bound least : α}
    (hmem : least ∈ xs) (hle : bound ≤ least) (hleast : ∀ x ∈ xs, bound ≤ x → least ≤ x) :
    xs.filter (bound ≤ ·) = least :: xs.filter (least < ·) := by
  induction xs with
  | nil => simp at hmem
  | cons x xs ih =>
    obtain ⟨hx,hrest⟩ := List.pairwise_cons.mp hxs
    rcases List.mem_cons.mp hmem with rfl | hmem
    · have habove : xs.filter (bound ≤ ·) = xs.filter (least < ·) := by
        apply List.filter_congr
        intro y hy
        simp [hx y hy,hle.trans (hx y hy).le]
      simp [hle,habove]
    · have hlt := hx least hmem
      have hbelow : ¬ bound ≤ x := fun h => absurd (hleast x (by simp) h) (not_le.mpr hlt)
      have htail := ih hrest hmem (fun y hy => hleast y (by simp [hy]))
      simpa [hbelow,hlt.le] using htail

theorem filter_le_eq_nil {xs : List α} {bound : α} (h : ∀ x ∈ xs, ¬ bound ≤ x) :
    xs.filter (bound ≤ ·) = [] := by
  simpa using h

end SortedScan

namespace Ranges

theorem Ico_subset_iff {s width b e : ℕ} (hw : 0 < width) :
    Set.Ico s (s+width) ⊆ Set.Ico b e ↔ b ≤ s ∧ s+width ≤ e :=
  Set.Ico_subset_Ico_iff (by omega)

theorem disjoint_iff {s width b e : ℕ} (hw : 0 < width) :
    Disjoint (Set.Ico s (s+width)) (Set.Ico b e) ↔ s+width ≤ b ∨ e ≤ s ∨ e ≤ b := by
  rw [Set.Ico_disjoint_Ico]
  omega

end Ranges
end EnosKernel
