import Mathlib.Tactic

/-! Checked arithmetic on signed machine words: an operation returns its exact value if
that is a word, and nothing otherwise. -/
namespace EnosKernel
namespace SignedArith

def minValue (w : ℕ) : ℤ := -2^(w-1)
def maxValue (w : ℕ) : ℤ := 2^(w-1)-1

def Fits (w : ℕ) (x : ℤ) : Prop := minValue w ≤ x ∧ x ≤ maxValue w

instance fitsDecidable (w : ℕ) (x : ℤ) : Decidable (Fits w x) := by unfold Fits; infer_instance

def checked (w : ℕ) (x : ℤ) : Option ℤ := if Fits w x then some x else none

def checkedAdd (w : ℕ) (a b : ℤ) : Option ℤ := checked w (a+b)
def checkedSub (w : ℕ) (a b : ℤ) : Option ℤ := checked w (a-b)
def checkedMul (w : ℕ) (a b : ℤ) : Option ℤ := checked w (a*b)
def checkedNeg (w : ℕ) (a : ℤ) : Option ℤ := checked w (-a)

/-- Division truncates; the quotient of the least word by `-1` is no word. -/
def checkedDiv (w : ℕ) (a b : ℤ) : Option ℤ := if b = 0 then none else checked w (a.tdiv b)

/-- The remainder is refused where the quotient is. -/
def checkedRem (w : ℕ) (a b : ℤ) : Option ℤ :=
  if b = 0 ∨ (a = minValue w ∧ b = -1) then none else some (a.tmod b)

theorem checked_eq_some {w : ℕ} {x y : ℤ} : checked w x = some y ↔ y = x ∧ Fits w x := by
  unfold checked
  split_ifs with h <;> simp [h,eq_comm]

theorem fits_of_checked {w : ℕ} {x y : ℤ} (h : checked w x = some y) : Fits w y := by
  obtain ⟨rfl,hfits⟩ := checked_eq_some.mp h
  exact hfits

theorem checked_eq_none {w : ℕ} {x : ℤ} : checked w x = none ↔ ¬Fits w x := by
  unfold checked
  split_ifs with h <;> simp [h]

theorem Fits.tmod {w : ℕ} {a : ℤ} (h : Fits w a) (b : ℤ) : Fits w (a.tmod b) := by
  have hpow : (0 : ℤ) < 2^(w-1) := by positivity
  have habs : (a.tmod b).natAbs ≤ a.natAbs := by
    rw [Int.natAbs_tmod]
    exact Nat.mod_le _ _
  unfold Fits minValue maxValue at *
  rcases le_total 0 a with ha | ha
  · have hpos := Int.tmod_nonneg b ha
    omega
  · have hneg := Int.tmod_nonneg b (Int.neg_nonneg_of_nonpos ha)
    rw [Int.neg_tmod] at hneg
    omega

end SignedArith
end EnosKernel
