import Mathlib.Tactic

/-! Words split at a bit position: a base whose low bits are clear, combined with flags
below it, and the masks that take the two apart again. -/
namespace EnosKernel
namespace BitFields

variable {n m k f : ℕ}

theorem or_eq_add (hf : f < 2^n) : 2^n*k ||| f = 2^n*k+f := (Nat.two_pow_add_eq_or_of_lt hf k).symm

theorem and_highMask (hk : k < 2^m) (hf : f < 2^n) :
    (2^n*k ||| f) &&& (2^n*(2^m-1)) = 2^n*k := by
  apply Nat.eq_of_testBit_eq
  intro i
  simp only [Nat.testBit_and,Nat.testBit_or,Nat.testBit_two_pow_mul,Nat.testBit_two_pow_sub_one]
  by_cases hi : n ≤ i
  · have hlow : f.testBit i = false := Nat.testBit_lt_two_pow (hf.trans_le (Nat.pow_le_pow_right (by omega) hi))
    by_cases hm : i-n < m
    · simp [hi,hlow,hm]
    · have hhigh : k.testBit (i-n) = false :=
        Nat.testBit_lt_two_pow (hk.trans_le (Nat.pow_le_pow_right (by omega) (by omega)))
      simp [hhigh,hlow]
  · simp [hi]

theorem and_lowFlag {flag : ℕ} (hflag : flag < 2^n) : (2^n*k ||| f) &&& flag = f &&& flag := by
  apply Nat.eq_of_testBit_eq
  intro i
  simp only [Nat.testBit_and,Nat.testBit_or,Nat.testBit_two_pow_mul]
  by_cases hi : n ≤ i
  · have hlow : flag.testBit i = false :=
      Nat.testBit_lt_two_pow (hflag.trans_le (Nat.pow_le_pow_right (by omega) hi))
    simp [hlow]
  · simp [hi]

end BitFields
end EnosKernel
