import Mathlib.Tactic

/-! Unsigned machine words as naturals, with the arithmetic of a debug build: an
unchecked addition that leaves its width panics, a saturating one stops at the
largest word, and a narrowing cast keeps the low bits. -/
namespace EnosKernel

/-- The ways in which compiled code stops without returning. -/
inductive Panic
  | explicit (message : String)
  | indexOutOfBounds
  | overflow
  deriving DecidableEq, Repr

namespace MachineArith

/-- Unchecked addition on `w`-bit words, as a build with overflow checks runs it. -/
def add (w a b : ℕ) : Except Panic ℕ :=
  if a+b < 2^w then .ok (a+b) else .error .overflow

/-- `checked_add`: the caller sees the overflow. -/
def checkedAdd (w a b : ℕ) : Option ℕ :=
  if a+b < 2^w then some (a+b) else none

def saturatingAdd (w a b : ℕ) : ℕ := min (a+b) (2^w-1)

def saturatingMul (w a b : ℕ) : ℕ := min (a*b) (2^w-1)

/-- A narrowing `as` cast. -/
def truncate (w a : ℕ) : ℕ := a % 2^w

theorem bind_eq_ok {ε α β : Type} {x : Except ε α} {f : α → Except ε β} {b : β} :
    (x >>= f) = .ok b ↔ ∃ a, x = .ok a ∧ f a = .ok b := by
  cases x <;> simp [bind,Except.bind]

theorem bind_eq_error {ε α β : Type} {x : Except ε α} {f : α → Except ε β} {e : ε} :
    (x >>= f) = .error e ↔ x = .error e ∨ ∃ a, x = .ok a ∧ f a = .error e := by
  cases x <;> simp [bind,Except.bind]

@[simp] theorem ok_bind {ε α β : Type} (a : α) (f : α → Except ε β) : (Except.ok a >>= f) = f a := rfl

theorem add_ok {w a b : ℕ} (h : a+b < 2^w) : add w a b = .ok (a+b) := if_pos h

theorem add_overflow {w a b : ℕ} (h : 2^w ≤ a+b) : add w a b = .error .overflow :=
  if_neg (not_lt.mpr h)

theorem add_eq_ok {w a b c : ℕ} : add w a b = .ok c ↔ c = a+b ∧ a+b < 2^w := by
  unfold add
  split_ifs with h <;> simp [h,eq_comm]

theorem saturatingAdd_of_lt {w a b : ℕ} (h : a+b < 2^w) : saturatingAdd w a b = a+b := by
  unfold saturatingAdd
  omega

theorem saturatingAdd_of_le {w a b : ℕ} (h : 2^w ≤ a+b) : saturatingAdd w a b = 2^w-1 := by
  unfold saturatingAdd
  omega

theorem truncate_of_lt {w a : ℕ} (h : a < 2^w) : truncate w a = a := Nat.mod_eq_of_lt h

/-- The least multiple of `align` from `value` on, as code computes it with a remainder. -/
def roundUp (value align : ℕ) : ℕ :=
  if value % align = 0 then value else value+align-value % align

theorem le_roundUp {align : ℕ} (value : ℕ) (ha : 0 < align) : value ≤ roundUp value align := by
  have hrem := Nat.mod_lt value ha
  unfold roundUp
  split_ifs <;> omega

theorem roundUp_lt {align : ℕ} (value : ℕ) (ha : 0 < align) : roundUp value align < value+align := by
  unfold roundUp
  split_ifs <;> omega

theorem dvd_roundUp (value align : ℕ) : align ∣ roundUp value align := by
  unfold roundUp
  split_ifs with h
  · exact Nat.dvd_of_mod_eq_zero h
  · have hsplit : value+align-value % align = align*(value/align)+align := by
      have := Nat.div_add_mod value align
      omega
    rw [hsplit]
    exact (Nat.dvd_mul_right _ _).add (Nat.dvd_refl _)

theorem roundUp_le {value align bound : ℕ} (hdvd : align ∣ bound) (hle : value ≤ bound) :
    roundUp value align ≤ bound := by
  unfold roundUp
  split_ifs with h
  · exact hle
  · obtain ⟨c,rfl⟩ := hdvd
    have hdiv := Nat.div_add_mod value align
    have hlt : value/align < c := by
      by_contra hge
      have := Nat.mul_le_mul_left align (not_lt.mp hge)
      omega
    have := Nat.mul_le_mul_left align (Nat.succ_le_of_lt hlt)
    rw [Nat.mul_succ] at this
    omega

theorem roundUp_mono {value value' align align' : ℕ} (hle : value ≤ value') (hdvd : align ∣ align')
    (hpos : 0 < align') :
    roundUp value align ≤ roundUp value' align' :=
  roundUp_le (hdvd.trans (dvd_roundUp value' align')) (hle.trans (le_roundUp value' hpos))

end MachineArith
end EnosKernel
