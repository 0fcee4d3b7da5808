import EnosKernel.RustStr

/-! Decimal numbers as they are read off a text: the digits around the dot, the places behind
it, and when such a number is another one cut off behind its last place. -/
namespace EnosKernel
namespace DecimalText

open RustStr

/-- A decimal number: all its digits as one number, and how many stand behind the dot. -/
structure Number where
  digits : ℕ
  places : ℕ
  deriving DecidableEq, Repr

namespace Number

def value (x : Number) : ℚ := x.digits/10^x.places

/-- The number is `q` without what stands behind its last place. -/
def Truncates (x : Number) (q : ℚ) : Prop := x.value ≤ q ∧ q < x.value+1/10^x.places

theorem value_le_iff {x y : Number} (h : x.places = y.places) : x.value ≤ y.value ↔ x.digits ≤ y.digits := by
  have hpos : (0 : ℚ) < 10^y.places := by positivity
  rw [value,value,h,div_le_div_iff_of_pos_right hpos,Nat.cast_le]

theorem truncates_div_iff (x : Number) (n : ℕ) {u : ℕ} (hu : 0 < u) :
    x.Truncates (n/u) ↔ n*10^x.places/u = x.digits := by
  have hu' : (0 : ℚ) < u := by exact_mod_cast hu
  have hpow : (0 : ℚ) < 10^x.places := by positivity
  have hlow : x.value ≤ n/u ↔ x.digits*u ≤ n*10^x.places := by
    rw [value,div_le_div_iff₀ hpow hu']
    exact_mod_cast Iff.rfl
  have hhigh : (n : ℚ)/u < x.value+1/10^x.places ↔ n*10^x.places < (x.digits+1)*u := by
    rw [value,← add_div,div_lt_div_iff₀ hu' hpow]
    exact_mod_cast Iff.rfl
  rw [Truncates,hlow,hhigh,← Nat.le_div_iff_mul_le hu,← Nat.div_lt_iff_lt_mul hu]
  omega

end Number

/-- The number at the front of a text, and the text behind it. -/
def readNumber (text : List Char) : Number × List Char :=
  let whole := text.takeWhile Char.isDigit
  match text.dropWhile Char.isDigit with
  | '.'::rest =>
    let fraction := rest.takeWhile Char.isDigit
    (⟨Nat.ofDigitChars 10 (whole++fraction) 0,fraction.length⟩,rest.dropWhile Char.isDigit)
  | rest => (⟨Nat.ofDigitChars 10 whole 0,0⟩,rest)

theorem isDigit_of_mem_decimal {n : ℕ} {c : Char} (hc : c ∈ decimal n) : c.isDigit :=
  Nat.isDigit_of_mem_toDigits (by decide) (by decide) hc

theorem decimal_length_le_iff (n : ℕ) {k : ℕ} (hk : 0 < k) : (decimal n).length ≤ k ↔ n < 10^k :=
  Nat.length_toDigits_le_iff (by decide) hk

theorem lt_pow_length_decimal (n : ℕ) : n < 10^(decimal n).length :=
  (decimal_length_le_iff n Nat.length_toDigits_pos).mp le_rfl

theorem length_decimal_eq {n k : ℕ} (hlow : k = 0 ∨ 10^k ≤ n) (hhigh : n < 10^(k+1)) :
    (decimal n).length = k+1 := by
  have hpos : 0 < (decimal n).length := Nat.length_toDigits_pos
  have hle : (decimal n).length ≤ k+1 := (decimal_length_le_iff n k.succ_pos).mpr hhigh
  rcases hlow with rfl | hlow
  · omega
  · have hshort : 0 < k → ¬(decimal n).length ≤ k := fun hk h =>
      absurd ((decimal_length_le_iff n hk).mp h) (by omega)
    omega

theorem ofDigitChars_decimal_append (n fraction : ℕ) : Nat.ofDigitChars 10 (decimal n++decimal fraction) 0 =
    n*10^(decimal fraction).length+fraction := by
  rw [Nat.ofDigitChars_append,Nat.ofDigitChars_eq_ofDigitChars_zero,decimal,decimal,
    Nat.ofDigitChars_ten_toDigits,Nat.ofDigitChars_ten_toDigits,Nat.mul_comm]

section Digits

variable {ds rest : List Char} (hds : ∀ c ∈ ds, c.isDigit) (hrest : ∀ c ∈ rest.head?, ¬c.isDigit)
include hds hrest

theorem takeWhile_digits : (ds++rest).takeWhile Char.isDigit = ds := by
  rw [List.takeWhile_append_of_pos hds]
  cases rest with
  | nil => simp
  | cons c rest => simp [hrest c (by simp)]

theorem dropWhile_digits : (ds++rest).dropWhile Char.isDigit = rest := by
  rw [List.dropWhile_append_of_pos hds]
  cases rest with
  | nil => rfl
  | cons c rest => simp [hrest c (by simp)]

end Digits

section Read

variable {rest : List Char} (hrest : ∀ c ∈ rest.head?, ¬c.isDigit)
include hrest

theorem readNumber_whole (hdot : rest.head? ≠ some '.') (n : ℕ) : readNumber (decimal n++rest) = (⟨n,0⟩,rest) := by
  have hds (c : Char) (hc : c ∈ decimal n) : c.isDigit := isDigit_of_mem_decimal hc
  unfold readNumber
  rw [takeWhile_digits hds hrest,dropWhile_digits hds hrest]
  split
  · exact absurd rfl hdot
  · simp [decimal,Nat.ofDigitChars_ten_toDigits]

theorem readNumber_fraction (n fraction : ℕ) : readNumber (decimal n++ '.'::(decimal fraction++rest)) =
    (⟨n*10^(decimal fraction).length+fraction,(decimal fraction).length⟩,rest) := by
  have hdot : ∀ c ∈ ('.'::(decimal fraction++rest)).head?, ¬c.isDigit := by simp
  have hds (n : ℕ) (c : Char) (hc : c ∈ decimal n) : c.isDigit := isDigit_of_mem_decimal hc
  unfold readNumber
  rw [takeWhile_digits (hds n) hdot,dropWhile_digits (hds n) hdot]
  simp only [takeWhile_digits (hds fraction) hrest,dropWhile_digits (hds fraction) hrest,ofDigitChars_decimal_append]

end Read

theorem isDigit_of_mem_padZero {width n : ℕ} {c : Char} (hc : c ∈ padZero width (decimal n)) : c.isDigit := by
  rcases List.mem_append.mp hc with hzero | hdigit
  · rw [(List.mem_replicate.mp hzero).2]
    decide
  · exact isDigit_of_mem_decimal hdigit

theorem ofDigitChars_zeros (k : ℕ) (ds : List Char) :
    Nat.ofDigitChars 10 (List.replicate k '0'++ds) 0 = Nat.ofDigitChars 10 ds 0 := by
  induction k with
  | zero => rfl
  | succ k ih =>
    rw [List.replicate_succ,List.cons_append,Nat.ofDigitChars_cons]
    exact ih

theorem ofDigitChars_padZero (width n : ℕ) : Nat.ofDigitChars 10 (padZero width (decimal n)) 0 = n := by
  rw [padZero,ofDigitChars_zeros,decimal,Nat.ofDigitChars_ten_toDigits]

theorem length_padZero (width : ℕ) (text : List Char) : (padZero width text).length = max width text.length := by
  simp only [padZero,List.length_append,List.length_replicate]
  omega

theorem readNumber_padZero {rest : List Char} (hrest : ∀ c ∈ rest.head?, ¬c.isDigit)
    (hdot : rest.head? ≠ some '.') (width n : ℕ) :
    readNumber (padZero width (decimal n)++rest) = (⟨n,0⟩,rest) := by
  have hds (c : Char) (hc : c ∈ padZero width (decimal n)) : c.isDigit := isDigit_of_mem_padZero hc
  unfold readNumber
  rw [takeWhile_digits hds hrest,dropWhile_digits hds hrest]
  split
  · exact absurd rfl hdot
  · simp only [ofDigitChars_padZero]

theorem readNumber_padZero_fraction {rest : List Char} (hrest : ∀ c ∈ rest.head?, ¬c.isDigit)
    (width n places fraction : ℕ) (hplaces : fraction < 10^places) (hpos : 0 < places) :
    readNumber (padZero width (decimal n)++ '.'::(padZero places (decimal fraction)++rest)) =
      (⟨n*10^places+fraction,places⟩,rest) := by
  have hdot : ∀ c ∈ ('.'::(padZero places (decimal fraction)++rest)).head?, ¬c.isDigit := by simp
  have hds (width n : ℕ) (c : Char) (hc : c ∈ padZero width (decimal n)) : c.isDigit := isDigit_of_mem_padZero hc
  have hlength : (padZero places (decimal fraction)).length = places := by
    rw [length_padZero,max_eq_left ((decimal_length_le_iff fraction hpos).mpr hplaces)]
  unfold readNumber
  rw [takeWhile_digits (hds width n) hdot,dropWhile_digits (hds width n) hdot]
  simp only [takeWhile_digits (hds places fraction) hrest,dropWhile_digits (hds places fraction) hrest,hlength]
  rw [Nat.ofDigitChars_append,Nat.ofDigitChars_eq_ofDigitChars_zero,ofDigitChars_padZero,ofDigitChars_padZero,
    hlength,Nat.mul_comm]

end DecimalText
end EnosKernel
