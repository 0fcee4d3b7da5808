import EnosKernel.CalcAnswers
import EnosKernel.DecimalText

/-! Typing a result of the calculator back.  The sign is an operator on a literal that is
never negative, so the printed text of the least word is refused. -/
namespace EnosKernel
namespace Calculator

open SignedArith RustStr DecimalText

theorem SumOp.fits_of_apply (op : SumOp) {a b v : ℤ} (h : op.apply a b = some v) : Fits 64 v := by
  cases op with
  | add => exact fits_of_checked h
  | sub => exact fits_of_checked h

theorem ProductOp.fits_of_apply (op : ProductOp) {a b v : ℤ} (ha : Fits 64 a) (h : op.apply a b = some v) :
    Fits 64 v := by
  cases op with
  | mul => exact fits_of_checked h
  | div =>
    rw [ProductOp.apply,checkedDiv] at h
    split_ifs at h
    exact fits_of_checked h
  | rem =>
    rw [ProductOp.apply,checkedRem] at h
    split_ifs at h
    exact Option.some.inj h ▸ ha.tmod b

theorem Tree.fits_of_eval {k : Level} (t : Tree k) {v : ℤ} (h : t.eval = some v) : Fits 64 v := by
  induction t generalizing v with
  | number digits => exact fits_of_checked h
  | plus f ih => exact ih h
  | minus f ih =>
    obtain ⟨a,-,hneg⟩ := Option.bind_eq_some_iff.mp h
    exact fits_of_checked hneg
  | paren e ih => exact ih h
  | factor f ih => exact ih h
  | product op t f iht _ =>
    obtain ⟨a,ha,hrhs⟩ := Option.bind_eq_some_iff.mp h
    obtain ⟨b,-,happly⟩ := Option.bind_eq_some_iff.mp hrhs
    exact op.fits_of_apply (iht ha) happly
  | term t ih => exact ih h
  | sum op e t _ _ =>
    obtain ⟨a,-,hrhs⟩ := Option.bind_eq_some_iff.mp h
    obtain ⟨b,-,happly⟩ := Option.bind_eq_some_iff.mp hrhs
    exact op.fits_of_apply happly

theorem fits_of_ok {expr : String} {v : ℤ} (h : evalCalcExpression expr = some (.ok v)) : Fits 64 v := by
  obtain ⟨t,-,-,-,-,-,hv⟩ := denotes_of_ok h
  exact t.fits_of_eval hv

theorem bytes_new (text : List Char) : (CalcParser.new (String.ofList text)).bytes = bytes text := by
  simp [CalcParser.new,bytes,List.utf8Encode]

section Digit
variable {c : Char} (hc : c.isDigit)
include hc

theorem isDigit_toNat : 0x30 ≤ c.toNat ∧ c.toNat ≤ 0x39 := by
  simpa [Char.isDigit,UInt32.le_iff_toNat_le] using hc

theorem toNat_digit : (UInt8.ofNat c.toNat).toNat = c.toNat :=
  UInt8.toNat_ofNat_of_lt' (lt_of_le_of_lt (isDigit_toNat hc).2 (by decide))

theorem isAsciiDigit_digit : isAsciiDigit (UInt8.ofNat c.toNat) = true := by
  obtain ⟨hlow,hhigh⟩ := isDigit_toNat hc
  simp [isAsciiDigit,UInt8.le_iff_toNat_le,toNat_digit hc,hlow,hhigh]

theorem digitValue_digit : digitValue (UInt8.ofNat c.toNat) = (c.toNat - '0'.toNat : ℕ) := by
  have hlow := (isDigit_toNat hc).1
  have hzero : '0'.toNat = 0x30 := rfl
  rw [digitValue,toNat_digit hc]
  omega

end Digit

theorem bytes_decimal (n : ℕ) : bytes (decimal n) = (decimal n).map fun c => UInt8.ofNat c.toNat := by
  have hprintable : Printable (decimal n) := by
    intro c hc
    have hdigit := isDigit_toNat (isDigit_of_mem_decimal hc)
    omega
  exact hprintable.bytes_eq

theorem literal_digits {text : List Char} (h : ∀ c ∈ text,c.isDigit) (value : ℕ) :
    literal value (text.map fun c => UInt8.ofNat c.toNat) = Nat.ofDigitChars 10 text value := by
  induction text generalizing value with
  | nil => rfl
  | cons c text ih =>
    rw [List.map_cons,literal_cons,digitValue_digit (h c (by simp)),Nat.ofDigitChars_cons,
      ← ih fun d hd => h d (by simp [hd])]
    congr 1
    push_cast
    ring

theorem literal_decimal (n : ℕ) : literal 0 (bytes (decimal n)) = n := by
  have hread := literal_digits (fun c hc => isDigit_of_mem_decimal (n := n) hc) 0
  rwa [← bytes_decimal,decimal,Nat.ofDigitChars_ten_toDigits] at hread

theorem digits_decimal (n : ℕ) : Digits (bytes (decimal n)) := by
  rw [bytes_decimal]
  refine ⟨fun h => Nat.toDigits_ne_nil (List.map_eq_nil_iff.mp h),fun b hb => ?_⟩
  obtain ⟨c,hc,rfl⟩ := List.mem_map.mp hb
  exact isAsciiDigit_digit (isDigit_of_mem_decimal hc)

def printedTree (v : ℤ) : Tree .expr :=
  if v < 0 then .term (.factor (.minus (.number (bytes (decimal v.natAbs)))))
  else .term (.factor (.number (bytes (decimal v.natAbs))))

theorem spells_printedTree (v : ℤ) : Spells (printedTree v) (bytes (decimalInt v)) := by
  have hnumber : Spells (.number (bytes (decimal v.natAbs))) ([]++bytes (decimal v.natAbs)) :=
    .number .nil (digits_decimal _)
  unfold printedTree decimalInt
  split_ifs
  · exact .term (.factor (.minus (w := []) .nil hnumber))
  · exact .term (.factor hnumber)

/-- Every word but the least one is the answer to its own text. -/
theorem answer_printedTree {v : ℤ} (h : Fits 64 v) :
    (printedTree v).answer = if v = minValue 64 then .error "integer overflow" else .ok v := by
  have hmin : minValue 64 = -2^63 := rfl
  have hmax : maxValue 64 = 2^63-1 := rfl
  unfold printedTree
  split_ifs with hneg hleast hleast
  · have hno : ¬Fits 64 (v.natAbs : ℤ) := by unfold Fits; omega
    rw [Tree.answer,Tree.answer,Tree.answer,Tree.answer,literal_decimal,checked_eq_none.mpr hno]
    rfl
  · have hword : Fits 64 (v.natAbs : ℤ) := by unfold Fits at h ⊢; omega
    have hv : -(v.natAbs : ℤ) = v := by omega
    rw [Tree.answer,Tree.answer,Tree.answer,Tree.answer,literal_decimal,overflowOr_checked hword,
      MachineArith.ok_bind,checkedNeg,hv]
    exact overflowOr_checked h
  · omega
  · have hv : (v.natAbs : ℤ) = v := by omega
    rw [Tree.answer,Tree.answer,Tree.answer,literal_decimal,hv]
    exact overflowOr_checked h

/-- A result of the calculator is the answer to its own text, unless it is the least word,
whose magnitude is no word. -/
theorem typed_back {expr : String} {v : ℤ} (h : evalCalcExpression expr = some (.ok v)) :
    (v ≠ minValue 64 → evalCalcExpression (String.ofList (decimalInt v)) = some (.ok v)) ∧
    (v = minValue 64 → evalCalcExpression (String.ofList (decimalInt v)) = some (.error "integer overflow")) := by
  have hbytes : (CalcParser.new (String.ofList (decimalInt v))).bytes = bytes (decimalInt v)++[] := by
    rw [bytes_new,List.append_nil]
  rw [evalCalcExpression_of_spells (spells_printedTree v) .nil hbytes,answer_printedTree (fits_of_ok h)]
  exact ⟨fun hv => by rw [if_neg hv],fun hv => by rw [if_pos hv]⟩

theorem typed_back_negative : evalCalcExpression "8-50" = some (.ok (-42)) ∧
    evalCalcExpression (String.ofList (decimalInt (-42))) = some (.ok (-42)) := by
  have hresult : evalCalcExpression "8-50" = some (.ok (-42)) := by decide +kernel
  exact ⟨hresult,(typed_back hresult).1 (by decide)⟩

theorem least_not_typed_back : evalCalcExpression "-9223372036854775807-1" = some (.ok (minValue 64)) ∧
    String.ofList (decimalInt (minValue 64)) = "-9223372036854775808" ∧
    evalCalcExpression "-9223372036854775808" = some (.error "integer overflow") := by
  exact ⟨by decide +kernel,by decide +kernel,by decide +kernel⟩

end Calculator
end EnosKernel
