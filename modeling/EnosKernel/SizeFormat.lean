import EnosKernel.DecimalText
import EnosKernel.ShellCommands

/-! What a reader takes from the text of `format_bytes`: a decimal number and a unit.  The
kilobytes are cut off behind the tenths; of the megabytes the hundredths are taken to be
10240 bytes each and written without their leading zero. -/
namespace EnosKernel
namespace Shell

open RustStr DecimalText

structure Size where
  number : Number
  unit : ℕ
  deriving DecidableEq, Repr

def readUnit (text : List Char) : Option ℕ :=
  if text = " B".toList then some 1
  else if text = " KB".toList then some 1024
  else if text = " MB".toList then some (1024*1024)
  else none

/-- A printed size as it is read, with or without the sign for an approximation. -/
def readSize (text : List Char) : Option Size :=
  let text := if text.head? = some '~' then text.tail else text
  let (number,rest) := readNumber text
  (readUnit rest).map (⟨number,·⟩)

/-- The size printed with a fraction behind the whole units. -/
def Size.ofParts (unit whole fraction : ℕ) : Size where
  number := ⟨whole*10^(decimal fraction).length+fraction,(decimal fraction).length⟩
  unit := unit

def printedSize (bytes : ℕ) : Size :=
  if 1024*1024 ≤ bytes then
    .ofParts (1024*1024) (bytes/(1024*1024)) (bytes % (1024*1024)/(1024*10))
  else if 1024 ≤ bytes then .ofParts 1024 (bytes/1024) (bytes % 1024*10/1024)
  else ⟨⟨bytes,0⟩,1⟩

theorem readSize_approximation {unit : ℕ} {name : List Char} (hname : readUnit (' '::name) = some unit)
    (whole fraction : ℕ) : readSize ("~".toList++decimal whole++ ".".toList++decimal fraction++ ' '::name) =
      some (.ofParts unit whole fraction) := by
  have htext : "~".toList++decimal whole++ ".".toList++decimal fraction++ ' '::name =
      '~'::(decimal whole++ '.'::(decimal fraction++ ' '::name)) := by simp
  have hblank : ∀ c ∈ (' '::name).head?, ¬c.isDigit := by simp
  have hread := readNumber_fraction hblank whole fraction
  rw [htext,readSize,List.head?_cons,if_pos rfl,List.tail_cons,hread]
  simp only [hname,Option.map_some]
  rfl

theorem readSize_exact (n : ℕ) : readSize (decimal n++ " B".toList) = some ⟨⟨n,0⟩,1⟩ := by
  have hhead : (decimal n++ " B".toList).head? ≠ some '~' := by
    rw [List.head?_append_of_ne_nil (decimal n) Nat.toDigits_ne_nil]
    intro htilde
    exact absurd (isDigit_of_mem_decimal (List.mem_of_mem_head? htilde)) (by decide)
  rw [readSize]
  simp only [if_neg hhead]
  rw [readNumber_whole (by simp) (by simp)]
  rfl

theorem readSize_formatBytes (bytes : ℕ) : readSize (formatBytes bytes) = some (printedSize bytes) := by
  unfold formatBytes printedSize
  split_ifs with hmb hkb
  · exact readSize_approximation rfl _ _
  · exact readSize_approximation rfl _ _
  · exact readSize_exact bytes

/-- The size says how many whole last places of its unit there are in the bytes. -/
def Size.Approximates (s : Size) (bytes : ℕ) : Prop := s.number.Truncates (bytes/s.unit)

/-- The hundredths of a megabyte are the right ones and need no leading zero. -/
def HundredthsRight (bytes : ℕ) : Prop :=
  let rem := bytes % (1024*1024)
  rem/(1024*10) = rem*100/(1024*1024) ∧ (rem < 1024*10 ∨ 1024*100 ≤ rem)

instance (bytes : ℕ) : Decidable (HundredthsRight bytes) :=
  inferInstanceAs (Decidable (_ ∧ _))

/-- Only the fraction can be wrong. -/
theorem approximates_ofParts_iff {unit : ℕ} (hunit : 0 < unit) (bytes fraction : ℕ) :
    (Size.ofParts unit (bytes/unit) fraction).Approximates bytes ↔
      bytes % unit*10^(decimal fraction).length/unit = fraction := by
  have hsplit (p : ℕ) : bytes*p/unit = bytes/unit*p+bytes % unit*p/unit := by
    conv_lhs => rw [← Nat.div_add_mod bytes unit]
    rw [Nat.add_mul,Nat.mul_assoc,Nat.mul_add_div hunit]
  have hiff := Number.truncates_div_iff (Size.ofParts unit (bytes/unit) fraction).number bytes hunit
  rw [hsplit] at hiff
  exact hiff.trans Nat.add_left_cancel_iff

theorem approximates_kilobytes (bytes : ℕ) :
    (Size.ofParts 1024 (bytes/1024) (bytes % 1024*10/1024)).Approximates bytes := by
  have hplaces : (decimal (bytes % 1024*10/1024)).length = 1 := length_decimal_eq (.inl rfl) (by omega)
  rw [approximates_ofParts_iff (by decide),hplaces,Nat.pow_one]

theorem approximates_megabytes_iff (bytes : ℕ) :
    (Size.ofParts (1024*1024) (bytes/(1024*1024)) (bytes % (1024*1024)/(1024*10))).Approximates bytes ↔
      HundredthsRight bytes := by
  rw [approximates_ofParts_iff (by decide)]
  have hrem : bytes % (1024*1024) < 1024*1024 := Nat.mod_lt _ (by decide)
  unfold HundredthsRight
  generalize bytes % (1024*1024) = rem at hrem ⊢
  -- one, two or three digits behind the dot
  rcases Nat.lt_or_ge (rem/(1024*10)) 10 with hten | hten
  · have htenths : rem*10^(0+1)/(1024*1024) = 0 := by omega
    rw [length_decimal_eq (.inl rfl) hten,htenths]
    omega
  · rcases Nat.lt_or_ge (rem/(1024*10)) 100 with hhundred | hhundred
    · rw [length_decimal_eq (k := 1) (.inr hten) hhundred]
      omega
    · rw [length_decimal_eq (k := 2) (.inr hhundred) (by omega)]
      omega

theorem approximates_iff (bytes : ℕ) :
    (printedSize bytes).Approximates bytes ↔ bytes < 1024*1024 ∨ HundredthsRight bytes := by
  unfold printedSize
  split_ifs with hmb hkb
  · rw [approximates_megabytes_iff,or_iff_right (Nat.not_lt.mpr hmb)]
  · exact iff_of_true (approximates_kilobytes bytes) (.inl (Nat.not_le.mp hmb))
  · have hexact : (⟨⟨bytes,0⟩,1⟩ : Size).Approximates bytes :=
      (Number.truncates_div_iff _ bytes Nat.one_pos).mpr (by simp)
    exact iff_of_true hexact (.inl (Nat.not_le.mp hmb))

theorem value_ofParts_le {unit bytes more small large : ℕ} (hle : bytes ≤ more)
    (hplaces : (decimal small).length = (decimal large).length)
    (hfraction : bytes/unit = more/unit → small ≤ large) :
    (Size.ofParts unit (bytes/unit) small).number.value ≤ (Size.ofParts unit (more/unit) large).number.value := by
  rw [Number.value_le_iff hplaces]
  simp only [Size.ofParts,← hplaces]
  rcases (Nat.div_le_div_right (c := unit) hle).eq_or_lt with heq | hlt
  · rw [heq]
    exact Nat.add_le_add_left (hfraction heq) _
  · have hsmall : small < 10^(decimal small).length := lt_pow_length_decimal small
    calc bytes/unit*10^(decimal small).length+small
        ≤ (bytes/unit+1)*10^(decimal small).length := by rw [Nat.add_mul]; omega
      _ ≤ more/unit*10^(decimal small).length := Nat.mul_le_mul_right _ hlt
      _ ≤ _ := Nat.le_add_right _ _

theorem printedSize_value_le {bytes more : ℕ} (hle : bytes ≤ more)
    (hunit : (printedSize bytes).unit = (printedSize more).unit)
    (hplaces : (printedSize bytes).number.places = (printedSize more).number.places) :
    (printedSize bytes).number.value ≤ (printedSize more).number.value := by
  unfold printedSize at hunit hplaces ⊢
  by_cases hmb : 1024*1024 ≤ bytes
  · rw [if_pos hmb,if_pos (hmb.trans hle)] at hplaces ⊢
    exact value_ofParts_le hle hplaces (by omega)
  · by_cases hmore : 1024*1024 ≤ more
    · rw [if_neg hmb,if_pos hmore] at hunit
      split_ifs at hunit <;> cases hunit
    · by_cases hkb : 1024 ≤ bytes
      · rw [if_neg hmb,if_neg hmore,if_pos hkb,if_pos (hkb.trans hle)] at hplaces ⊢
        exact value_ofParts_le hle hplaces (by omega)
      · by_cases hmore' : 1024 ≤ more
        · rw [if_neg hmb,if_neg hmore,if_neg hkb,if_pos hmore'] at hunit
          cases hunit
        · rw [if_neg hmb,if_neg hmore,if_neg hkb,if_neg hmore']
          exact (Number.value_le_iff (x := ⟨bytes,0⟩) (y := ⟨more,0⟩) rfl).mpr hle

/-- The text can be read back.  The number in it is the size cut off behind its last digit
exactly below a megabyte and where the hundredths are right; larger sizes never read smaller. -/
theorem formatBytes_approximates_iff (bytes : ℕ) : ∃ size, readSize (formatBytes bytes) = some size ∧
    (size.Approximates bytes ↔ bytes < 1024*1024 ∨ HundredthsRight bytes) ∧
    ∀ more larger, bytes ≤ more → readSize (formatBytes more) = some larger → size.unit = larger.unit →
      size.number.places = larger.number.places → size.number.value ≤ larger.number.value := by
  refine ⟨_,readSize_formatBytes bytes,approximates_iff bytes,?_⟩
  intro more larger hle hlarger hunit hplaces
  cases (readSize_formatBytes more).symm.trans hlarger
  exact printedSize_value_le hle hunit hplaces

/-- Fifty kilobytes more than a megabyte are printed as one and a half. -/
theorem formatBytes_half_megabyte : formatBytes (1024*1024+50*1024) = "~1.5 MB".toList ∧
    readSize "~1.5 MB".toList = some ⟨⟨15,1⟩,1024*1024⟩ ∧
    ¬(⟨⟨15,1⟩,1024*1024⟩ : Size).Approximates (1024*1024+50*1024) := by
  refine ⟨by decide,by decide,?_⟩
  rw [Size.Approximates,Number.truncates_div_iff _ _ (by decide)]
  decide

end Shell
end EnosKernel
