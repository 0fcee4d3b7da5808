import Mathlib.Tactic
import Mathlib.Data.List.DropRight

/-! Strings of a Rust program as lists of Unicode scalar values, with the methods of `str`
and the formatting directives that programs of this kind use. -/
namespace EnosKernel
namespace RustStr

def bytes (text : List Char) : List UInt8 := text.flatMap String.utf8EncodeChar

def len (text : List Char) : ℕ := (bytes text).length

/-- `char::is_whitespace`, the Unicode property `White_Space`. -/
def isWhitespace (c : Char) : Bool :=
  c = ' ' || (0x09 ≤ c.toNat && c.toNat ≤ 0x0d) || c.toNat = 0x85 || c.toNat = 0xa0 || c.toNat = 0x1680 ||
    (0x2000 ≤ c.toNat && c.toNat ≤ 0x200a) || c.toNat = 0x2028 || c.toNat = 0x2029 || c.toNat = 0x202f ||
    c.toNat = 0x205f || c.toNat = 0x3000

def trimStart (text : List Char) : List Char := text.dropWhile isWhitespace

def trimEnd (text : List Char) : List Char := text.rdropWhile isWhitespace

def trim (text : List Char) : List Char := trimEnd (trimStart text)

/-- The non-empty pieces between whitespace. -/
def splitWhitespace (text : List Char) : List (List Char) :=
  (text.splitOnP isWhitespace).filter (· ≠ [])

/-- At most `n` pieces; the last one is what is left. -/
def splitn : ℕ → Char → List Char → List (List Char)
  | 0, _, _ => []
  | 1, _, text => [text]
  | n+2, separator, text =>
    match text.dropWhile (· ≠ separator) with
    | [] => [text]
    | _::rest => text.takeWhile (· ≠ separator)::splitn (n+1) separator rest

def stripPrefix (front text : List Char) : Option (List Char) :=
  if front.isPrefixOf text then some (text.drop front.length) else none

def pushDigit (value : Option ℕ) (c : Char) : Option ℕ :=
  value.bind fun value =>
    if c.isDigit then some (value*10+(c.toNat - '0'.toNat)) else none

/-- `parse` to an unsigned integer of `w` bits: an optional plus sign and decimal digits. -/
def parseUnsigned (w : ℕ) (text : List Char) : Option ℕ :=
  let digits := match text with
    | '+'::rest => rest
    | _ => text
  if digits = [] then none
  else (digits.foldl pushDigit (some 0)).filter (· < 2^w)

def decimal (n : ℕ) : List Char := Nat.toDigits 10 n

def decimalInt (z : ℤ) : List Char :=
  if z < 0 then '-'::decimal z.natAbs else decimal z.natAbs

/-- Left-aligned, as with a width and `<`. -/
def padRight (width : ℕ) (text : List Char) : List Char :=
  text++List.replicate (width-text.length) ' '

/-- Right-aligned, as with a width and `>`. -/
def padLeft (width : ℕ) (text : List Char) : List Char :=
  List.replicate (width-text.length) ' '++text

/-- Filled up with zeros, as with a width that starts with `0`. -/
def padZero (width : ℕ) (text : List Char) : List Char :=
  List.replicate (width-text.length) '0'++text

/-- Hexadecimal with the `0x` marker, upper case and filled up with zeros. -/
def hexUpper (width n : ℕ) : List Char :=
  '0':: 'x'::padZero (width-2) ((Nat.toDigits 16 n).map Char.toUpper)

/-- Hexadecimal with the `0x` marker. -/
def hexLower (n : ℕ) : List Char := '0':: 'x'::Nat.toDigits 16 n

/-- `core::str::from_utf8`. -/
def fromUtf8 (bs : List UInt8) : Option (List Char) := (String.fromUTF8? bs.toByteArray).map String.toList

@[simp] theorem bytes_append (a b : List Char) : bytes (a++b) = bytes a++bytes b := by simp [bytes]

theorem bytes_cons (c : Char) (text : List Char) : bytes (c::text) = String.utf8EncodeChar c++bytes text := rfl

/-- Only printable ASCII characters, `0x20` to `0x7e`. -/
def Printable (text : List Char) : Prop := ∀ c ∈ text, 0x20 ≤ c.toNat ∧ c.toNat ≤ 0x7e

instance (text : List Char) : Decidable (Printable text) :=
  List.decidableBAll (fun c : Char => 0x20 ≤ c.toNat ∧ c.toNat ≤ 0x7e) text

namespace Printable

variable {text : List Char}

theorem nil : Printable [] := by simp [Printable]

theorem append {a b : List Char} (ha : Printable a) (hb : Printable b) : Printable (a++b) := by
  intro c hc
  rcases List.mem_append.mp hc with hc | hc
  · exact ha c hc
  · exact hb c hc

theorem sublist {a b : List Char} (hb : Printable b) (h : a.Sublist b) : Printable a :=
  fun c hc => hb c (h.subset hc)

theorem bytes_eq (h : Printable text) : bytes text = text.map fun c => UInt8.ofNat c.toNat := by
  induction text with
  | nil => rfl
  | cons c text ih =>
    have hc : c.toNat ≤ 0x7f := (h c (by simp)).2.trans (by decide)
    rw [bytes_cons,List.map_cons,ih fun d hd => h d (List.mem_cons_of_mem _ hd)]
    simp [String.utf8EncodeChar,hc]

theorem len_eq (h : Printable text) : len text = text.length := by rw [len,h.bytes_eq,List.length_map]

theorem bytes_take (h : Printable text) (n : ℕ) : bytes (text.take n) = (bytes text).take n := by
  rw [h.bytes_eq,(h.sublist (List.take_sublist n text)).bytes_eq,List.map_take]

theorem byte_mem (h : Printable text) {b : UInt8} (hb : b ∈ bytes text) : 0x20 ≤ b ∧ b ≤ 0x7e := by
  rw [h.bytes_eq] at hb
  obtain ⟨c,hc,rfl⟩ := List.mem_map.mp hb
  obtain ⟨hlow,hhigh⟩ := h c hc
  have hval : (UInt8.ofNat c.toNat).toNat = c.toNat :=
    UInt8.toNat_ofNat_of_lt (hhigh.trans_lt (by decide))
  exact ⟨UInt8.le_iff_toNat_le.mpr (by rw [hval]; exact hlow),UInt8.le_iff_toNat_le.mpr (by rw [hval]; exact hhigh)⟩

end Printable

theorem trim_sublist (text : List Char) : (trim text).Sublist text :=
  (List.rdropWhile_prefix _ _).sublist.trans (List.dropWhile_sublist _)

theorem head_trim {text : List Char} {c : Char} (h : (trim text).head? = some c) : isWhitespace c = false := by
  obtain ⟨rest,hrest⟩ := List.rdropWhile_prefix isWhitespace (trimStart text)
  have hstart : (trimStart text).head? = some c := by
    rw [← hrest,List.head?_append]
    simp only [trim,trimEnd] at h
    rw [h]
    rfl
  have hnot := List.head?_dropWhile_not isWhitespace text
  rw [trimStart] at hstart
  rw [hstart] at hnot
  simpa using hnot

theorem getLast_trim {text : List Char} {c : Char} (h : (trim text).getLast? = some c) :
    isWhitespace c = false := by
  have hne : (trimStart text).rdropWhile isWhitespace ≠ [] := by
    intro hnil
    simp [trim,trimEnd,hnil] at h
  have hnot := List.rdropWhile_last_not isWhitespace (trimStart text) hne
  rw [trim,trimEnd,List.getLast?_eq_some_getLast hne] at h
  rw [Option.some.inj h] at hnot
  simpa using hnot

theorem splitWhitespace_cons_of_whitespace {c : Char} (h : isWhitespace c = true) (text : List Char) :
    splitWhitespace (c::text) = splitWhitespace text := by
  simp [splitWhitespace,List.splitOnP_cons_eq_if_modifyHead,h]

theorem splitWhitespace_trimStart (text : List Char) :
    splitWhitespace (trimStart text) = splitWhitespace text := by
  induction text with
  | nil => rfl
  | cons c text ih =>
    by_cases hc : isWhitespace c = true
    · rw [trimStart,List.dropWhile_cons_of_pos hc,splitWhitespace_cons_of_whitespace hc]
      exact ih
    · rw [trimStart,List.dropWhile_cons_of_neg hc]

theorem splitOnP_concat {p : Char → Bool} {c : Char} (h : p c = true) (text : List Char) :
    (text++[c]).splitOnP p = text.splitOnP p++[[]] := by
  induction text with
  | nil => simp [List.splitOnP_cons_eq_if_modifyHead,h]
  | cons a text ih =>
    obtain ⟨piece,pieces,hpieces⟩ := List.exists_cons_of_ne_nil (List.splitOnP_ne_nil p text)
    rw [List.cons_append,List.splitOnP_cons_eq_if_modifyHead,List.splitOnP_cons_eq_if_modifyHead,ih,hpieces]
    by_cases ha : p a = true <;> simp [ha]

theorem splitWhitespace_trimEnd (text : List Char) :
    splitWhitespace (trimEnd text) = splitWhitespace text := by
  induction text using List.reverseRecOn with
  | nil => rfl
  | append_singleton text c ih =>
    by_cases hc : isWhitespace c = true
    · rw [trimEnd,List.rdropWhile_concat_pos _ _ _ hc]
      have hsplit : splitWhitespace (text++[c]) = splitWhitespace text := by
        simp [splitWhitespace,splitOnP_concat hc]
      rw [hsplit]
      exact ih
    · rw [trimEnd,List.rdropWhile_concat_neg _ _ _ hc]

theorem splitWhitespace_trim (text : List Char) : splitWhitespace (trim text) = splitWhitespace text := by
  rw [trim,splitWhitespace_trimEnd,splitWhitespace_trimStart]

theorem splitn_append (n : ℕ) {separator : Char} {word : List Char} (h : separator ∉ word)
    (rest : List Char) :
    splitn (n+2) separator (word++separator::rest) = word::splitn (n+1) separator rest := by
  have hword : ∀ c ∈ word, decide (c ≠ separator) = true := fun c hc => by
    simpa using ne_of_mem_of_not_mem hc h
  rw [splitn,List.dropWhile_append_of_pos hword,List.takeWhile_append_of_pos hword]
  simp

theorem splitWhitespace_eq_cons {text word : List Char} {words : List (List Char)}
    (h : splitWhitespace text = word::words) : ∃ gap rest, text = gap++(word++rest) ∧
      (∀ c ∈ gap, isWhitespace c = true) ∧ (∀ c ∈ word, isWhitespace c = false) ∧ word ≠ [] ∧
      (∀ c, rest.head? = some c → isWhitespace c = true) ∧ splitWhitespace rest = words := by
  induction text with
  | nil => simp [splitWhitespace] at h
  | cons c text ih =>
    by_cases hc : isWhitespace c = true
    · rw [splitWhitespace_cons_of_whitespace hc] at h
      obtain ⟨gap,rest,rfl,hgap,hrest⟩ := ih h
      refine ⟨c::gap,rest,rfl,?_,hrest⟩
      simpa [hc] using hgap
    · let front := (c::text).takeWhile fun c => !isWhitespace c
      have hfront : ∀ c ∈ front, isWhitespace c = false := fun c hc => by
        simpa using List.mem_takeWhile_imp hc
      have hne : front ≠ [] := by simp [front,hc]
      have htext : c::text = front++(c::text).dropWhile fun c => !isWhitespace c :=
        (List.takeWhile_append_dropWhile).symm
      have hhead := List.head?_dropWhile_not (fun c => !isWhitespace c) (c::text)
      generalize (c::text).dropWhile (fun c => !isWhitespace c) = rest at htext hhead
      have hsplit : splitWhitespace (c::text) = front::splitWhitespace rest := by
        rw [htext]
        cases rest with
        | nil => simp [splitWhitespace,List.splitOnP_eq_singleton hfront,hne]
        | cons d rest =>
          have hd : isWhitespace d = true := by simpa using hhead
          rw [splitWhitespace_cons_of_whitespace hd]
          simp [splitWhitespace,List.splitOnP_append_cons_of_forall_mem hfront d hd,hne]
      obtain ⟨rfl,rfl⟩ := List.cons.inj (hsplit.symm.trans h)
      refine ⟨[],rest,htext,by simp,hfront,hne,?_,rfl⟩
      intro d hd
      simpa [hd] using hhead

/-- Bytes are accepted exactly if they are those of a string, and then as that string. -/
theorem fromUtf8_eq_some {bs : List UInt8} {text : List Char} : fromUtf8 bs = some text ↔ bytes text = bs := by
  rw [← List.toByteArray_inj]
  change _ ↔ text.utf8Encode = _
  unfold fromUtf8 String.fromUTF8?
  constructor
  · intro h
    split_ifs at h with hvalid
    · rw [← Option.some.inj h,String.utf8Encode_toList]
      rfl
    · simp at h
  · intro h
    have hvalid : bs.toByteArray.IsValidUTF8 := ⟨text,h.symm⟩
    have hstring : String.fromUTF8 bs.toByteArray hvalid = String.ofList text := by
      rw [← String.toByteArray_inj,String.toByteArray_ofList]
      exact h.symm
    rw [dif_pos hvalid,Option.map_some,hstring,String.toList_ofList]

end RustStr
end EnosKernel
