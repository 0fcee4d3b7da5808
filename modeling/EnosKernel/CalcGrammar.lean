import Mathlib.Data.List.TakeWhile
import EnosKernel.CalcParsing

/-! The calculator's grammar: expression trees by level, their value in checked 64-bit
arithmetic, and the byte strings that spell them. -/
namespace EnosKernel
namespace Calculator

open SignedArith

inductive Level
  | expr
  | term
  | factor

/-- Left-associative chains of sums and products over signed, parenthesised and plain numbers. -/
inductive Tree : Level → Type
  | number (digits : List UInt8) : Tree .factor
  | plus (f : Tree .factor) : Tree .factor
  | minus (f : Tree .factor) : Tree .factor
  | paren (e : Tree .expr) : Tree .factor
  | factor (f : Tree .factor) : Tree .term
  | product (op : ProductOp) (t : Tree .term) (f : Tree .factor) : Tree .term
  | term (t : Tree .term) : Tree .expr
  | sum (op : SumOp) (e : Tree .expr) (t : Tree .term) : Tree .expr

def digitValue (b : UInt8) : ℤ := b.toNat-0x30

def literal (value : ℤ) (digits : List UInt8) : ℤ :=
  digits.foldl (fun value b => value*10+digitValue b) value

/-- Evaluation fails as soon as one node does. -/
def Tree.eval : {k : Level} → Tree k → Option ℤ
  | _, .number digits => checked 64 (literal 0 digits)
  | _, .plus f => f.eval
  | _, .minus f => f.eval.bind (checkedNeg 64)
  | _, .paren e => e.eval
  | _, .factor f => f.eval
  | _, .product op t f => t.eval.bind fun a => f.eval.bind fun b => op.apply a b
  | _, .term t => t.eval
  | _, .sum op e t => e.eval.bind fun a => t.eval.bind fun b => op.apply a b

def Whitespace (w : List UInt8) : Prop := ∀ b ∈ w,isAsciiWhitespace b = true

def Digits (ds : List UInt8) : Prop := ds ≠ [] ∧ ∀ b ∈ ds,isAsciiDigit b = true

instance whitespaceDecidable (w : List UInt8) : Decidable (Whitespace w) :=
  List.decidableBAll (fun b => isAsciiWhitespace b = true) w

instance digitsDecidable (ds : List UInt8) : Decidable (Digits ds) :=
  @instDecidableAnd _ _ _ (List.decidableBAll (fun b => isAsciiDigit b = true) ds)

/-- Whitespace may stand before every token. -/
inductive Spells : {k : Level} → Tree k → List UInt8 → Prop
  | number {w ds : List UInt8} (hw : Whitespace w) (hds : Digits ds) : Spells (.number ds) (w++ds)
  | plus {w s : List UInt8} {f : Tree .factor} (hw : Whitespace w) (hf : Spells f s) :
      Spells (.plus f) (w++0x2B::s)
  | minus {w s : List UInt8} {f : Tree .factor} (hw : Whitespace w) (hf : Spells f s) :
      Spells (.minus f) (w++0x2D::s)
  | paren {w s w' : List UInt8} {e : Tree .expr} (hw : Whitespace w) (he : Spells e s)
      (hw' : Whitespace w') : Spells (.paren e) (w++0x28::(s++(w'++[0x29])))
  | factor {s : List UInt8} {f : Tree .factor} (hf : Spells f s) : Spells (.factor f) s
  | product {s w s' : List UInt8} {t : Tree .term} {f : Tree .factor} {b : UInt8} {op : ProductOp}
      (ht : Spells t s) (hw : Whitespace w) (hop : productOps.lookup b = some op) (hf : Spells f s') :
      Spells (.product op t f) (s++(w++b::s'))
  | term {s : List UInt8} {t : Tree .term} (ht : Spells t s) : Spells (.term t) s
  | sum {s w s' : List UInt8} {e : Tree .expr} {t : Tree .term} {b : UInt8} {op : SumOp}
      (he : Spells e s) (hw : Whitespace w) (hop : sumOps.lookup b = some op) (ht : Spells t s') :
      Spells (.sum op e t) (s++(w++b::s'))

theorem Spells.ne_nil {k : Level} {t : Tree k} {s : List UInt8} (h : Spells t s) : s ≠ [] := by
  induction h with
  | number hw hds => simp [hds.1]
  | plus => simp
  | minus => simp
  | paren => simp
  | factor _ ih => exact ih
  | product => simp
  | term _ ih => exact ih
  | sum => simp

theorem Whitespace.append {w w' : List UInt8} (h : Whitespace w) (h' : Whitespace w') :
    Whitespace (w++w') := by
  intro b hb
  rcases List.mem_append.mp hb with hb | hb
  · exact h b hb
  · exact h' b hb

theorem Whitespace.nil : Whitespace [] := by simp [Whitespace]

theorem Whitespace.dropWhile_append {w r : List UInt8} (h : Whitespace w) :
    (w++r).dropWhile isAsciiWhitespace = r.dropWhile isAsciiWhitespace := by
  induction w with
  | nil => rfl
  | cons b w ih =>
    rw [List.cons_append,List.dropWhile_cons_of_pos (h b (by simp))]
    exact ih fun c hc => h c (by simp [hc])

theorem mem_of_lookup {τ : Type} {table : List (UInt8 × τ)} {b : UInt8} {t : τ}
    (h : table.lookup b = some t) : (b,t) ∈ table := by
  obtain ⟨before,after,rfl,-⟩ := List.lookup_eq_some_iff.mp h
  simp

namespace CalcParser

variable {τ : Type} {table : List (UInt8 × τ)} {p : CalcParser}

theorem skipWs_split (p : CalcParser) : ∃ w, Whitespace w ∧ p.rest = w++p.skipWs.rest := by
  refine ⟨p.rest.takeWhile isAsciiWhitespace,?_,?_⟩
  · exact fun b hb => List.mem_takeWhile_imp hb
  · rw [skipWs_rest,List.takeWhile_append_dropWhile]

theorem token_split {t : τ} {p₁ : CalcParser} (h : p.token table = some (t,p₁)) :
    ∃ w b, Whitespace w ∧ table.lookup b = some t ∧ p.rest = w++b::p₁.rest := by
  obtain ⟨w,hw,hrest⟩ := p.skipWs_split
  cases hr : p.skipWs.rest with
  | nil => simp [token,hr] at h
  | cons b r =>
    rw [token_of_rest hr,Option.map_eq_some_iff] at h
    obtain ⟨t',hlookup,heq⟩ := h
    simp only [Prod.mk.injEq] at heq
    obtain ⟨rfl,rfl⟩ := heq
    have hlt := lt_of_rest hr
    exact ⟨w,b,hw,hlookup,by rw [hrest,hr,(getElem_of_rest hr hlt).2]⟩

theorem token_of_split {w r : List UInt8} {b : UInt8} {t : τ} (hw : Whitespace w)
    (hb : isAsciiWhitespace b = false) (hlookup : table.lookup b = some t) (hrest : p.rest = w++b::r) :
    ∃ p₁, p.token table = some (t,p₁) ∧ p₁.rest = r := by
  have hskip : p.skipWs.rest = b::r := by
    rw [skipWs_rest,hrest,hw.dropWhile_append,List.dropWhile_cons_of_neg (by simp [hb])]
  have hlt := lt_of_rest hskip
  exact ⟨p.skipWs.advance,by rw [token_of_rest hskip,hlookup]; rfl,(getElem_of_rest hskip hlt).2⟩

end CalcParser

end Calculator
end EnosKernel
