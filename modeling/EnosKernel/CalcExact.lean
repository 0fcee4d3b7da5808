import EnosKernel.CalcAnswers

/-! The calculator against unbounded integers.  Where every value of a tree is a word, the
answer is exact, but for the remainder of the least word by `-1`: it is zero, and refused
because the quotient is no word. -/
namespace EnosKernel
namespace Calculator

open SignedArith

def SumOp.exact : SumOp → ℤ → ℤ → ℤ
  | .add => (·+·)
  | .sub => (·-·)

/-- Division truncates towards zero, and the remainder has the sign of the dividend. -/
def ProductOp.exact : ProductOp → ℤ → ℤ → ℤ
  | .mul => (·*·)
  | .div => Int.tdiv
  | .rem => Int.tmod

namespace Tree

def exact : {k : Level} → Tree k → ℤ
  | _, .number digits => literal 0 digits
  | _, .plus f => f.exact
  | _, .minus f => -f.exact
  | _, .paren e => e.exact
  | _, .factor f => f.exact
  | _, .product op t f => op.exact t.exact f.exact
  | _, .term t => t.exact
  | _, .sum op e t => op.exact e.exact t.exact

/-- The value of every subtree is a word and no divisor is zero. -/
def InRange : {k : Level} → Tree k → Prop
  | _, .number digits => Fits 64 (literal 0 digits)
  | _, .plus f => f.InRange
  | _, .minus f => f.InRange ∧ Fits 64 (-f.exact)
  | _, .paren e => e.InRange
  | _, .factor f => f.InRange
  | _, .product op t f =>
    t.InRange ∧ f.InRange ∧ (op ≠ .mul → f.exact ≠ 0) ∧ Fits 64 (op.exact t.exact f.exact)
  | _, .term t => t.InRange
  | _, .sum op e t => e.InRange ∧ t.InRange ∧ Fits 64 (op.exact e.exact t.exact)

/-- Nowhere in the tree is the remainder of the least word by `-1`. -/
def NoLeastRemainder : {k : Level} → Tree k → Prop
  | _, .number _ => True
  | _, .plus f => f.NoLeastRemainder
  | _, .minus f => f.NoLeastRemainder
  | _, .paren e => e.NoLeastRemainder
  | _, .factor f => f.NoLeastRemainder
  | _, .product op t f =>
    t.NoLeastRemainder ∧ f.NoLeastRemainder ∧ ¬(op = .rem ∧ t.exact = minValue 64 ∧ f.exact = -1)
  | _, .term t => t.NoLeastRemainder
  | _, .sum _ e t => e.NoLeastRemainder ∧ t.NoLeastRemainder

instance inRangeDecidable : {k : Level} → (t : Tree k) → Decidable t.InRange
  | _, .number digits => fitsDecidable 64 (literal 0 digits)
  | _, .plus f => inRangeDecidable f
  | _, .minus f => @instDecidableAnd _ _ (inRangeDecidable f) _
  | _, .paren e => inRangeDecidable e
  | _, .factor f => inRangeDecidable f
  | _, .product _ t f => @instDecidableAnd _ _ (inRangeDecidable t) (@instDecidableAnd _ _ (inRangeDecidable f) _)
  | _, .term t => inRangeDecidable t
  | _, .sum _ e t => @instDecidableAnd _ _ (inRangeDecidable e) (@instDecidableAnd _ _ (inRangeDecidable t) _)

instance noLeastRemainderDecidable : {k : Level} → (t : Tree k) → Decidable t.NoLeastRemainder
  | _, .number _ => .isTrue trivial
  | _, .plus f => noLeastRemainderDecidable f
  | _, .minus f => noLeastRemainderDecidable f
  | _, .paren e => noLeastRemainderDecidable e
  | _, .factor f => noLeastRemainderDecidable f
  | _, .product _ t f =>
    @instDecidableAnd _ _ (noLeastRemainderDecidable t) (@instDecidableAnd _ _ (noLeastRemainderDecidable f) _)
  | _, .term t => noLeastRemainderDecidable t
  | _, .sum _ e t => @instDecidableAnd _ _ (noLeastRemainderDecidable e) (noLeastRemainderDecidable t)

end Tree

theorem SumOp.answer_exact {op : SumOp} {a b : ℤ} (h : Fits 64 (op.exact a b)) :
    op.answer a b = .ok (op.exact a b) := by
  cases op with
  | add => exact overflowOr_checked h
  | sub => exact overflowOr_checked h

/-- The remainder is the one operation that is refused although its value is a word. -/
theorem ProductOp.answer_exact {op : ProductOp} {a b : ℤ} (hb : op ≠ .mul → b ≠ 0)
    (h : Fits 64 (op.exact a b)) : op.answer a b =
      if op = .rem ∧ a = minValue 64 ∧ b = -1 then .error "integer overflow" else .ok (op.exact a b) := by
  have hzero : ¬(op ≠ .mul ∧ b = 0) := fun hdiv => hb hdiv.1 hdiv.2
  rw [ProductOp.answer,if_neg hzero]
  cases op with
  | mul =>
    rw [if_neg (by simp)]
    exact overflowOr_checked h
  | div =>
    rw [if_neg (by simp),ProductOp.apply,checkedDiv,if_neg (hb (by decide))]
    exact overflowOr_checked h
  | rem =>
    have hb' : b ≠ 0 := hb (by decide)
    by_cases hleast : a = minValue 64 ∧ b = -1
    · rw [if_pos ⟨rfl,hleast⟩,ProductOp.apply,checkedRem,if_pos (.inr hleast)]
      rfl
    · rw [if_neg (by simp [hleast]),ProductOp.apply,checkedRem,if_neg (by simp [hb',hleast])]
      rfl

theorem Tree.answer_of_inRange {k : Level} (t : Tree k) (h : t.InRange) :
    t.NoLeastRemainder ∧ t.answer = .ok t.exact ∨
    ¬t.NoLeastRemainder ∧ t.answer = .error "integer overflow" := by
  induction t with
  | number digits => exact .inl ⟨trivial,overflowOr_checked h⟩
  | plus f ih => exact ih h
  | minus f ih =>
    rcases ih h.1 with ⟨hf,hanswer⟩ | ⟨hf,hanswer⟩
    · refine .inl ⟨hf,?_⟩
      rw [answer,hanswer]
      exact overflowOr_checked h.2
    · refine .inr ⟨hf,?_⟩
      rw [answer,hanswer]
      rfl
  | paren e ih => exact ih h
  | factor f ih => exact ih h
  | product op t f iht ihf =>
    obtain ⟨ht,hf,hzero,hfits⟩ := h
    rcases iht ht with ⟨hleft,hlanswer⟩ | ⟨hleft,hlanswer⟩
    · rcases ihf hf with ⟨hright,hranswer⟩ | ⟨hright,hranswer⟩
      · rw [answer,hlanswer,hranswer,MachineArith.ok_bind,MachineArith.ok_bind,
          ProductOp.answer_exact hzero hfits]
        by_cases hleast : op = .rem ∧ t.exact = minValue 64 ∧ f.exact = -1
        · exact .inr ⟨fun hall => hall.2.2 hleast,if_pos hleast⟩
        · exact .inl ⟨⟨hleft,hright,hleast⟩,if_neg hleast⟩
      · refine .inr ⟨fun hall => hright hall.2.1,?_⟩
        rw [answer,hlanswer,hranswer]
        rfl
    · refine .inr ⟨fun hall => hleft hall.1,?_⟩
      rw [answer,hlanswer]
      rfl
  | term t ih => exact ih h
  | sum op e t ihe iht =>
    obtain ⟨he,ht,hfits⟩ := h
    rcases ihe he with ⟨hleft,hlanswer⟩ | ⟨hleft,hlanswer⟩
    · rcases iht ht with ⟨hright,hranswer⟩ | ⟨hright,hranswer⟩
      · refine .inl ⟨⟨hleft,hright⟩,?_⟩
        rw [answer,hlanswer,hranswer,MachineArith.ok_bind,MachineArith.ok_bind]
        exact SumOp.answer_exact hfits
      · refine .inr ⟨fun hall => hright hall.2,?_⟩
        rw [answer,hlanswer,hranswer]
        rfl
    · refine .inr ⟨fun hall => hleft hall.1,?_⟩
      rw [answer,hlanswer]
      rfl

/-- On every spelling of a tree in range the calculator returns the exact value exactly if the
tree has no remainder of the least word by `-1`; with one it reports an overflow. -/
theorem exact_answer_iff {expr : String} {t : Tree .expr} {s w : List UInt8} (ht : Spells t s)
    (hw : Whitespace w) (hbytes : (CalcParser.new expr).bytes = s++w) (hrange : t.InRange) :
    (evalCalcExpression expr = some (.ok t.exact) ↔ t.NoLeastRemainder) ∧
    (¬t.NoLeastRemainder → evalCalcExpression expr = some (.error "integer overflow")) := by
  rw [evalCalcExpression_of_spells ht hw hbytes]
  rcases t.answer_of_inRange hrange with ⟨hleast,hanswer⟩ | ⟨hleast,hanswer⟩
  · simp [hleast,hanswer]
  · simp [hleast,hanswer]

def halvedTree : Tree .expr := .term (.product .div (.factor (.minus (.number [0x37]))) (.number [0x32]))

theorem exact_answer_halved : halvedTree.NoLeastRemainder ∧ evalCalcExpression " -7 / 2" = some (.ok (-3)) := by
  have hspells : Spells halvedTree ([0x20]++0x2D::([]++[0x37])++([0x20]++0x2F::([0x20]++[0x32]))) :=
    .term (.product (.factor (.minus (by decide) (.number .nil (by decide)))) (by decide) rfl
      (.number (by decide) (by decide)))
  have hleast : halvedTree.NoLeastRemainder := by decide
  exact ⟨hleast,(exact_answer_iff hspells .nil (by decide +kernel) (by decide)).1.mpr hleast⟩

def leastDigits : List UInt8 :=
  [0x39,0x32,0x32,0x33,0x33,0x37,0x32,0x30,0x33,0x36,0x38,0x35,0x34,0x37,0x37,0x35,0x38,0x30,0x37]

def leastRemainderTree : Tree .expr :=
  .term (.product .rem
    (.factor (.paren (.sum .sub (.term (.factor (.minus (.number leastDigits)))) (.factor (.number [0x31])))))
    (.minus (.number [0x31])))

theorem leastRemainder_refused : ∃ s, Spells leastRemainderTree s ∧
    (CalcParser.new "(-9223372036854775807-1)%-1").bytes = s ∧
    leastRemainderTree.InRange ∧ leastRemainderTree.exact = 0 ∧
    evalCalcExpression "(-9223372036854775807-1)%-1" = some (.error "integer overflow") := by
  have hone : Spells (.number [0x31]) ([]++[0x31]) := .number .nil (by decide)
  have hleast : Spells (.number leastDigits) ([]++leastDigits) := .number .nil (by decide)
  have hsum : Spells (.sum .sub (.term (.factor (.minus (.number leastDigits)))) (.factor (.number [0x31]))) _ :=
    .sum (b := 0x2D) (.term (.factor (.minus .nil hleast))) .nil rfl (.factor hone)
  have hspells : Spells leastRemainderTree _ :=
    .term (.product (b := 0x25) (.factor (.paren .nil hsum .nil)) .nil rfl (.minus .nil hone))
  exact ⟨_,hspells,by decide +kernel,by decide +kernel,by decide +kernel,by decide +kernel⟩

end Calculator
end EnosKernel
