import EnosKernel.CalcCompleteness
import EnosKernel.MachineArith

/-! The calculator's answer to every spelling of a tree, the refusals included: the message
is that of the first operation, from left to right, that has no value. -/
namespace EnosKernel
namespace Calculator

open SignedArith Fueled CalcParser

/-- `ok_or("integer overflow")`. -/
def overflowOr : Option ℤ → Except String ℤ
  | none => .error "integer overflow"
  | some v => .ok v

def ProductOp.answer (op : ProductOp) (a b : ℤ) : Except String ℤ :=
  if op ≠ .mul ∧ b = 0 then .error "division by zero" else overflowOr (op.apply a b)

def SumOp.answer (op : SumOp) (a b : ℤ) : Except String ℤ := overflowOr (op.apply a b)

/-- The value of a tree or the message of its first refused operation. -/
def Tree.answer : {k : Level} → Tree k → Except String ℤ
  | _, .number digits => overflowOr (checked 64 (literal 0 digits))
  | _, .plus f => f.answer
  | _, .minus f => f.answer >>= fun a => overflowOr (checkedNeg 64 a)
  | _, .paren e => e.answer
  | _, .factor f => f.answer
  | _, .product op t f => t.answer >>= fun a => f.answer >>= fun b => op.answer a b
  | _, .term t => t.answer
  | _, .sum op e t => e.answer >>= fun a => t.answer >>= fun b => op.answer a b

theorem overflowOr_eq_ok {o : Option ℤ} {v : ℤ} : overflowOr o = .ok v ↔ o = some v := by
  cases o <;> simp [overflowOr]

theorem overflowOr_checked {x : ℤ} (h : Fits 64 x) : overflowOr (checked 64 x) = .ok x :=
  overflowOr_eq_ok.mpr (checked_eq_some.mpr ⟨rfl,h⟩)

theorem okOr_overflow (o : Option ℤ) (p : CalcParser) : okOr o "integer overflow" p = some (overflowOr o,p) := by
  cases o <;> rfl

theorem ProductOp.run_eq (op : ProductOp) (a b : ℤ) (p : CalcParser) : op.run a b p = some (op.answer a b,p) := by
  unfold ProductOp.run ProductOp.answer
  split_ifs
  · rfl
  · exact okOr_overflow _ p

theorem ProductOp.answer_eq_ok {op : ProductOp} {a b v : ℤ} : op.answer a b = .ok v ↔ op.apply a b = some v := by
  have hrun : op.run a b ⟨[],0⟩ = some (.ok v,⟨[],0⟩) ↔ op.apply a b = some v ∧ (⟨[],0⟩ : CalcParser) = ⟨[],0⟩ :=
    op.run_eq_ok
  simpa [ProductOp.run_eq] using hrun

theorem Tree.answer_eq_ok {k : Level} (t : Tree k) (v : ℤ) : t.answer = .ok v ↔ t.eval = some v := by
  induction t generalizing v with
  | number digits => exact overflowOr_eq_ok
  | plus f ih => exact ih v
  | minus f ih => simp [answer,eval,MachineArith.bind_eq_ok,Option.bind_eq_some_iff,ih,overflowOr_eq_ok]
  | paren e ih => exact ih v
  | factor f ih => exact ih v
  | product op t f iht ihf =>
    simp [answer,eval,MachineArith.bind_eq_ok,Option.bind_eq_some_iff,iht,ihf,ProductOp.answer_eq_ok]
  | term t ih => exact ih v
  | sum op e t ihe iht =>
    simp [answer,eval,MachineArith.bind_eq_ok,Option.bind_eq_some_iff,ihe,iht,SumOp.answer,overflowOr_eq_ok]

theorem numberLoop_overflows (hasDigit : Bool) {value : ℤ} {p : CalcParser} {ds r : List UInt8}
    (hds : ∀ b ∈ ds,isAsciiDigit b = true) (hrest : p.rest = ds++r) (hvalue : Fits 64 value)
    (hfits : ¬Fits 64 (literal value ds)) :
    ∃ p', numberLoop hasDigit value p = some (.error "integer overflow",p') := by
  induction ds generalizing hasDigit value p with
  | nil => exact absurd hvalue hfits
  | cons b ds ih =>
    have hlt := lt_of_rest hrest
    obtain ⟨hbyte,hnext⟩ := getElem_of_rest hrest hlt
    have hdigit := hds b (by simp)
    rw [numberLoop,dif_pos hlt,hbyte,if_neg (by simp [hdigit])]
    cases htens : checkedMul 64 value 10 with
    | none => exact ⟨p,rfl⟩
    | some tens =>
      cases hones : checkedAdd 64 tens (b.toNat-0x30) with
      | none => exact ⟨p,by simp only [hones]⟩
      | some next =>
        obtain ⟨rfl,-⟩ := checked_eq_some.mp htens
        obtain ⟨rfl,hword⟩ := checked_eq_some.mp hones
        simp only [hones]
        exact ih true (fun c hc => hds c (by simp [hc])) hnext hword hfits

section Rules
variable {τ : Type} (c : Chain τ) {p p₁ p₂ : CalcParser} {a b : ℤ} {e : String} {op : τ}

theorem Chain.returns_parse_error (h : Returns (c.operand · p) (.error e,p₁)) :
    Returns (c.parse · p) (.error e,p₁) := by
  refine Returns.of_succ ?_
  simp only [c.parse_succ]
  exact h.andThen_error

theorem Chain.returns_operand_error (htoken : p.token c.table = some (op,p₁))
    (h : Returns (c.operand · p₁) (.error e,p₂)) : Returns (c.loop · a p) (.error e,p₂) := by
  refine Returns.of_succ ?_
  simp only [c.loop_succ,htoken]
  exact h.andThen_error

variable {c}

theorem Chain.Settled.returns_run_error (h : c.Settled) (htoken : p.token c.table = some (op,p₁))
    (hoperand : Returns (c.operand · p₁) (.ok b,p₂)) (hrun : c.run op a b p₂ = some (.error e,p₂)) :
    Returns (c.loop · a p) (.error e,p₂) := by
  refine Returns.of_succ ?_
  simp only [c.loop_succ,htoken]
  refine hoperand.andThen (h.operand p₁) ?_ ?_ <;> simp only [hrun]
  · exact fun _ => Below.refl _
  · exact returns_const fun _ => rfl

end Rules

def Level.parse : Level → ℕ → CalcParser → Parsed
  | .expr => parseExpr
  | .term => parseTerm
  | .factor => parseFactor

/-- What the parser does on a spelling without a value. -/
def Rejects (k : Level) (s : List UInt8) (e : String) : Prop :=
  ∀ p r, p.rest = s++r → NoDigit r → (k = .expr → NotNext productOps r) →
    ∃ p', Returns (k.parse · p) (.error e,p')

section Cases
variable {w s s' : List UInt8} {a b : ℤ} {e : String}

theorem rejects_number {ds : List UInt8} (hw : Whitespace w) (hds : Digits ds)
    (h : checked 64 (literal 0 ds) = none) : Rejects .factor (w++ds) "integer overflow" := by
  intro p r hrest _ _
  obtain ⟨hskip,hnumber⟩ := parseFactor_number hw hds hrest
  obtain ⟨p',hloop⟩ := numberLoop_overflows false hds.2 hskip (by decide) (checked_eq_none.mp h)
  exact ⟨p',Returns.of_succ (returns_const fun n => (hnumber n).trans hloop)⟩

theorem rejects_plus (hw : Whitespace w) (h : Rejects .factor s e) : Rejects .factor (w++0x2B::s) e := by
  intro p r hrest hr _
  have hlookup : openings.lookup 0x2B = some .plus := rfl
  obtain ⟨p₁,htoken,hp₁⟩ := opening_token hw hlookup hrest
  obtain ⟨p',hfactor⟩ := h p₁ r hp₁ hr (by simp)
  refine ⟨p',Returns.of_succ ?_⟩
  simp only [Level.parse,parseFactor_succ,htoken]
  exact hfactor

theorem rejects_minus_operand (hw : Whitespace w) (h : Rejects .factor s e) :
    Rejects .factor (w++0x2D::s) e := by
  intro p r hrest hr _
  have hlookup : openings.lookup 0x2D = some .minus := rfl
  obtain ⟨p₁,htoken,hp₁⟩ := opening_token hw hlookup hrest
  obtain ⟨p',hfactor⟩ := h p₁ r hp₁ hr (by simp)
  refine ⟨p',Returns.of_succ ?_⟩
  simp only [Level.parse,parseFactor_succ,htoken]
  exact hfactor.andThen_error

theorem rejects_minus (hw : Whitespace w) (h : Accepts .factor s a) (hv : checkedNeg 64 a = none) :
    Rejects .factor (w++0x2D::s) "integer overflow" := by
  intro p r hrest hr _
  have hlookup : openings.lookup 0x2D = some .minus := rfl
  obtain ⟨p₁,htoken,hp₁⟩ := opening_token hw hlookup hrest
  obtain ⟨p',-,hfactor⟩ := h p₁ r hp₁ hr
  refine ⟨p',Returns.of_succ ?_⟩
  simp only [Level.parse,parseFactor_succ,htoken]
  exact hfactor.andThen (stable_factor p₁) (fun _ => Below.refl _) (returns_const fun _ => by rw [hv]; rfl)

theorem rejects_paren {w' : List UInt8} (hw : Whitespace w) (h : Rejects .expr s e)
    (hw' : Whitespace w') : Rejects .factor (w++0x28::(s++(w'++[0x29]))) e := by
  intro p r hrest hr _
  have hclose : Separator 0x29 := by decide
  have hlookup : openings.lookup 0x28 = some .paren := rfl
  obtain ⟨p₁,htoken,hp₁⟩ := opening_token hw hlookup hrest
  rw [List.append_assoc,List.append_assoc,List.singleton_append] at hp₁
  obtain ⟨p',hexpr⟩ := h p₁ _ hp₁ (noDigit_separated hw' hclose)
    fun _ => notNext_separated hw' hclose (by simp only [productOps]; decide)
  refine ⟨p',Returns.of_succ ?_⟩
  simp only [Level.parse,parseFactor_succ,htoken]
  exact hexpr.andThen_error

theorem rejects_factor (h : Rejects .factor s e) : Rejects .term s e := by
  intro p r hrest hr _
  obtain ⟨p',hfactor⟩ := h p r hrest hr (by simp)
  exact ⟨p',products.returns_parse_error hfactor⟩

theorem rejects_term (h : Rejects .term s e) : Rejects .expr s e := by
  intro p r hrest hr _
  obtain ⟨p',hterm⟩ := h p r hrest hr (by simp)
  exact ⟨p',sums.returns_parse_error hterm⟩

section Product
variable {byte : UInt8} {op : ProductOp} (hw : Whitespace w) (hop : productOps.lookup byte = some op)
include hw hop

theorem rejects_product_left (ht : Rejects .term s e) : Rejects .term (s++(w++byte::s')) e := by
  intro p r hrest _ _
  have hrest' : p.rest = s++(w++byte::(s'++r)) := by simpa using hrest
  exact ht p _ hrest' (noDigit_separated hw (separator_of_lookup productOps_separator hop)) (by simp)

theorem rejects_product_right (ht : Accepts .term s a) (hf : Rejects .factor s' e) :
    Rejects .term (s++(w++byte::s')) e := by
  intro p r hrest hr _
  obtain ⟨p₁,p₂,htoken,hp₂,hterm⟩ := ht.product_token hw hop hrest
  obtain ⟨p',hfactor⟩ := hf p₂ r hp₂ hr (by simp)
  exact ⟨p',hterm _ (products.returns_operand_error htoken hfactor)⟩

theorem rejects_product (ht : Accepts .term s a) (hf : Accepts .factor s' b) (hv : op.answer a b = .error e) :
    Rejects .term (s++(w++byte::s')) e := by
  intro p r hrest hr _
  obtain ⟨p₁,p₂,htoken,hp₂,hterm⟩ := ht.product_token hw hop hrest
  obtain ⟨p',-,hfactor⟩ := hf p₂ r hp₂ hr
  have hrun : products.run op a b p' = some (.error e,p') := hv ▸ op.run_eq a b p'
  exact ⟨p',hterm _ (products_settled.returns_run_error htoken hfactor hrun)⟩

end Product

section Sum
variable {byte : UInt8} {op : SumOp} (hw : Whitespace w) (hop : sumOps.lookup byte = some op)
include hw hop

theorem rejects_sum_left (he : Rejects .expr s e) : Rejects .expr (s++(w++byte::s')) e := by
  intro p r hrest _ _
  have hrest' : p.rest = s++(w++byte::(s'++r)) := by simpa using hrest
  exact he p _ hrest' (noDigit_separated hw (separator_of_lookup sumOps_separator hop))
    fun _ => notNext_sumOp hw hop

theorem rejects_sum_right (he : Accepts .expr s a) (ht : Rejects .term s' e) :
    Rejects .expr (s++(w++byte::s')) e := by
  intro p r hrest hr _
  obtain ⟨p₁,p₂,htoken,hp₂,hexpr⟩ := he.sum_token hw hop hrest
  obtain ⟨p',hterm⟩ := ht p₂ r hp₂ hr (by simp)
  exact ⟨p',hexpr _ (sums.returns_operand_error htoken hterm)⟩

theorem rejects_sum (he : Accepts .expr s a) (ht : Accepts .term s' b) (hv : op.answer a b = .error e) :
    Rejects .expr (s++(w++byte::s')) e := by
  intro p r hrest hr hnext
  obtain ⟨p₁,p₂,htoken,hp₂,hexpr⟩ := he.sum_token hw hop hrest
  obtain ⟨p',-,hterm⟩ := ht.stop hp₂ hr (hnext rfl)
  have hrun : sums.run op a b p' = some (.error e,p') := hv ▸ okOr_overflow _ p'
  exact ⟨p',hexpr _ (sums_settled.returns_run_error htoken hterm hrun)⟩

end Sum

end Cases

theorem overflowOr_eq_error {o : Option ℤ} {e : String} (h : overflowOr o = .error e) :
    o = none ∧ e = "integer overflow" := by
  cases o with
  | none => exact ⟨rfl,(Except.error.inj h).symm⟩
  | some v => cases h

theorem Spells.rejects {k : Level} {t : Tree k} {s : List UInt8} (h : Spells t s) :
    ∀ e, t.answer = .error e → Rejects k s e := by
  induction h with
  | number hw hds =>
    intro e he
    obtain ⟨hnone,rfl⟩ := overflowOr_eq_error he
    exact rejects_number hw hds hnone
  | plus hw _ ih => exact fun e he => rejects_plus hw (ih e he)
  | minus hw hf ih =>
    intro e he
    rcases MachineArith.bind_eq_error.mp he with he | ⟨a,ha,he⟩
    · exact rejects_minus_operand hw (ih e he)
    · obtain ⟨hnone,rfl⟩ := overflowOr_eq_error he
      exact rejects_minus hw (hf.accepts a ((Tree.answer_eq_ok _ a).mp ha)) hnone
  | paren hw _ hw' ih => exact fun e he => rejects_paren hw (ih e he) hw'
  | factor _ ih => exact fun e he => rejects_factor (ih e he)
  | product ht hw hop hf iht ihf =>
    intro e he
    rcases MachineArith.bind_eq_error.mp he with he | ⟨a,ha,he⟩
    · exact rejects_product_left hw hop (iht e he)
    · have hleft := ht.accepts a ((Tree.answer_eq_ok _ a).mp ha)
      rcases MachineArith.bind_eq_error.mp he with he | ⟨b,hb,he⟩
      · exact rejects_product_right hw hop hleft (ihf e he)
      · exact rejects_product hw hop hleft (hf.accepts b ((Tree.answer_eq_ok _ b).mp hb)) he
  | term _ ih => exact fun e he => rejects_term (ih e he)
  | sum hl hw hop ht ihl iht =>
    intro e he
    rcases MachineArith.bind_eq_error.mp he with he | ⟨a,ha,he⟩
    · exact rejects_sum_left hw hop (ihl e he)
    · have hleft := hl.accepts a ((Tree.answer_eq_ok _ a).mp ha)
      rcases MachineArith.bind_eq_error.mp he with he | ⟨b,hb,he⟩
      · exact rejects_sum_right hw hop hleft (iht e he)
      · exact rejects_sum hw hop hleft (ht.accepts b ((Tree.answer_eq_ok _ b).mp hb)) he

/-- The calculator answers a spelling of a tree as the tree does. -/
theorem evalCalcExpression_of_spells {expr : String} {t : Tree .expr} {s w : List UInt8} (ht : Spells t s)
    (hw : Whitespace w) (hbytes : (CalcParser.new expr).bytes = s++w) :
    evalCalcExpression expr = some t.answer := by
  cases hanswer : t.answer with
  | ok v => exact ok_of_denotes ⟨t,s,w,ht,hw,hbytes,(t.answer_eq_ok v).mp hanswer⟩
  | error e =>
    obtain ⟨p',hreturns⟩ := ht.rejects e hanswer (CalcParser.new expr) w (by rw [rest_new,hbytes])
      hw.noDigit fun _ => hw.notNext
    obtain ⟨o,hrun⟩ := parseExpr_fuelFor (CalcParser.new expr)
    obtain rfl := hreturns.unique (stable_expr _) hrun
    simp [evalCalcExpression,hrun]

end Calculator
end EnosKernel
