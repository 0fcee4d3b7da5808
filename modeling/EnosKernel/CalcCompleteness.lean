import EnosKernel.CalcTermination

/-! Every spelling of a tree whose evaluation succeeds is accepted with that value.  What a
loop does with the tree read so far is left to its caller, which is how a left-nested tree
is met by a parser that runs from left to right. -/
namespace EnosKernel
namespace Calculator

open SignedArith Fueled CalcParser

def NoDigit (r : List UInt8) : Prop := ∀ b ∈ r.head?,isAsciiDigit b = false

/-- The next byte behind whitespace is not in the table. -/
def NotNext {τ : Type} (table : List (UInt8 × τ)) (r : List UInt8) : Prop :=
  ∀ e ∈ table,(r.dropWhile isAsciiWhitespace).head? ≠ some e.1

theorem token_of_notNext {τ : Type} {table : List (UInt8 × τ)} {p : CalcParser}
    (h : NotNext table p.rest) : p.token table = none := by
  refine token_none ?_
  rw [skipWs_rest]
  exact h

/-- No digit and no whitespace: a byte that ends a number and starts a token. -/
def Separator (b : UInt8) : Prop := isAsciiWhitespace b = false ∧ isAsciiDigit b = false

instance separatorDecidable (b : UInt8) : Decidable (Separator b) := by unfold Separator; infer_instance

theorem separator_of_lookup {τ : Type} {table : List (UInt8 × τ)} (htable : ∀ e ∈ table,Separator e.1)
    {b : UInt8} {t : τ} (h : table.lookup b = some t) : Separator b := htable _ (mem_of_lookup h)

theorem sumOps_separator : ∀ e ∈ sumOps,Separator e.1 := by simp only [sumOps]; decide
theorem productOps_separator : ∀ e ∈ productOps,Separator e.1 := by simp only [productOps]; decide
theorem openings_separator : ∀ e ∈ openings,Separator e.1 := by simp only [openings]; decide

theorem whitespace_not_digit {b : UInt8} (h : isAsciiWhitespace b = true) : isAsciiDigit b = false := by
  simp only [isAsciiWhitespace,Bool.or_eq_true,beq_iff_eq] at h
  rcases h with (((rfl | rfl) | rfl) | rfl) | rfl <;> rfl

theorem digit_not_whitespace {b : UInt8} (h : isAsciiDigit b = true) : isAsciiWhitespace b = false := by
  by_contra hws
  rw [whitespace_not_digit (Bool.eq_true_of_not_eq_false hws)] at h
  cases h

section Separated
variable {w r : List UInt8} {b : UInt8} (hw : Whitespace w) (hb : Separator b)
include hw hb

theorem dropWhile_separated : (w++b::r).dropWhile isAsciiWhitespace = b::r := by
  rw [hw.dropWhile_append,List.dropWhile_cons_of_neg (by simp [hb.1])]

theorem noDigit_separated : NoDigit (w++b::r) := by
  intro c hc
  cases w with
  | nil =>
    obtain rfl : b = c := by simpa using hc
    exact hb.2
  | cons d w =>
    obtain rfl : d = c := by simpa using hc
    exact whitespace_not_digit (hw d (by simp))

theorem notNext_separated {τ : Type} {table : List (UInt8 × τ)} (hne : ∀ e ∈ table,b ≠ e.1) :
    NotNext table (w++b::r) := by
  intro e he
  rw [dropWhile_separated hw hb,List.head?_cons,ne_eq,Option.some.injEq]
  exact hne e he

end Separated

theorem le_literal {value : ℤ} {ds : List UInt8} (hds : ∀ b ∈ ds,isAsciiDigit b = true) (h : 0 ≤ value) :
    value ≤ literal value ds := by
  induction ds generalizing value with
  | nil => exact le_rfl
  | cons b ds ih =>
    have hdigit := digitValue_nonneg (hds b (by simp))
    have hle := ih (fun c hc => hds c (by simp [hc])) (show 0 ≤ value*10+digitValue b by omega)
    rw [literal_cons]
    omega

theorem fits_of_le_literal {x y : ℤ} (h : 0 ≤ x) (hxy : x ≤ y) (hy : Fits 64 y) : Fits 64 x :=
  ⟨le_trans (by decide) h,hxy.trans hy.2⟩

/-- A literal that is a word is read to its last digit: every shorter one is a word too. -/
theorem numberLoop_reads (hasDigit : Bool) {value : ℤ} {p : CalcParser} {ds r : List UInt8}
    (hds : ∀ b ∈ ds,isAsciiDigit b = true) (hsome : ds = [] → hasDigit = true) (hr : NoDigit r)
    (hrest : p.rest = ds++r) (hvalue : 0 ≤ value) (hfits : Fits 64 (literal value ds)) :
    ∃ p', numberLoop hasDigit value p = some (.ok (literal value ds),p') ∧ p'.rest = r := by
  induction ds generalizing hasDigit value p with
  | nil =>
    refine ⟨p,?_,hrest⟩
    rw [numberLoop,hsome rfl]
    by_cases hlt : p.pos < p.bytes.length
    · have hdigit : isAsciiDigit p.bytes[p.pos] = false := by
        refine hr _ ?_
        rw [List.nil_append] at hrest
        rw [← hrest,rest_cons hlt]
        rfl
      simp [hlt,hdigit,literal]
    · simp [hlt,literal]
  | cons b ds ih =>
    have hlt := lt_of_rest hrest
    obtain ⟨hbyte,hnext⟩ := getElem_of_rest hrest hlt
    have hdigit := hds b (by simp)
    have hdigits : ∀ c ∈ ds,isAsciiDigit c = true := fun c hc => hds c (by simp [hc])
    have hb := digitValue_nonneg hdigit
    have hle := le_literal hdigits (show 0 ≤ value*10+digitValue b by omega)
    rw [literal_cons] at hfits ⊢
    have htens : checkedMul 64 value 10 = some (value*10) :=
      checked_eq_some.mpr ⟨rfl,fits_of_le_literal (by omega) (by omega) hfits⟩
    have hones : checkedAdd 64 (value*10) (b.toNat-0x30) = some (value*10+digitValue b) :=
      checked_eq_some.mpr ⟨rfl,fits_of_le_literal (by unfold digitValue at hb; omega) hle hfits⟩
    rw [numberLoop,dif_pos hlt,hbyte,if_neg (by simp [hdigit]),htens]
    simp only [hones]
    exact ih true hdigits (by simp) hnext (by omega) hfits

section Rules
variable {τ : Type} (c : Chain τ) {p p₁ p₂ : CalcParser} {a b x : ℤ} {o : Except String ℤ × CalcParser}

/-- Outcomes of the operands and of the loop survive a larger bound. -/
structure Chain.Settled : Prop where
  operand : ∀ p, Stable fun n => c.operand n p
  loop : ∀ a p, Stable fun n => c.loop n a p

theorem products_settled : products.Settled := ⟨stable_factor,stable_termLoop⟩
theorem sums_settled : sums.Settled := ⟨stable_term,stable_exprLoop⟩

variable {c}

theorem Chain.Settled.returns_parse (h : c.Settled) (hoperand : Returns (c.operand · p) (.ok a,p₁))
    (hloop : Returns (c.loop · a p₁) o) : Returns (c.parse · p) o := by
  refine Returns.of_succ ?_
  simp only [c.parse_succ]
  exact hoperand.andThen (h.operand p) (h.loop a p₁) hloop

theorem Chain.returns_stop (c : Chain τ) (hnext : NotNext c.table p.rest) :
    Returns (c.loop · a p) (.ok a,p.skipWs) := by
  refine Returns.of_succ (returns_const fun n => ?_)
  rw [c.loop_succ,token_of_notNext hnext]

theorem Chain.Settled.returns_loop (h : c.Settled) {op : τ} (htoken : p.token c.table = some (op,p₁))
    (hoperand : Returns (c.operand · p₁) (.ok b,p₂)) (hop : c.apply op a b = some x)
    (hloop : Returns (c.loop · x p₂) o) : Returns (c.loop · a p) o := by
  have hrun : c.run op a b p₂ = some (.ok x,p₂) := c.run_eq_ok.mpr ⟨hop,rfl⟩
  refine Returns.of_succ ?_
  simp only [c.loop_succ,htoken]
  refine hoperand.andThen (h.operand p₁) ?_ ?_ <;> simp only [hrun]
  · exact h.loop x p₂
  · exact hloop

end Rules

/-- What the parser does on a spelling with this value, for any text behind it that the
level can tell apart from the spelling. -/
def Accepts : Level → List UInt8 → ℤ → Prop
  | .factor, s, v => ∀ p r, p.rest = s++r → NoDigit r →
      ∃ p', p'.rest = r ∧ Returns (parseFactor · p) (.ok v,p')
  | .term, s, v => ∀ p r, p.rest = s++r → NoDigit r →
      ∃ p', p'.rest = r ∧ ∀ o, Returns (termLoop · v p') o → Returns (parseTerm · p) o
  | .expr, s, v => ∀ p r, p.rest = s++r → NoDigit r → NotNext productOps r →
      ∃ p', p'.rest = r.dropWhile isAsciiWhitespace ∧
        ∀ o, Returns (exprLoop · v p') o → Returns (parseExpr · p) o

theorem Accepts.stop {s r : List UInt8} {v : ℤ} {p : CalcParser} (h : Accepts .term s v)
    (hrest : p.rest = s++r) (hr : NoDigit r) (hnext : NotNext productOps r) :
    ∃ p', p'.rest = r.dropWhile isAsciiWhitespace ∧ Returns (parseTerm · p) (.ok v,p') := by
  obtain ⟨p₁,rfl,hterm⟩ := h p r hrest hr
  exact ⟨p₁.skipWs,p₁.skipWs_rest,hterm _ (products.returns_stop hnext)⟩

section Operator
variable {w s s' r : List UInt8} {v : ℤ} {p : CalcParser} {byte : UInt8} (hw : Whitespace w)
include hw

theorem Accepts.product_token {op : ProductOp} (h : Accepts .term s v)
    (hop : productOps.lookup byte = some op) (hrest : p.rest = s++(w++byte::s')++r) :
    ∃ p₁ p₂, p₁.token productOps = some (op,p₂) ∧ p₂.rest = s'++r ∧
      ∀ o, Returns (termLoop · v p₁) o → Returns (parseTerm · p) o := by
  have hbyte := separator_of_lookup productOps_separator hop
  obtain ⟨p₁,hp₁,hterm⟩ := h p (w++byte::(s'++r)) (by simpa using hrest) (noDigit_separated hw hbyte)
  obtain ⟨p₂,htoken,hp₂⟩ := token_of_split hw hbyte.1 hop hp₁
  exact ⟨p₁,p₂,htoken,hp₂,hterm⟩

theorem notNext_sumOp {op : SumOp} (hop : sumOps.lookup byte = some op) : NotNext productOps (w++byte::r) := by
  have hdistinct : ∀ e ∈ sumOps,∀ e' ∈ productOps,e.1 ≠ e'.1 := by
    simp only [sumOps,productOps]
    decide
  exact notNext_separated hw (separator_of_lookup sumOps_separator hop) (hdistinct _ (mem_of_lookup hop))

theorem Accepts.sum_token {op : SumOp} (h : Accepts .expr s v) (hop : sumOps.lookup byte = some op)
    (hrest : p.rest = s++(w++byte::s')++r) :
    ∃ p₁ p₂, p₁.token sumOps = some (op,p₂) ∧ p₂.rest = s'++r ∧
      ∀ o, Returns (exprLoop · v p₁) o → Returns (parseExpr · p) o := by
  have hbyte := separator_of_lookup sumOps_separator hop
  obtain ⟨p₁,hp₁,hexpr⟩ := h p (w++byte::(s'++r)) (by simpa using hrest) (noDigit_separated hw hbyte)
    (notNext_sumOp hw hop)
  rw [dropWhile_separated hw hbyte] at hp₁
  obtain ⟨p₂,htoken,hp₂⟩ := token_of_split Whitespace.nil hbyte.1 hop hp₁
  exact ⟨p₁,p₂,htoken,hp₂,hexpr⟩

end Operator

section Cases
variable {w s s' : List UInt8} {a b v : ℤ}

theorem parseFactor_number {p : CalcParser} {ds r : List UInt8} (hw : Whitespace w) (hds : Digits ds)
    (hrest : p.rest = w++ds++r) :
    p.skipWs.rest = ds++r ∧ ∀ fuel, parseFactor (fuel+1) p = numberLoop false 0 p.skipWs := by
  obtain ⟨d,tail,rfl⟩ := List.exists_cons_of_ne_nil hds.1
  have hdigit := hds.2 d (by simp)
  have hskip : p.skipWs.rest = d::(tail++r) := by
    rw [skipWs_rest,hrest,List.append_assoc,hw.dropWhile_append,List.cons_append,
      List.dropWhile_cons_of_neg (by simp [digit_not_whitespace hdigit])]
  have htoken : p.token openings = none := by
    refine token_none fun e he heq => ?_
    rw [hskip,List.head?_cons,Option.some.injEq] at heq
    rw [heq,(openings_separator e he).2] at hdigit
    cases hdigit
  refine ⟨hskip,fun fuel => ?_⟩
  rw [parseFactor_succ,htoken]
  rfl

theorem accepts_number {ds : List UInt8} (hw : Whitespace w) (hds : Digits ds)
    (hv : checked 64 (literal 0 ds) = some v) : Accepts .factor (w++ds) v := by
  intro p r hrest hr
  obtain ⟨rfl,hfits⟩ := checked_eq_some.mp hv
  obtain ⟨hskip,hnumber⟩ := parseFactor_number hw hds hrest
  obtain ⟨p',hloop,hp'⟩ := numberLoop_reads false hds.2 (fun h => absurd h hds.1) hr hskip le_rfl hfits
  exact ⟨p',hp',Returns.of_succ (returns_const fun n => (hnumber n).trans hloop)⟩

theorem opening_token {p : CalcParser} {r : List UInt8} {byte : UInt8} {o : Opening} (hw : Whitespace w)
    (hlookup : openings.lookup byte = some o) (hrest : p.rest = w++byte::s++r) :
    ∃ p₁, p.token openings = some (o,p₁) ∧ p₁.rest = s++r :=
  token_of_split hw (separator_of_lookup openings_separator hlookup).1 hlookup (by simpa using hrest)

theorem accepts_plus (hw : Whitespace w) (h : Accepts .factor s v) : Accepts .factor (w++0x2B::s) v := by
  intro p r hrest hr
  have hlookup : openings.lookup 0x2B = some .plus := rfl
  obtain ⟨p₁,htoken,hp₁⟩ := opening_token hw hlookup hrest
  obtain ⟨p',hp',hfactor⟩ := h p₁ r hp₁ hr
  refine ⟨p',hp',Returns.of_succ ?_⟩
  simp only [parseFactor_succ,htoken]
  exact hfactor

theorem accepts_minus (hw : Whitespace w) (h : Accepts .factor s a) (hv : checkedNeg 64 a = some v) :
    Accepts .factor (w++0x2D::s) v := by
  intro p r hrest hr
  have hlookup : openings.lookup 0x2D = some .minus := rfl
  obtain ⟨p₁,htoken,hp₁⟩ := opening_token hw hlookup hrest
  obtain ⟨p',hp',hfactor⟩ := h p₁ r hp₁ hr
  refine ⟨p',hp',Returns.of_succ ?_⟩
  simp only [parseFactor_succ,htoken]
  exact hfactor.andThen (stable_factor p₁) (fun _ => Below.refl _)
    (returns_const fun _ => okOr_eq_ok.mpr ⟨hv,rfl⟩)

theorem accepts_paren {w' : List UInt8} (hw : Whitespace w) (h : Accepts .expr s v)
    (hw' : Whitespace w') : Accepts .factor (w++0x28::(s++(w'++[0x29]))) v := by
  intro p r hrest hr
  have hclose : Separator 0x29 := by decide
  have hlookup : openings.lookup 0x28 = some .paren := rfl
  obtain ⟨p₁,htoken,hp₁⟩ := opening_token hw hlookup hrest
  rw [List.append_assoc,List.append_assoc,List.singleton_append] at hp₁
  obtain ⟨p₂,hp₂,hexpr⟩ := h p₁ _ hp₁ (noDigit_separated hw' hclose)
    (notNext_separated hw' hclose (by simp only [productOps]; decide))
  rw [dropWhile_separated hw' hclose] at hp₂
  have hstop : NotNext sumOps p₂.rest := by
    rw [hp₂]
    exact notNext_separated Whitespace.nil hclose (by simp only [sumOps]; decide)
  have hskip : p₂.skipWs.rest = 0x29::r := by
    rw [skipWs_rest,hp₂]
    exact dropWhile_separated Whitespace.nil hclose
  refine ⟨p₂.skipWs.advance,(getElem_of_rest hskip (lt_of_rest hskip)).2,Returns.of_succ ?_⟩
  simp only [parseFactor_succ,htoken]
  refine (hexpr _ (sums.returns_stop hstop)).andThen (stable_expr p₁) (fun _ => Below.refl _)
    (returns_const fun _ => ?_)
  rw [consume_skipWs,consume_hit hskip]
  rfl

theorem accepts_factor (h : Accepts .factor s v) : Accepts .term s v := by
  intro p r hrest hr
  obtain ⟨p',hp',hfactor⟩ := h p r hrest hr
  exact ⟨p',hp',fun o hloop => products_settled.returns_parse hfactor hloop⟩

theorem accepts_product {byte : UInt8} {op : ProductOp} (ht : Accepts .term s a) (hw : Whitespace w)
    (hop : productOps.lookup byte = some op) (hf : Accepts .factor s' b) (hv : op.apply a b = some v) :
    Accepts .term (s++(w++byte::s')) v := by
  intro p r hrest hr
  obtain ⟨p₁,p₂,htoken,hp₂,hterm⟩ := ht.product_token hw hop hrest
  obtain ⟨p',hp',hfactor⟩ := hf p₂ r hp₂ hr
  exact ⟨p',hp',fun o hloop => hterm o (products_settled.returns_loop htoken hfactor hv hloop)⟩

theorem accepts_term (h : Accepts .term s v) : Accepts .expr s v := by
  intro p r hrest hr hnext
  obtain ⟨p',hp',hterm⟩ := h.stop hrest hr hnext
  exact ⟨p',hp',fun o hloop => sums_settled.returns_parse hterm hloop⟩

theorem accepts_sum {byte : UInt8} {op : SumOp} (he : Accepts .expr s a) (hw : Whitespace w)
    (hop : sumOps.lookup byte = some op) (ht : Accepts .term s' b) (hv : op.apply a b = some v) :
    Accepts .expr (s++(w++byte::s')) v := by
  intro p r hrest hr hnext
  obtain ⟨p₁,p₂,htoken,hp₂,hexpr⟩ := he.sum_token hw hop hrest
  obtain ⟨p',hp',hterm⟩ := ht.stop hp₂ hr hnext
  exact ⟨p',hp',fun o hloop => hexpr o (sums_settled.returns_loop htoken hterm hv hloop)⟩

end Cases

theorem Spells.accepts {k : Level} {t : Tree k} {s : List UInt8} (h : Spells t s) :
    ∀ v, t.eval = some v → Accepts k s v := by
  induction h with
  | number hw hds => exact fun v hv => accepts_number hw hds hv
  | plus hw _ ih => exact fun v hv => accepts_plus hw (ih v hv)
  | minus hw _ ih =>
    intro v hv
    obtain ⟨a,ha,hneg⟩ := Option.bind_eq_some_iff.mp hv
    exact accepts_minus hw (ih a ha) hneg
  | paren hw _ hw' ih => exact fun v hv => accepts_paren hw (ih v hv) hw'
  | factor _ ih => exact fun v hv => accepts_factor (ih v hv)
  | product _ hw hop _ iht ihf =>
    intro v hv
    obtain ⟨a,ha,hrhs⟩ := Option.bind_eq_some_iff.mp hv
    obtain ⟨b,hb,happly⟩ := Option.bind_eq_some_iff.mp hrhs
    exact accepts_product (iht a ha) hw hop (ihf b hb) happly
  | term _ ih => exact fun v hv => accepts_term (ih v hv)
  | sum _ hw hop _ ihe iht =>
    intro v hv
    obtain ⟨a,ha,hrhs⟩ := Option.bind_eq_some_iff.mp hv
    obtain ⟨b,hb,happly⟩ := Option.bind_eq_some_iff.mp hrhs
    exact accepts_sum (ihe a ha) hw hop (iht b hb) happly

/-- Bytes that spell a tree with this value, with whitespace behind it. -/
def Denotes (bytes : List UInt8) (v : ℤ) : Prop :=
  ∃ (t : Tree .expr) (s w : List UInt8), Spells t s ∧ Whitespace w ∧ bytes = s++w ∧ t.eval = some v

theorem rest_new (expr : String) : (CalcParser.new expr).rest = (CalcParser.new expr).bytes := by
  simp [CalcParser.new,rest]

theorem pos_eq_length {p : CalcParser} (h : p.pos ≤ p.bytes.length) :
    p.pos = p.bytes.length ↔ p.rest = [] := by
  rw [rest,List.drop_eq_nil_iff]
  omega

theorem evalCalcExpression_ok (expr : String) (v : ℤ) : evalCalcExpression expr = some (.ok v) ↔
    ∃ p', parseExpr (fuelFor (CalcParser.new expr).bytes.length) (CalcParser.new expr) = some (.ok v,p') ∧
      p'.skipWs.rest = [] := by
  unfold evalCalcExpression
  obtain ⟨⟨result,p'⟩,hrun⟩ := parseExpr_fuelFor (CalcParser.new expr)
  have hadv : Advances (CalcParser.new expr) p'.skipWs :=
    ((moves _).expr _ _ _ hrun).trans (advances_skipWs p')
  have hpos : p'.skipWs.pos ≤ p'.skipWs.bytes.length := by
    rw [hadv.bytes]
    exact hadv.bounded (Nat.zero_le _)
  cases result with
  | error e => simp [hrun]
  | ok value =>
    simp only [hrun,ne_eq,pos_eq_length hpos]
    by_cases hend : p'.skipWs.rest = []
    · simp [hend]
    · simp [hend]

theorem evalCalcExpression_answers (expr : String) : ∃ answer, evalCalcExpression expr = some answer := by
  obtain ⟨⟨result,p'⟩,hrun⟩ := parseExpr_fuelFor (CalcParser.new expr)
  cases result with
  | error e => exact ⟨.error e,by simp [evalCalcExpression,hrun]⟩
  | ok value =>
    simp only [evalCalcExpression,hrun]
    split_ifs
    · exact ⟨_,rfl⟩
    · exact ⟨_,rfl⟩

theorem denotes_of_ok {expr : String} {v : ℤ} (h : evalCalcExpression expr = some (.ok v)) :
    Denotes (CalcParser.new expr).bytes v := by
  obtain ⟨p',hrun,hend⟩ := (evalCalcExpression_ok expr v).mp h
  obtain ⟨t,s,w,ht,hv,hw,hrest⟩ := (sound _).expr _ _ _ hrun
  obtain ⟨w',hw',hskip⟩ := p'.skipWs_split
  refine ⟨t,s,w++w',ht,hw.append hw',?_,hv⟩
  rw [← rest_new,hrest,hskip,hend,List.append_nil]

section Trailing
variable {w : List UInt8} (hw : Whitespace w)
include hw

theorem Whitespace.dropWhile_eq_nil : w.dropWhile isAsciiWhitespace = [] := by
  simpa using hw.dropWhile_append (r := [])

theorem Whitespace.noDigit : NoDigit w := fun b hb => whitespace_not_digit (hw b (List.mem_of_mem_head? hb))

theorem Whitespace.notNext {τ : Type} {table : List (UInt8 × τ)} : NotNext table w :=
  fun e _ => by simp [hw.dropWhile_eq_nil]

end Trailing

theorem ok_of_denotes {expr : String} {v : ℤ} (h : Denotes (CalcParser.new expr).bytes v) :
    evalCalcExpression expr = some (.ok v) := by
  obtain ⟨t,s,w,ht,hw,hbytes,hv⟩ := h
  obtain ⟨p₁,hp₁,hexpr⟩ := ht.accepts v hv (CalcParser.new expr) w (by rw [rest_new,hbytes])
    hw.noDigit hw.notNext
  rw [hw.dropWhile_eq_nil] at hp₁
  have hstop : NotNext sumOps p₁.rest := fun e _ => by simp [hp₁]
  have hreturns := hexpr _ (sums.returns_stop hstop)
  obtain ⟨o,hrun⟩ := parseExpr_fuelFor (CalcParser.new expr)
  obtain rfl := hreturns.unique (stable_expr _) hrun
  refine (evalCalcExpression_ok expr v).mpr ⟨p₁.skipWs,hrun,?_⟩
  simp [skipWs_rest,hp₁]

/-- The calculator answers every input, and it answers with a value exactly on the spellings
of a tree that evaluates to it. -/
theorem calculator_correct (expr : String) :
    (∃ answer, evalCalcExpression expr = some answer) ∧
    ∀ v, evalCalcExpression expr = some (.ok v) ↔ Denotes (CalcParser.new expr).bytes v :=
  ⟨evalCalcExpression_answers expr,fun _ => ⟨denotes_of_ok,ok_of_denotes⟩⟩

example : evalCalcExpression " 8-3-2*-(1+1) " = some (.ok 9) := by decide +kernel
example : evalCalcExpression "1/0" = some (.error "division by zero") := by decide +kernel

end Calculator
end EnosKernel
