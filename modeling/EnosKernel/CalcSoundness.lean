import EnosKernel.CalcGrammar

/-! Whatever the calculator's parser accepts is a spelling of a tree with the value it
returns.  The loops extend a tree already spelled to their left, so associativity is that
of the trees. -/
namespace EnosKernel
namespace Calculator

open SignedArith Fueled CalcParser

theorem digitValue_nonneg {b : UInt8} (h : isAsciiDigit b = true) : 0 ≤ digitValue b := by
  simp only [isAsciiDigit,Bool.and_eq_true,decide_eq_true_eq,UInt8.le_iff_toNat_le] at h
  have hlow : 0x30 ≤ b.toNat := h.1
  unfold digitValue
  omega

theorem literal_cons (value : ℤ) (b : UInt8) (ds : List UInt8) :
    literal value (b::ds) = literal (value*10+digitValue b) ds := rfl

theorem numberLoop_ok {hasDigit : Bool} {value v : ℤ} {p p' : CalcParser}
    (h : numberLoop hasDigit value p = some (.ok v,p')) :
    ∃ ds, (∀ b ∈ ds,isAsciiDigit b = true) ∧ (ds = [] → hasDigit = true) ∧ p.rest = ds++p'.rest ∧
      v = literal value ds ∧ (Fits 64 value → Fits 64 v) := by
  fun_induction numberLoop hasDigit value p with
  | case1 value p hlt hnot =>
    simp only [Option.some.injEq,Prod.mk.injEq,Except.ok.injEq] at h
    obtain ⟨rfl,rfl⟩ := h
    exact ⟨[],by simp,by simp,rfl,rfl,id⟩
  | case2 => cases h
  | case3 => cases h
  | case4 => cases h
  | case5 hasDigit value p hlt hdigit tens htens next hnext ih =>
    obtain ⟨ds,hds,-,hrest,hv,hfits⟩ := ih h
    obtain ⟨rfl,-⟩ := checked_eq_some.mp htens
    obtain ⟨rfl,hnextFits⟩ := checked_eq_some.mp hnext
    refine ⟨p.bytes[p.pos]::ds,?_,by simp,?_,hv,fun _ => hfits hnextFits⟩
    · intro b hb
      rcases List.mem_cons.mp hb with rfl | hb
      · simpa using hdigit
      · exact hds b hb
    · rw [rest_cons hlt]
      exact congrArg _ hrest
  | case6 value p hlt =>
    simp only [Option.some.injEq,Prod.mk.injEq,Except.ok.injEq] at h
    obtain ⟨rfl,rfl⟩ := h
    exact ⟨[],by simp,by simp,rfl,rfl,id⟩
  | case7 => cases h

/-- A tree of this level stands between the two parsers and has this value. -/
def Reads (k : Level) (p : CalcParser) (v : ℤ) (p' : CalcParser) : Prop :=
  ∃ (t : Tree k) (s w : List UInt8),
    Spells t s ∧ t.eval = some v ∧ Whitespace w ∧ p.rest = s++(w++p'.rest)

/-- A tree with the first value that ends at the first parser extends to one with the second
value that ends at the second parser. -/
def Extends (k : Level) (a : ℤ) (p : CalcParser) (v : ℤ) (p' : CalcParser) : Prop :=
  ∀ (t : Tree k) (s w : List UInt8), Spells t s → t.eval = some a → Whitespace w →
    ∃ (t' : Tree k) (s' w' : List UInt8),
      Spells t' s' ∧ t'.eval = some v ∧ Whitespace w' ∧ s++(w++p.rest) = s'++(w'++p'.rest)

theorem extends_skipWs (k : Level) (v : ℤ) (p : CalcParser) : Extends k v p v p.skipWs := by
  intro t s w ht hv hw
  obtain ⟨w',hw',hrest⟩ := p.skipWs_split
  exact ⟨t,s,w++w',ht,hv,hw.append hw',by rw [hrest,List.append_assoc]⟩

theorem parseNumber_reads {p p' : CalcParser} {v : ℤ} (h : parseNumber p = some (.ok v,p')) :
    Reads .factor p v p' := by
  obtain ⟨w,hw,hskip⟩ := p.skipWs_split
  obtain ⟨ds,hds,hne,hrest,rfl,hfits⟩ := numberLoop_ok h
  have hdigits : Digits ds := ⟨fun hnil => by simpa using hne hnil,hds⟩
  refine ⟨.number ds,w++ds,[],.number hw hdigits,?_,Whitespace.nil,?_⟩
  · exact checked_eq_some.mpr ⟨rfl,hfits (by decide)⟩
  · rw [hskip,hrest,List.append_assoc]
    rfl

theorem Reads.signed {p p₁ p' : CalcParser} {v v' : ℤ} {w : List UInt8} {b : UInt8}
    {sign : Tree .factor → Tree .factor} (h : Reads .factor p₁ v p') (hrest : p.rest = w++b::p₁.rest)
    (hspells : ∀ f s, Spells f s → Spells (sign f) (w++b::s))
    (heval : ∀ f : Tree .factor,f.eval = some v → (sign f).eval = some v') : Reads .factor p v' p' := by
  obtain ⟨f,s,w',hf,hv,hw',hrest'⟩ := h
  refine ⟨sign f,w++b::s,w',hspells f s hf,heval f hv,hw',?_⟩
  rw [hrest,hrest']
  simp

theorem consume_split {p : CalcParser} {ch : UInt8} (h : (p.consume ch).1 = true) :
    ∃ w, Whitespace w ∧ p.rest = w++ch::(p.consume ch).2.rest := by
  obtain ⟨w,hw,hskip⟩ := p.skipWs_split
  by_cases hhead : p.skipWs.rest.head? = some ch
  · obtain ⟨r,hr⟩ := List.head?_eq_some_iff.mp hhead
    refine ⟨w,hw,?_⟩
    rw [hskip,consume_hit hr,hr,(getElem_of_rest hr (lt_of_rest hr)).2]
  · rw [consume_miss hhead] at h
    cases h

theorem Reads.paren {p p₁ p₂ : CalcParser} {v : ℤ} {w : List UInt8} (hw : Whitespace w)
    (h : Reads .expr p₁ v p₂) (hrest : p.rest = w++0x28::p₁.rest) (hclose : (p₂.consume 0x29).1 = true) :
    Reads .factor p v (p₂.consume 0x29).2 := by
  obtain ⟨e,s,w₁,he,hv,hw₁,hrest₁⟩ := h
  obtain ⟨w₂,hw₂,hrest₂⟩ := consume_split hclose
  refine ⟨.paren e,_,[],.paren hw he (hw₁.append hw₂),hv,Whitespace.nil,?_⟩
  rw [hrest,hrest₁,hrest₂]
  simp

/-- The trees of a chain: one operand, or a tree with one more operand to its right. -/
structure Chain.Trees {τ : Type} (c : Chain τ) (k k' : Level) where
  single : Tree k' → Tree k
  node : τ → Tree k → Tree k' → Tree k
  spells_single : ∀ {u s}, Spells u s → Spells (single u) s
  spells_node : ∀ {t u s w byte op s'}, Spells t s → Whitespace w → c.table.lookup byte = some op →
    Spells u s' → Spells (node op t u) (s++(w++byte::s'))
  eval_single : ∀ u, (single u).eval = u.eval
  eval_node : ∀ op t u, (node op t u).eval = t.eval.bind fun a => u.eval.bind fun b => c.apply op a b

def productTrees : products.Trees .term .factor where
  single := .factor
  node := .product
  spells_single := .factor
  spells_node := .product
  eval_single _ := by rw [Tree.eval]
  eval_node _ _ _ := by rw [Tree.eval]; rfl

def sumTrees : sums.Trees .expr .term where
  single := .term
  node := .sum
  spells_single := .term
  spells_node := .sum
  eval_single _ := by rw [Tree.eval]
  eval_node _ _ _ := by rw [Tree.eval]; rfl

section Chain
variable {τ : Type} {c : Chain τ} {k k' : Level} (trees : c.Trees k k') {fuel : ℕ}
  (hoperand : ∀ p v p', c.operand fuel p = some (.ok v,p') → Reads k' p v p')
  (hloop : ∀ a p v p', c.loop fuel a p = some (.ok v,p') → Extends k a p v p')
include trees hoperand hloop

theorem Chain.loop_sound (a : ℤ) (p : CalcParser) (v : ℤ) (p' : CalcParser)
    (h : c.loop (fuel+1) a p = some (.ok v,p')) : Extends k a p v p' := by
  rw [c.loop_succ] at h
  cases htoken : p.token c.table with
  | none =>
    rw [htoken] at h
    simp only [Option.some.injEq,Prod.mk.injEq,Except.ok.injEq] at h
    obtain ⟨rfl,rfl⟩ := h
    exact extends_skipWs _ _ p
  | some found =>
    obtain ⟨op,p₁⟩ := found
    obtain ⟨w₁,byte,hw₁,hbyte,hrest⟩ := token_split htoken
    rw [htoken] at h
    obtain ⟨b,p₂,hb,h⟩ := andThen_eq_ok.mp h
    obtain ⟨x,p₃,hrun,hlast⟩ := andThen_eq_ok.mp h
    obtain ⟨hx,rfl⟩ := c.run_eq_ok.mp hrun
    obtain ⟨u,s₂,w₂,hu,hub,hw₂,hrest₂⟩ := hoperand _ _ _ hb
    -- the tree to the left, the operator and the operand make the tree the loop goes on with
    intro t s w ht ha hw
    have hnode := trees.spells_node ht (hw.append hw₁) hbyte hu
    have heval : (trees.node op t u).eval = some x := by
      rw [trees.eval_node,ha,hub]
      exact hx
    obtain ⟨t',s',w',ht',hv,hw',hend⟩ := hloop _ _ _ _ hlast _ _ w₂ hnode heval hw₂
    refine ⟨t',s',w',ht',hv,hw',?_⟩
    rw [← hend,hrest,hrest₂]
    simp

theorem Chain.parse_sound (p : CalcParser) (v : ℤ) (p' : CalcParser)
    (h : c.parse (fuel+1) p = some (.ok v,p')) : Reads k p v p' := by
  rw [c.parse_succ] at h
  obtain ⟨a,p₁,ha,hlast⟩ := andThen_eq_ok.mp h
  obtain ⟨u,s,w,hu,heval,hw,hrest⟩ := hoperand _ _ _ ha
  rw [Reads,hrest]
  exact hloop _ _ _ _ hlast (trees.single u) s w (trees.spells_single hu)
    ((trees.eval_single u).trans heval) hw

end Chain

/-- What the five procedures say about an accepted input, at one bound. -/
structure SoundAt (fuel : ℕ) : Prop where
  factor : ∀ p v p', parseFactor fuel p = some (.ok v,p') → Reads .factor p v p'
  termLoop : ∀ a p v p', termLoop fuel a p = some (.ok v,p') → Extends .term a p v p'
  term : ∀ p v p', parseTerm fuel p = some (.ok v,p') → Reads .term p v p'
  exprLoop : ∀ a p v p', exprLoop fuel a p = some (.ok v,p') → Extends .expr a p v p'
  expr : ∀ p v p', parseExpr fuel p = some (.ok v,p') → Reads .expr p v p'

theorem parseFactor_sound {fuel : ℕ} (ih : SoundAt fuel) (p : CalcParser) (v : ℤ) (p' : CalcParser)
    (h : parseFactor (fuel+1) p = some (.ok v,p')) : Reads .factor p v p' := by
  rw [parseFactor_succ] at h
  cases htoken : p.token openings with
  | none =>
    rw [htoken] at h
    exact parseNumber_reads h
  | some found =>
    obtain ⟨opening,p₁⟩ := found
    obtain ⟨w,b,hw,hb,hrest⟩ := token_split htoken
    have hbyte := mem_of_lookup hb
    rw [htoken] at h
    cases opening with
    | plus =>
      obtain rfl : b = 0x2B := by simpa [openings] using hbyte
      exact (ih.factor _ _ _ h).signed hrest (fun f s hf => .plus hw hf) fun f hf => hf
    | minus =>
      obtain rfl : b = 0x2D := by simpa [openings] using hbyte
      obtain ⟨x,p₂,hx,hlast⟩ := andThen_eq_ok.mp h
      obtain ⟨hneg,rfl⟩ := okOr_eq_ok.mp hlast
      refine (ih.factor _ _ _ hx).signed hrest (fun f s hf => .minus hw hf) fun f hf => ?_
      rw [Tree.eval,hf]
      exact hneg
    | paren =>
      obtain rfl : b = 0x28 := by simpa [openings] using hbyte
      obtain ⟨x,p₂,hx,hclose⟩ := andThen_eq_ok.mp h
      split_ifs at hclose with hfound
      · simp only [Option.some.injEq,Prod.mk.injEq,Except.ok.injEq] at hclose
        obtain ⟨rfl,rfl⟩ := hclose
        exact Reads.paren hw (ih.expr _ _ _ hx) hrest hfound
      · simp at hclose

theorem sound (fuel : ℕ) : SoundAt fuel := by
  induction fuel with
  | zero => constructor <;> intros <;> contradiction
  | succ fuel ih =>
    exact ⟨parseFactor_sound ih,
      Chain.loop_sound productTrees ih.factor ih.termLoop,
      Chain.parse_sound productTrees ih.factor ih.termLoop,
      Chain.loop_sound sumTrees ih.term ih.exprLoop,
      Chain.parse_sound sumTrees ih.term ih.exprLoop⟩

theorem Reads.shorter {k : Level} {p p' : CalcParser} {v : ℤ} (h : Reads k p v p') :
    p'.rest.length < p.rest.length := by
  obtain ⟨t,s,w,ht,-,-,hrest⟩ := h
  have hpos := List.length_pos_iff.mpr ht.ne_nil
  rw [hrest,List.length_append,List.length_append]
  omega

end Calculator
end EnosKernel
