import EnosKernel.CalcSoundness

/-! The calculator's parser runs to an answer inside its input.  A larger bound on the call
depth never changes an outcome, three calls for each byte left are always enough, and the
position only moves forward, up to the end of the input. -/
namespace EnosKernel
namespace Calculator

open SignedArith Fueled CalcParser

/-- The five procedures at one bound and at the next. -/
structure StableAt (fuel : ℕ) : Prop where
  factor : ∀ p, Below (parseFactor fuel p) (parseFactor (fuel+1) p)
  termLoop : ∀ a p, Below (termLoop fuel a p) (termLoop (fuel+1) a p)
  term : ∀ p, Below (parseTerm fuel p) (parseTerm (fuel+1) p)
  exprLoop : ∀ a p, Below (exprLoop fuel a p) (exprLoop (fuel+1) a p)
  expr : ∀ p, Below (parseExpr fuel p) (parseExpr (fuel+1) p)

section Chain
variable {τ : Type} (c : Chain τ) {fuel : ℕ}
  (hoperand : ∀ p, Below (c.operand fuel p) (c.operand (fuel+1) p))
  (hloop : ∀ a p, Below (c.loop fuel a p) (c.loop (fuel+1) a p))
include hoperand hloop

theorem Chain.loop_below (a : ℤ) (p : CalcParser) :
    Below (c.loop (fuel+1) a p) (c.loop (fuel+2) a p) := by
  rw [c.loop_succ,c.loop_succ]
  cases p.token c.table with
  | none => exact Below.refl _
  | some found => exact (hoperand found.2).andThen fun _ _ => (Below.refl _).andThen hloop

theorem Chain.parse_below (p : CalcParser) : Below (c.parse (fuel+1) p) (c.parse (fuel+2) p) := by
  rw [c.parse_succ,c.parse_succ]
  exact (hoperand p).andThen hloop

end Chain

theorem parseFactor_below {fuel : ℕ} (ih : StableAt fuel) (p : CalcParser) :
    Below (parseFactor (fuel+1) p) (parseFactor (fuel+2) p) := by
  rw [parseFactor_succ,parseFactor_succ]
  cases p.token openings with
  | none => exact Below.refl _
  | some found =>
    obtain ⟨opening,p₁⟩ := found
    cases opening with
    | plus => exact ih.factor p₁
    | minus => exact (ih.factor p₁).andThen fun _ _ => Below.refl _
    | paren => exact (ih.expr p₁).andThen fun _ _ => Below.refl _

theorem stable (fuel : ℕ) : StableAt fuel := by
  induction fuel with
  | zero =>
    exact ⟨fun p => below_of_eq_none (by rw [parseFactor]),
      fun a p => below_of_eq_none (products.loop_zero a p),fun p => below_of_eq_none (products.parse_zero p),
      fun a p => below_of_eq_none (sums.loop_zero a p),fun p => below_of_eq_none (sums.parse_zero p)⟩
  | succ fuel ih =>
    exact ⟨parseFactor_below ih,products.loop_below ih.factor ih.termLoop,
      products.parse_below ih.factor ih.termLoop,sums.loop_below ih.term ih.exprLoop,
      sums.parse_below ih.term ih.exprLoop⟩

theorem stable_factor (p : CalcParser) : Stable fun n => parseFactor n p := fun n => (stable n).factor p
theorem stable_term (p : CalcParser) : Stable fun n => parseTerm n p := fun n => (stable n).term p
theorem stable_expr (p : CalcParser) : Stable fun n => parseExpr n p := fun n => (stable n).expr p

theorem stable_termLoop (a : ℤ) (p : CalcParser) : Stable fun n => termLoop n a p :=
  fun n => (stable n).termLoop a p

theorem stable_exprLoop (a : ℤ) (p : CalcParser) : Stable fun n => exprLoop n a p :=
  fun n => (stable n).exprLoop a p

theorem numberLoop_ne_none (hasDigit : Bool) (value : ℤ) (p : CalcParser) :
    numberLoop hasDigit value p ≠ none := by
  fun_induction numberLoop hasDigit value p <;> simp_all

theorem token_shorter {τ : Type} {table : List (UInt8 × τ)} {t : τ} {p p₁ : CalcParser}
    (h : p.token table = some (t,p₁)) : p₁.rest.length < p.rest.length := by
  obtain ⟨w,b,-,-,hrest⟩ := token_split h
  rw [hrest,List.length_append,List.length_cons]
  omega

/-- Bounds that are large enough when at most this many bytes are left. -/
structure EnoughFor (n : ℕ) : Prop where
  factor : ∀ fuel p, 3*n+1 ≤ fuel → p.rest.length ≤ n → parseFactor fuel p ≠ none
  termLoop : ∀ fuel a p, 3*n+1 ≤ fuel → p.rest.length ≤ n → termLoop fuel a p ≠ none
  term : ∀ fuel p, 3*n+2 ≤ fuel → p.rest.length ≤ n → parseTerm fuel p ≠ none
  exprLoop : ∀ fuel a p, 3*n+1 ≤ fuel → p.rest.length ≤ n → exprLoop fuel a p ≠ none
  expr : ∀ fuel p, 3*n+3 ≤ fuel → p.rest.length ≤ n → parseExpr fuel p ≠ none

section Chain
variable {τ : Type} (c : Chain τ) {k : Level}
  (hsound : ∀ fuel p v p', c.operand fuel p = some (.ok v,p') → Reads k p v p')
include hsound

/-- The loop needs as much for the bytes behind an operator as an operand and the loop need there. -/
theorem Chain.loop_enough {n : ℕ}
    (hoperand : ∀ m < n, ∀ fuel p, 3*m+2 ≤ fuel → p.rest.length ≤ m → c.operand fuel p ≠ none)
    (hloop : ∀ m < n, ∀ fuel a p, 3*m+1 ≤ fuel → p.rest.length ≤ m → c.loop fuel a p ≠ none)
    (fuel : ℕ) (a : ℤ) (p : CalcParser) (hfuel : 3*n+1 ≤ fuel) (hp : p.rest.length ≤ n) :
    c.loop fuel a p ≠ none := by
  obtain ⟨fuel,rfl⟩ : ∃ k, fuel = k+1 := ⟨fuel-1,by omega⟩
  rw [c.loop_succ]
  cases htoken : p.token c.table with
  | none => simp
  | some found =>
    obtain ⟨op,p₁⟩ := found
    have hshort := token_shorter htoken
    refine andThen_ne_none (hoperand _ (by omega) fuel p₁ (by omega) le_rfl) fun b p₂ hb => ?_
    have hread := (hsound _ _ _ _ hb).shorter
    refine andThen_ne_none (ne_none_of_stays (c.run_stays op a b p₂)) fun x p₃ hx => ?_
    obtain ⟨-,rfl⟩ := c.run_eq_ok.mp hx
    exact hloop p₁.rest.length (by omega) fuel x p₃ (by omega) hread.le

theorem Chain.parse_enough {bound : ℕ} {fuel : ℕ} {p : CalcParser} (hp : p.rest.length ≤ bound)
    (hoperand : c.operand fuel p ≠ none)
    (hloop : ∀ a p', p'.rest.length ≤ bound → c.loop fuel a p' ≠ none) : c.parse (fuel+1) p ≠ none := by
  rw [c.parse_succ]
  refine andThen_ne_none hoperand fun a p₁ ha => ?_
  have hread := (hsound _ _ _ _ ha).shorter
  exact hloop a p₁ (by omega)

end Chain

theorem parseFactor_enough {n : ℕ} (ih : ∀ m < n,EnoughFor m) (fuel : ℕ) (p : CalcParser)
    (hfuel : 3*n+1 ≤ fuel) (hp : p.rest.length ≤ n) : parseFactor fuel p ≠ none := by
  obtain ⟨fuel,rfl⟩ : ∃ k, fuel = k+1 := ⟨fuel-1,by omega⟩
  rw [parseFactor_succ]
  cases htoken : p.token openings with
  | none => exact numberLoop_ne_none _ _ _
  | some found =>
    obtain ⟨opening,p₁⟩ := found
    have hshort := token_shorter htoken
    have hless := ih p₁.rest.length (by omega)
    have hfactor := hless.factor fuel p₁ (by omega) le_rfl
    have hexpr := hless.expr fuel p₁ (by omega) le_rfl
    cases opening with
    | plus => exact hfactor
    | minus => exact andThen_ne_none hfactor fun _ _ _ => ne_none_of_stays (okOr_stays _ _ _)
    | paren =>
      refine andThen_ne_none hexpr fun v p₂ _ => ?_
      split_ifs <;> simp

theorem enough (n : ℕ) : EnoughFor n := by
  induction n using Nat.strong_induction_on with
  | h n ih =>
    have hfactor := parseFactor_enough ih
    have htermLoop := products.loop_enough (fun fuel => (sound fuel).factor)
      (fun m hm fuel p hfuel => (ih m hm).factor fuel p (by omega)) fun m hm => (ih m hm).termLoop
    have hexprLoop := sums.loop_enough (fun fuel => (sound fuel).term)
      (fun m hm => (ih m hm).term) fun m hm => (ih m hm).exprLoop
    have hterm : ∀ fuel p, 3*n+2 ≤ fuel → p.rest.length ≤ n → parseTerm fuel p ≠ none := by
      intro fuel p hfuel hp
      obtain ⟨fuel,rfl⟩ : ∃ k, fuel = k+1 := ⟨fuel-1,by omega⟩
      exact products.parse_enough (fun fuel => (sound fuel).factor) hp
        (hfactor fuel p (by omega) hp) fun a p' => htermLoop fuel a p' (by omega)
    refine ⟨hfactor,htermLoop,hterm,hexprLoop,?_⟩
    intro fuel p hfuel hp
    obtain ⟨fuel,rfl⟩ : ∃ k, fuel = k+1 := ⟨fuel-1,by omega⟩
    exact sums.parse_enough (fun fuel => (sound fuel).term) hp
      (hterm fuel p (by omega) hp) fun a p' => hexprLoop fuel a p' (by omega)

theorem parseExpr_fuelFor (p : CalcParser) : ∃ o, parseExpr (fuelFor p.bytes.length) p = some o := by
  have hlength : p.rest.length ≤ p.bytes.length := by
    rw [rest,List.length_drop]
    omega
  exact Option.ne_none_iff_exists'.mp ((enough _).expr _ _ le_rfl hlength)

/-- Forward on the same input, and not past its end. -/
structure Advances (p p' : CalcParser) : Prop where
  bytes : p'.bytes = p.bytes
  forward : p.pos ≤ p'.pos
  bounded : p.pos ≤ p.bytes.length → p'.pos ≤ p.bytes.length

theorem Advances.refl (p : CalcParser) : Advances p p := ⟨rfl,le_rfl,id⟩

instance advancesTrans : IsTrans CalcParser Advances where
  trans p q r hpq hqr := by
    refine ⟨hqr.bytes.trans hpq.bytes,hpq.forward.trans hqr.forward,fun h => ?_⟩
    have hlast := hqr.bounded
    rw [hpq.bytes] at hlast
    exact hlast (hpq.bounded h)

theorem Advances.trans {p q r : CalcParser} (hpq : Advances p q) (hqr : Advances q r) : Advances p r :=
  trans_of Advances hpq hqr

theorem advances_advance {p : CalcParser} (h : p.pos < p.bytes.length) : Advances p p.advance :=
  ⟨rfl,Nat.le_succ _,fun _ => h⟩

theorem advances_skipWs (p : CalcParser) : Advances p p.skipWs := by
  fun_induction skipWs p with
  | case1 p h hws ih => exact (advances_advance h).trans ih
  | case2 p h hws => exact Advances.refl p
  | case3 p h => exact Advances.refl p

theorem advances_consume (p : CalcParser) (ch : UInt8) : Advances p (p.consume ch).2 := by
  have hskip := advances_skipWs p
  unfold consume
  by_cases hlt : p.skipWs.pos < p.skipWs.bytes.length
  · by_cases hbyte : p.skipWs.bytes[p.skipWs.pos] = ch
    · simp only [dif_pos hlt,if_pos hbyte]
      exact hskip.trans (advances_advance hlt)
    · simp only [dif_pos hlt,if_neg hbyte]
      exact hskip
  · simp only [dif_neg hlt]
    exact hskip

theorem advances_token {τ : Type} {table : List (UInt8 × τ)} {t : τ} {p p₁ : CalcParser}
    (h : p.token table = some (t,p₁)) : Advances p p₁ := by
  cases hr : p.skipWs.rest with
  | nil => simp [token,hr] at h
  | cons b r =>
    rw [token_of_rest hr,Option.map_eq_some_iff] at h
    obtain ⟨t',-,heq⟩ := h
    simp only [Prod.mk.injEq] at heq
    obtain ⟨-,rfl⟩ := heq
    exact (advances_skipWs p).trans (advances_advance (lt_of_rest hr))

theorem numberLoop_moves (hasDigit : Bool) (value : ℤ) (p : CalcParser) :
    Moves Advances p (numberLoop hasDigit value p) := by
  fun_induction numberLoop hasDigit value p with
  | case5 hasDigit value p hlt hdigit tens htens next hnext ih => exact ih.from (advances_advance hlt)
  | _ => exact moves_some (Advances.refl _) _

structure MovesAt (fuel : ℕ) : Prop where
  factor : ∀ p, Moves Advances p (parseFactor fuel p)
  termLoop : ∀ a p, Moves Advances p (termLoop fuel a p)
  term : ∀ p, Moves Advances p (parseTerm fuel p)
  exprLoop : ∀ a p, Moves Advances p (exprLoop fuel a p)
  expr : ∀ p, Moves Advances p (parseExpr fuel p)

section Chain
variable {τ : Type} (c : Chain τ) {fuel : ℕ} (hoperand : ∀ p, Moves Advances p (c.operand fuel p))
  (hloop : ∀ a p, Moves Advances p (c.loop fuel a p))
include hoperand hloop

theorem Chain.loop_moves (a : ℤ) (p : CalcParser) : Moves Advances p (c.loop (fuel+1) a p) := by
  rw [c.loop_succ]
  cases htoken : p.token c.table with
  | none => exact moves_some (advances_skipWs p) _
  | some found =>
    refine ((hoperand _).from (advances_token htoken)).andThen fun b p₂ hp₂ => ?_
    refine (moves_of_stays hp₂ (c.run_stays _ a b p₂)).andThen fun x p₃ hp₃ => ?_
    exact (hloop x p₃).from hp₃

theorem Chain.parse_moves (p : CalcParser) : Moves Advances p (c.parse (fuel+1) p) := by
  rw [c.parse_succ]
  exact (hoperand p).andThen fun a p₁ hp₁ => (hloop a p₁).from hp₁

end Chain

theorem parseFactor_moves {fuel : ℕ} (ih : MovesAt fuel) (p : CalcParser) :
    Moves Advances p (parseFactor (fuel+1) p) := by
  rw [parseFactor_succ]
  cases htoken : p.token openings with
  | none => exact (numberLoop_moves _ _ _).from (advances_skipWs p)
  | some found =>
    obtain ⟨opening,p₁⟩ := found
    have hadv := advances_token htoken
    cases opening with
    | plus => exact (ih.factor p₁).from hadv
    | minus =>
      exact ((ih.factor p₁).from hadv).andThen fun v p₂ hp₂ => moves_of_stays hp₂ (okOr_stays _ _ _)
    | paren =>
      refine ((ih.expr p₁).from hadv).andThen fun v p₂ hp₂ => ?_
      have hclose := hp₂.trans (advances_consume p₂ 0x29)
      split_ifs
      · exact moves_some hclose _
      · exact moves_some hclose _

theorem moves (fuel : ℕ) : MovesAt fuel := by
  induction fuel with
  | zero =>
    exact ⟨fun p => moves_of_eq_none (by rw [parseFactor]),
      fun a p => moves_of_eq_none (products.loop_zero a p),fun p => moves_of_eq_none (products.parse_zero p),
      fun a p => moves_of_eq_none (sums.loop_zero a p),fun p => moves_of_eq_none (sums.parse_zero p)⟩
  | succ fuel ih =>
    exact ⟨parseFactor_moves ih,products.loop_moves ih.factor ih.termLoop,
      products.parse_moves ih.factor ih.termLoop,sums.loop_moves ih.term ih.exprLoop,
      sums.parse_moves ih.term ih.exprLoop⟩

/-- With a bound of at least `needed` the procedure has one outcome, which leaves the parser
further on in the same input, and strictly further with a value. -/
def Progresses (run : ℕ → Parsed) (needed : ℕ) (p : CalcParser) : Prop :=
  ∃ result p', (∀ fuel, needed ≤ fuel → run fuel = some (result,p')) ∧ p'.bytes = p.bytes ∧
    p.pos ≤ p'.pos ∧ p'.pos ≤ p.bytes.length ∧ ∀ v, result = .ok v → p.pos < p'.pos

theorem Reads.pos_lt {k : Level} {p p' : CalcParser} {v : ℤ} (h : Reads k p v p') (hbytes : p'.bytes = p.bytes) :
    p.pos < p'.pos := by
  have hshort := h.shorter
  rw [rest,rest,List.length_drop,List.length_drop,hbytes] at hshort
  omega

theorem progresses {run : ℕ → Parsed} {needed : ℕ} {p : CalcParser} {k : Level} (hstable : Stable run)
    (henough : run needed ≠ none) (hmoves : Moves Advances p (run needed))
    (hreads : ∀ v p', run needed = some (.ok v,p') → Reads k p v p') (hpos : p.pos ≤ p.bytes.length) :
    Progresses run needed p := by
  obtain ⟨⟨result,p'⟩,hrun⟩ := Option.ne_none_iff_exists'.mp henough
  have hadvances := hmoves _ _ hrun
  refine ⟨result,p',fun fuel hfuel => hstable.of_le hfuel _ hrun,hadvances.bytes,hadvances.forward,
    hadvances.bounded hpos,?_⟩
  rintro v rfl
  exact (hreads v p' hrun).pos_lt hadvances.bytes

/-- From every position in every input the four procedures come to an end inside the input, at
a call depth that the bytes left bound, and move on whenever they return a value. -/
theorem parser_progress (p : CalcParser) (hpos : p.pos ≤ p.bytes.length) :
    Progresses (parseExpr · p) (3*(p.bytes.length-p.pos)+3) p ∧
    Progresses (parseTerm · p) (3*(p.bytes.length-p.pos)+2) p ∧
    Progresses (parseFactor · p) (3*(p.bytes.length-p.pos)+1) p ∧
    Progresses (fun _ => parseNumber p) 0 p := by
  have hrest : p.rest.length ≤ p.bytes.length-p.pos := by rw [rest,List.length_drop]
  have henough := enough (p.bytes.length-p.pos)
  refine ⟨?_,?_,?_,?_⟩
  · exact progresses (stable_expr p) (henough.expr _ p le_rfl hrest) ((moves _).expr p)
      (fun v p' => (sound _).expr p v p') hpos
  · exact progresses (stable_term p) (henough.term _ p le_rfl hrest) ((moves _).term p)
      (fun v p' => (sound _).term p v p') hpos
  · exact progresses (stable_factor p) (henough.factor _ p le_rfl hrest) ((moves _).factor p)
      (fun v p' => (sound _).factor p v p') hpos
  · exact progresses (fun _ => Below.refl _) (numberLoop_ne_none _ _ _)
      ((numberLoop_moves _ _ _).from (advances_skipWs p)) (fun v p' => parseNumber_reads) hpos

/-- From both ends of `1+`. -/
theorem parser_progress_atEnd : Progresses (parseExpr · ⟨[0x31,0x2B],2⟩) 3 ⟨[0x31,0x2B],2⟩ ∧
    Progresses (parseExpr · ⟨[0x31,0x2B],0⟩) 9 ⟨[0x31,0x2B],0⟩ :=
  ⟨(parser_progress ⟨[0x31,0x2B],2⟩ (by decide)).1,(parser_progress ⟨[0x31,0x2B],0⟩ (by decide)).1⟩

end Calculator
end EnosKernel
