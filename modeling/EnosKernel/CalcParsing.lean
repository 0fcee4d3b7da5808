import EnosKernel.Calculator

/-! The calculator's parser, seen through the bytes it has not read yet.  A token is the
first byte behind whitespace; each loop and each call of the parser is one equation that
branches on it. -/
namespace EnosKernel
namespace Calculator

open SignedArith Fueled

namespace CalcParser

def rest (p : CalcParser) : List UInt8 := p.bytes.drop p.pos

def advance (p : CalcParser) : CalcParser := { p with pos := p.pos+1 }

theorem rest_cons {p : CalcParser} (h : p.pos < p.bytes.length) :
    p.rest = p.bytes[p.pos]::p.advance.rest := List.drop_eq_getElem_cons h

theorem rest_nil {p : CalcParser} (h : ¬ p.pos < p.bytes.length) : p.rest = [] :=
  List.drop_eq_nil_of_le (not_lt.mp h)

theorem lt_of_rest {p : CalcParser} {b : UInt8} {r : List UInt8} (h : p.rest = b::r) :
    p.pos < p.bytes.length := by
  by_contra hlt
  rw [rest_nil hlt] at h
  cases h

theorem getElem_of_rest {p : CalcParser} {b : UInt8} {r : List UInt8} (h : p.rest = b::r)
    (hlt : p.pos < p.bytes.length) : p.bytes[p.pos] = b ∧ p.advance.rest = r := by
  rw [rest_cons hlt,List.cons.injEq] at h
  exact h

theorem skipWs_rest (p : CalcParser) : p.skipWs.rest = p.rest.dropWhile isAsciiWhitespace := by
  fun_induction skipWs p with
  | case1 p h hws ih =>
    rw [ih,rest_cons h,List.dropWhile_cons_of_pos hws]
    rfl
  | case2 p h hws => rw [rest_cons h,List.dropWhile_cons_of_neg hws]
  | case3 p h => rw [rest_nil h,List.dropWhile_nil]

theorem skipWs_of_rest {p : CalcParser} (h : ∀ b ∈ p.rest.head?,isAsciiWhitespace b = false) :
    p.skipWs = p := by
  rw [skipWs]
  split_ifs with hlt hws
  · have := h _ (by rw [rest_cons hlt]; rfl)
    simp [this] at hws
  · rfl
  · rfl

theorem head_skipWs (p : CalcParser) : ∀ b ∈ p.skipWs.rest.head?,isAsciiWhitespace b = false := by
  intro b hb
  rw [skipWs_rest] at hb
  have := List.head?_dropWhile_not isAsciiWhitespace p.rest
  rw [Option.mem_def.mp hb] at this
  simpa using this

theorem skipWs_skipWs (p : CalcParser) : p.skipWs.skipWs = p.skipWs := skipWs_of_rest p.head_skipWs

/-- The token of a table at the parser, and the parser behind it. -/
def token {τ : Type} (table : List (UInt8 × τ)) (p : CalcParser) : Option (τ × CalcParser) :=
  match p.skipWs.rest with
  | [] => none
  | b::_ => (table.lookup b).map (·,p.skipWs.advance)

theorem token_of_rest {τ : Type} {table : List (UInt8 × τ)} {p : CalcParser} {b : UInt8} {r : List UInt8}
    (h : p.skipWs.rest = b::r) : p.token table = (table.lookup b).map (·,p.skipWs.advance) := by
  rw [token,h]

theorem token_none {τ : Type} {table : List (UInt8 × τ)} {p : CalcParser}
    (h : ∀ e ∈ table,p.skipWs.rest.head? ≠ some e.1) : p.token table = none := by
  cases hr : p.skipWs.rest with
  | nil => rw [token,hr]
  | cons b r =>
    have hlookup : table.lookup b = none := by
      rw [List.lookup_eq_none_iff]
      intro e he
      have hne := h e he
      rw [hr,List.head?_cons,ne_eq,Option.some.injEq] at hne
      simpa using hne
    rw [token_of_rest hr,hlookup,Option.map_none]

theorem consume_hit {p : CalcParser} {ch : UInt8} {r : List UInt8} (h : p.skipWs.rest = ch::r) :
    p.consume ch = (true,p.skipWs.advance) := by
  have hlt := lt_of_rest h
  have hb := (getElem_of_rest h hlt).1
  simp only [consume,dif_pos hlt,hb,if_true,advance]

theorem consume_miss {p : CalcParser} {ch : UInt8} (h : p.skipWs.rest.head? ≠ some ch) :
    p.consume ch = (false,p.skipWs) := by
  unfold consume
  by_cases hlt : p.skipWs.pos < p.skipWs.bytes.length
  · rw [rest_cons hlt,List.head?_cons,ne_eq,Option.some.injEq] at h
    simp only [dif_pos hlt,if_neg h]
  · simp only [dif_neg hlt]

theorem consume_skipWs (p : CalcParser) (ch : UInt8) : p.skipWs.consume ch = p.consume ch := by
  rw [consume,consume,skipWs_skipWs]

end CalcParser

inductive SumOp
  | add
  | sub
  deriving DecidableEq, Repr

inductive ProductOp
  | mul
  | div
  | rem
  deriving DecidableEq, Repr

/-- What a factor can start with, other than a digit. -/
inductive Opening
  | plus
  | minus
  | paren
  deriving DecidableEq, Repr

def SumOp.apply : SumOp → ℤ → ℤ → Option ℤ
  | .add => checkedAdd 64
  | .sub => checkedSub 64

def ProductOp.apply : ProductOp → ℤ → ℤ → Option ℤ
  | .mul => checkedMul 64
  | .div => checkedDiv 64
  | .rem => checkedRem 64

def sumOps : List (UInt8 × SumOp) := [(0x2B,.add),(0x2D,.sub)]
def productOps : List (UInt8 × ProductOp) := [(0x2A,.mul),(0x2F,.div),(0x25,.rem)]
def openings : List (UInt8 × Opening) := [(0x2B,.plus),(0x2D,.minus),(0x28,.paren)]

/-- A product operation in the parser; a zero divisor has its own message. -/
def ProductOp.run (op : ProductOp) (value rhs : ℤ) (p : CalcParser) : Parsed :=
  if op ≠ .mul ∧ rhs = 0 then some (.error "division by zero",p)
  else okOr (op.apply value rhs) "integer overflow" p

theorem ProductOp.run_eq_ok {op : ProductOp} {value rhs v : ℤ} {p p' : CalcParser} :
    op.run value rhs p = some (.ok v,p') ↔ op.apply value rhs = some v ∧ p' = p := by
  unfold ProductOp.run
  split_ifs with h
  · obtain ⟨hop,rfl⟩ := h
    cases op <;> simp_all [ProductOp.apply,checkedDiv,checkedRem]
  · exact okOr_eq_ok

section
open CalcParser

variable (fuel : ℕ) (value : ℤ) (p : CalcParser)

theorem exprLoop_succ : exprLoop (fuel+1) value p = match p.token sumOps with
    | some (op,p) => andThen (parseTerm fuel p) fun rhs p =>
        andThen (okOr (op.apply value rhs) "integer overflow" p) (exprLoop fuel)
    | none => some (.ok value,p.skipWs) := by
  rw [exprLoop]
  by_cases hadd : p.skipWs.rest.head? = some 0x2B
  · obtain ⟨r,hr⟩ := List.head?_eq_some_iff.mp hadd
    have htoken : p.token sumOps = some (.add,p.skipWs.advance) := token_of_rest hr
    simp only [htoken,consume_hit hr,if_true,SumOp.apply]
  · by_cases hsub : p.skipWs.rest.head? = some 0x2D
    · obtain ⟨r,hr⟩ := List.head?_eq_some_iff.mp hsub
      have htoken : p.token sumOps = some (.sub,p.skipWs.advance) := token_of_rest hr
      simp only [htoken,consume_miss hadd,consume_skipWs,consume_hit hr,if_true,SumOp.apply]
      rfl
    · have htoken : p.token sumOps = none := token_none (by simp [sumOps,hadd,hsub])
      simp only [htoken,consume_miss hadd,consume_skipWs,consume_miss hsub]
      rfl

theorem divide_run {op : ProductOp} (hop : op ≠ .mul) : (fun (rhs : ℤ) (p : CalcParser) =>
      if rhs = 0 then some (.error "division by zero",p)
      else andThen (okOr (op.apply value rhs) "integer overflow" p) (termLoop fuel)) =
    fun rhs p => andThen (op.run value rhs p) (termLoop fuel) := by
  funext rhs p
  by_cases hzero : rhs = 0
  · simp [ProductOp.run,hop,hzero,andThen]
  · simp [ProductOp.run,hzero]

theorem termLoop_succ : termLoop (fuel+1) value p = match p.token productOps with
    | some (op,p) => andThen (parseFactor fuel p) fun rhs p =>
        andThen (op.run value rhs p) (termLoop fuel)
    | none => some (.ok value,p.skipWs) := by
  rw [termLoop]
  by_cases hmul : p.skipWs.rest.head? = some 0x2A
  · obtain ⟨r,hr⟩ := List.head?_eq_some_iff.mp hmul
    have htoken : p.token productOps = some (.mul,p.skipWs.advance) := token_of_rest hr
    simp only [htoken,consume_hit hr,if_true]
    rfl
  · by_cases hdiv : p.skipWs.rest.head? = some 0x2F
    · obtain ⟨r,hr⟩ := List.head?_eq_some_iff.mp hdiv
      have htoken : p.token productOps = some (.div,p.skipWs.advance) := token_of_rest hr
      simp only [htoken,consume_miss hmul,consume_skipWs,consume_hit hr,if_true]
      rw [← divide_run fuel value (show ProductOp.div ≠ .mul by decide)]
      rfl
    · by_cases hrem : p.skipWs.rest.head? = some 0x25
      · obtain ⟨r,hr⟩ := List.head?_eq_some_iff.mp hrem
        have htoken : p.token productOps = some (.rem,p.skipWs.advance) := token_of_rest hr
        simp only [htoken,consume_miss hmul,consume_skipWs,consume_miss hdiv,consume_hit hr,if_true]
        rw [← divide_run fuel value (show ProductOp.rem ≠ .mul by decide)]
        rfl
      · have htoken : p.token productOps = none := token_none (by simp [productOps,hmul,hdiv,hrem])
        simp only [htoken,consume_miss hmul,consume_skipWs,consume_miss hdiv,consume_miss hrem]
        rfl

theorem parseFactor_succ : parseFactor (fuel+1) p = match p.token openings with
    | some (.plus,p) => parseFactor fuel p
    | some (.minus,p) => andThen (parseFactor fuel p) fun v p => okOr (checkedNeg 64 v) "integer overflow" p
    | some (.paren,p) => andThen (parseExpr fuel p) fun v p =>
        if (p.consume 0x29).1 then some (.ok v,(p.consume 0x29).2)
        else some (.error "missing closing ')'",(p.consume 0x29).2)
    | none => parseNumber p := by
  rw [parseFactor]
  by_cases hplus : p.skipWs.rest.head? = some 0x2B
  · obtain ⟨r,hr⟩ := List.head?_eq_some_iff.mp hplus
    have htoken : p.token openings = some (.plus,p.skipWs.advance) := token_of_rest hr
    simp only [htoken,consume_hit hr,if_true]
  · by_cases hminus : p.skipWs.rest.head? = some 0x2D
    · obtain ⟨r,hr⟩ := List.head?_eq_some_iff.mp hminus
      have htoken : p.token openings = some (.minus,p.skipWs.advance) := token_of_rest hr
      simp only [htoken,consume_miss hplus,consume_skipWs,consume_hit hr,if_true]
      rfl
    · by_cases hparen : p.skipWs.rest.head? = some 0x28
      · obtain ⟨r,hr⟩ := List.head?_eq_some_iff.mp hparen
        have htoken : p.token openings = some (.paren,p.skipWs.advance) := token_of_rest hr
        simp only [htoken,consume_miss hplus,consume_skipWs,consume_miss hminus,consume_hit hr,if_true]
        rfl
      · have htoken : p.token openings = none := token_none (by simp [openings,hplus,hminus,hparen])
        simp only [htoken,consume_miss hplus,consume_skipWs,consume_miss hminus,consume_miss hparen,
          parseNumber,skipWs_skipWs]
        rfl

end

/-- Operands joined by operators of one precedence: what a term is to factors and an expression
to terms. -/
structure Chain (τ : Type) where
  table : List (UInt8 × τ)
  apply : τ → ℤ → ℤ → Option ℤ
  run : τ → ℤ → ℤ → CalcParser → Parsed
  operand : ℕ → CalcParser → Parsed
  loop : ℕ → ℤ → CalcParser → Parsed
  parse : ℕ → CalcParser → Parsed
  run_eq_ok : ∀ {op a b v p p'}, run op a b p = some (.ok v,p') ↔ apply op a b = some v ∧ p' = p
  run_stays : ∀ op a b p, ∃ result, run op a b p = some (result,p)
  loop_zero : ∀ a p, loop 0 a p = none
  parse_zero : ∀ p, parse 0 p = none
  loop_succ : ∀ fuel a p, loop (fuel+1) a p = match p.token table with
    | some (op,p) => andThen (operand fuel p) fun b p => andThen (run op a b p) (loop fuel)
    | none => some (.ok a,p.skipWs)
  parse_succ : ∀ fuel p, parse (fuel+1) p = andThen (operand fuel p) (loop fuel)

def products : Chain ProductOp where
  table := productOps
  apply := ProductOp.apply
  run := ProductOp.run
  operand := parseFactor
  loop := termLoop
  parse := parseTerm
  run_eq_ok := ProductOp.run_eq_ok
  run_stays op a b p := by
    unfold ProductOp.run
    split_ifs
    · exact ⟨_,rfl⟩
    · exact okOr_stays _ _ _
  loop_zero _ _ := by rw [termLoop]
  parse_zero _ := by rw [parseTerm]
  loop_succ fuel a p := by
    rw [termLoop_succ]
    cases p.token productOps <;> rfl
  parse_succ _ _ := by rw [parseTerm]

def sums : Chain SumOp where
  table := sumOps
  apply := SumOp.apply
  run op a b p := okOr (op.apply a b) "integer overflow" p
  operand := parseTerm
  loop := exprLoop
  parse := parseExpr
  run_eq_ok := okOr_eq_ok
  run_stays _ _ _ _ := okOr_stays _ _ _
  loop_zero _ _ := by rw [exprLoop]
  parse_zero _ := by rw [parseExpr]
  loop_succ fuel a p := by
    rw [exprLoop_succ]
    cases p.token sumOps <;> rfl
  parse_succ _ _ := by rw [parseExpr]

end Calculator
end EnosKernel
