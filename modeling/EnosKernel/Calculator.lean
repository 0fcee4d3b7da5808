import EnosKernel.SignedArith
import EnosKernel.Fueled

/-! The calculator of `shell.rs`: a recursive-descent parser that evaluates while it reads.
Every function returns the parser it leaves behind, also with an error. -/
namespace EnosKernel
namespace Calculator

open SignedArith Fueled

structure CalcParser where
  bytes : List UInt8
  pos : ℕ
  deriving DecidableEq, Repr

def isAsciiWhitespace (b : UInt8) : Bool := b == 0x20 || b == 0x09 || b == 0x0A || b == 0x0C || b == 0x0D

def isAsciiDigit (b : UInt8) : Bool := 0x30 ≤ b && b ≤ 0x39

namespace CalcParser

def new (expr : String) : CalcParser := ⟨expr.toUTF8.data.toList,0⟩

def skipWs (p : CalcParser) : CalcParser :=
  if h : p.pos < p.bytes.length then
    if isAsciiWhitespace p.bytes[p.pos] then skipWs { p with pos := p.pos+1 } else p
  else p
termination_by p.bytes.length-p.pos

def consume (p : CalcParser) (ch : UInt8) : Bool × CalcParser :=
  let p := p.skipWs
  if h : p.pos < p.bytes.length then
    if p.bytes[p.pos] = ch then (true,{ p with pos := p.pos+1 }) else (false,p)
  else (false,p)

end CalcParser

abbrev Parsed := Outcome CalcParser String ℤ

/-- The digits of a number; the position stays on a digit that makes it overflow. -/
def numberLoop (hasDigit : Bool) (value : ℤ) (p : CalcParser) : Parsed :=
  if h : p.pos < p.bytes.length then
    if ¬ isAsciiDigit p.bytes[p.pos] then
      if hasDigit then some (.ok value,p) else some (.error "expected number",p)
    else
      match checkedMul 64 value 10 with
      | none => some (.error "integer overflow",p)
      | some tens =>
        match checkedAdd 64 tens (p.bytes[p.pos].toNat-0x30) with
        | none => some (.error "integer overflow",p)
        | some value => numberLoop true value { p with pos := p.pos+1 }
  else if hasDigit then some (.ok value,p)
  else some (.error "expected number",p)
termination_by p.bytes.length-p.pos

def parseNumber (p : CalcParser) : Parsed := numberLoop false 0 p.skipWs

mutual

def parseExpr : ℕ → CalcParser → Parsed
  | 0, _ => none
  | fuel+1, p => andThen (parseTerm fuel p) (exprLoop fuel)

def exprLoop : ℕ → ℤ → CalcParser → Parsed
  | 0, _, _ => none
  | fuel+1, value, p =>
    let plus := p.consume 0x2B
    if plus.1 then
      andThen (parseTerm fuel plus.2) fun rhs p =>
      andThen (okOr (checkedAdd 64 value rhs) "integer overflow" p) (exprLoop fuel)
    else
      let minus := plus.2.consume 0x2D
      if minus.1 then
        andThen (parseTerm fuel minus.2) fun rhs p =>
        andThen (okOr (checkedSub 64 value rhs) "integer overflow" p) (exprLoop fuel)
      else some (.ok value,minus.2)

def parseTerm : ℕ → CalcParser → Parsed
  | 0, _ => none
  | fuel+1, p => andThen (parseFactor fuel p) (termLoop fuel)

def termLoop : ℕ → ℤ → CalcParser → Parsed
  | 0, _, _ => none
  | fuel+1, value, p =>
    let star := p.consume 0x2A
    if star.1 then
      andThen (parseFactor fuel star.2) fun rhs p =>
      andThen (okOr (checkedMul 64 value rhs) "integer overflow" p) (termLoop fuel)
    else
      let slash := star.2.consume 0x2F
      if slash.1 then
        andThen (parseFactor fuel slash.2) fun rhs p =>
        if rhs = 0 then some (.error "division by zero",p)
        else andThen (okOr (checkedDiv 64 value rhs) "integer overflow" p) (termLoop fuel)
      else
        let percent := slash.2.consume 0x25
        if percent.1 then
          andThen (parseFactor fuel percent.2) fun rhs p =>
          if rhs = 0 then some (.error "division by zero",p)
          else andThen (okOr (checkedRem 64 value rhs) "integer overflow" p) (termLoop fuel)
        else some (.ok value,percent.2)

def parseFactor : ℕ → CalcParser → Parsed
  | 0, _ => none
  | fuel+1, p =>
    let plus := p.consume 0x2B
    if plus.1 then parseFactor fuel plus.2
    else
      let minus := plus.2.consume 0x2D
      if minus.1 then
        andThen (parseFactor fuel minus.2) fun v p => okOr (checkedNeg 64 v) "integer overflow" p
      else
        let paren := minus.2.consume 0x28
        if paren.1 then
          andThen (parseExpr fuel paren.2) fun v p =>
          let close := p.consume 0x29
          if close.1 then some (.ok v,close.2) else some (.error "missing closing ')'",close.2)
        else parseNumber paren.2

end

/-- Deep enough for every expression on this many bytes. -/
def fuelFor (length : ℕ) : ℕ := 3*length+3

/-- `none` would mean that the bound on the call depth was too small. -/
def evalCalcExpression (expr : String) : Option (Except String ℤ) :=
  let parser := CalcParser.new expr
  match parseExpr (fuelFor parser.bytes.length) parser with
  | none => none
  | some (.error e,_) => some (.error e)
  | some (.ok value,parser) =>
    let parser := parser.skipWs
    if parser.pos ≠ parser.bytes.length then some (.error "unexpected trailing input")
    else some (.ok value)

end Calculator
end EnosKernel
