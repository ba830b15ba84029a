import Sylar.Log.Event

/-! # `LogFormatter`

`LogFormatter::init` on the characters of the pattern, with the indices of the source: the
outer loop runs over `i`, and the inner one reads a directive from `i + 1` on with `n`.
`isalpha` is that of the C locale.
-/

namespace Sylar.Log

/-! ## The inner loop -/

def isalpha (c : Char) : Bool := c.isAlpha

/-- `p.substr(pos, len)`. -/
def substr (p : List Char) (pos len : Nat) : List Char := (p.drop pos).take len

/-- The variables of the inner loop; `fmtStatus` says that a format is being read. -/
structure Directive where
  n : Nat
  fmtStatus : Bool
  fmtBegin : Nat
  str : List Char
  fmt : List Char
  deriving DecidableEq, Repr

/-- `while (n < m_pattern.size())`. -/
def scanDirective (p : List Char) (i : Nat) (x : Directive) : Directive :=
  if h : x.n < p.length then
    let c := p[x.n]
    if x.fmtStatus = false ∧ ¬ isalpha c ∧ c ≠ '{' ∧ c ≠ '}' then
      { x with str := substr p (i + 1) (x.n - i - 1) }
    else if x.fmtStatus = false ∧ c = '{' then
      scanDirective p i
        { x with
          str := substr p (i + 1) (x.n - i - 1)
          fmtStatus := true
          fmtBegin := x.n
          n := x.n + 1 }
    else if x.fmtStatus = true ∧ c = '}' then
      { x with
        fmt := substr p (x.fmtBegin + 1) (x.n - x.fmtBegin - 1)
        fmtStatus := false
        n := x.n + 1 }
    else
      scanDirective p i
        { x with
          n := x.n + 1
          str := if x.n + 1 = p.length ∧ x.str = [] then p.drop (i + 1) else x.str }
  else x
termination_by p.length - x.n

theorem le_scanDirective_n (p : List Char) (i : Nat) (x : Directive) :
    x.n ≤ (scanDirective p i x).n := by
  fun_induction scanDirective p i x with
  | case1 => exact le_rfl
  | case2 x h c hplain hopen ih => exact (Nat.le_succ _).trans ih
  | case3 x => exact Nat.le_succ _
  | case4 x h c hplain hopen hclose ih => exact (Nat.le_succ _).trans ih
  | case5 => exact le_rfl

/-! ## The outer loop -/

/-- An element of `vec`; `directive` is its type 1. -/
structure Piece where
  str : List Char
  fmt : List Char
  directive : Bool
  deriving DecidableEq, Repr

/-- `if (!nstr.empty()) vec.push_back(..)`. -/
def flush (nstr : List Char) : List Piece := if nstr = [] then [] else [⟨nstr, [], false⟩]

def patternError : List Char := "<<pattern_error>>".toList

/-- `for (size_t i = 0; i < m_pattern.size(); ++i)`, and the last flush; the flag is `m_error`. -/
def scanPattern (p : List Char) (i : Nat) (nstr : List Char) (vec : List Piece) (error : Bool) :
    List Piece × Bool :=
  if h : i < p.length then
    if p[i] ≠ '%' then scanPattern p (i + 1) (nstr ++ [p[i]]) vec error
    else if p[i + 1]? = some '%' then scanPattern p (i + 1) (nstr ++ ['%']) vec error
    else
      let x := scanDirective p i ⟨i + 1, false, 0, [], []⟩
      if x.fmtStatus = false then
        -- `i = n - 1`, and the loop's increment
        scanPattern p x.n [] (vec ++ flush nstr ++ [⟨x.str, x.fmt, true⟩]) error
      else scanPattern p (i + 1) nstr (vec ++ [⟨patternError, x.fmt, false⟩]) true
  else (vec ++ flush nstr, error)
termination_by p.length - i
decreasing_by
  · omega
  · omega
  · have hle := le_scanDirective_n p i ⟨i + 1, false, 0, [], []⟩
    simp only at hle
    omega
  · omega

/-! ## Items -/

/-- `s_format_items`. -/
def formatItems : List Char → Option ItemClass
  | ['m'] => some .message
  | ['p'] => some .level
  | ['r'] => some .elapse
  | ['c'] => some .name
  | ['t'] => some .threadId
  | ['n'] => some .newLine
  | ['d'] => some .dateTime
  | ['f'] => some .filename
  | ['l'] => some .line
  | ['T'] => some .tab
  | ['F'] => some .fiberId
  | ['N'] => some .threadName
  | _ => none

/-- One round of `for (auto& i : vec)`: the item, and whether it sets `m_error`. -/
def Piece.item (piece : Piece) : FormatItem × Bool :=
  if piece.directive then
    match formatItems piece.str with
    | none => (.string ("<<error_format %" ++ String.ofList piece.str ++ ">>"), true)
    | some cls => (.item cls (String.ofList piece.fmt), false)
  else (.string (String.ofList piece.str), false)

structure LogFormatter where
  pattern : String
  deriving DecidableEq, Repr

/-- `LogFormatter::init`: `vec` and `m_error` before the items are made. -/
def LogFormatter.scan (formatter : LogFormatter) : List Piece × Bool :=
  scanPattern formatter.pattern.toList 0 [] [] false

/-- `m_items`. -/
def LogFormatter.items (formatter : LogFormatter) : List FormatItem :=
  formatter.scan.1.map fun piece => piece.item.1

def LogFormatter.isError (formatter : LogFormatter) : Bool :=
  formatter.scan.2 || formatter.scan.1.any fun piece => piece.item.2

def LogFormatter.format (formatter : LogFormatter) (strftime : String → Nat → String)
    (level : Level) (event : LogEvent) : String :=
  String.join (formatter.items.map fun item => item.format strftime level event)

end Sylar.Log
