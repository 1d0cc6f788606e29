import NimrodOS.Calc

/-! Expressions, how they are written and what they come to. -/
namespace NimrodOS.Calc

inductive Expr where
  | lit (n : Nat)
  | neg (e : Expr)
  | binary (op : Op) (l r : Expr)

/-- The kinds of text that `calc_number`, `calc_term` and `calc_expr` read. -/
inductive Level where
  | number | term | expr
  deriving DecidableEq

def Level.rank : Level → Nat
  | .number => 0
  | .term => 1
  | .expr => 2

/-- What stands between the operators of a level. -/
def Level.operand : Level → Level
  | .expr => .term
  | _ => .number

namespace Op

def symbol : Op → Byte
  | .add => 43
  | .sub => 45
  | .mul => 42
  | .div => 47
  | .mod => 37

def binds : Op → Level
  | .add | .sub => .expr
  | .mul | .div | .mod => .term

def Divides : Op → Prop
  | .div | .mod => True
  | _ => False

instance : DecidablePred Divides := fun op => by
  cases op <;> unfold Divides <;> infer_instance

/-- Over all integers, with quotients truncated. -/
def exact : Op → Int → Int → Int
  | .add,a,b => a + b
  | .sub,a,b => a - b
  | .mul,a,b => a * b
  | .div,a,b => a.tdiv b
  | .mod,a,b => a.tmod b

/-- In two's complement. A division by zero and the quotient of the least number and -1
have no value. -/
def apply (op : Op) (a b : Word) : Option Word :=
  if op.Divides ∧ (b = 0 ∨ a = BitVec.intMin 32 ∧ b = -1) then none
  else some (BitVec.ofInt 32 (op.exact a.toInt b.toInt))

end Op

def Expr.eval : Expr → Option Word
  | .lit n => some (BitVec.ofNat 32 n)
  | .neg e => e.eval.map fun v => -v
  | .binary op l r =>
    match l.eval,r.eval with
    | some a,some b => op.apply a b
    | _,_ => none

def spaces (k : Nat) : List Byte := List.replicate k 32

def signText (neg : Bool) : List Byte := if neg then [45] else []

def Expr.signed (neg : Bool) (e : Expr) : Expr := if neg then .neg e else e

/-- The number that decimal digits stand for. -/
def digitsValue (ds : List Byte) : Nat := ds.foldl (fun n c => n * 10 + (c.toNat - 48)) 0

/-- A text renders an expression: operators of the same level group to the left, a minus
stands directly before its operand, and spaces stand before operands, operators and closing
parentheses. -/
inductive Renders : Level → Expr → List Byte → Prop where
  | literal (k : Nat) (neg : Bool) {ds : List Byte} : ds ≠ [] → (∀ c ∈ ds, isDigit c) →
      Renders .number (.signed neg (.lit (digitsValue ds))) (spaces k ++ (signText neg ++ ds))
  | parens (k j : Nat) (neg : Bool) {e : Expr} {t : List Byte} : Renders .expr e t →
      Renders .number (.signed neg e) (spaces k ++ (signText neg ++ 40 :: (t ++ (spaces j ++ [41]))))
  | term {e : Expr} {t : List Byte} : Renders .number e t → Renders .term e t
  | expr {e : Expr} {t : List Byte} : Renders .term e t → Renders .expr e t
  | binary (op : Op) (k : Nat) {l r : Expr} {t u : List Byte} : Renders op.binds l t →
      Renders op.binds.operand r u →
      Renders op.binds (.binary op l r) (t ++ (spaces k ++ op.symbol :: u))

/-! What the calculator makes of other texts. -/

/-- The operator that a text goes on with. -/
def nextOp (s : List Byte) : Option Op :=
  match skipSpaces s with
  | [] => none
  | c :: _ => (termOp c).orElse fun _ => exprOp c

/-- The second text does not go on with the number that the first one ends in. -/
def Apart (t s : List Byte) : Prop :=
  ∀ c d, c ∈ t.getLast? → d ∈ s.head? → isDigit c → ¬isDigit d

/-- No operand starts here. -/
def NoOperand (neg : Bool) (s : List Byte) : Prop :=
  ∀ c ∈ s.head?, c ≠ 40 ∧ ¬isDigit c ∧ (neg = false → c ≠ 32 ∧ c ≠ 45)

/-- The text goes on neither with an operator nor with a closing parenthesis. -/
def Stops (s : List Byte) : Prop := nextOp s = none ∧ (skipSpaces s).head? ≠ some 41

/-- A text in which the calculator gets to a point where it gives up all that it is in: an
opening parenthesis without the closing one, which it passes over, or a missing operand or a
division by zero, which are errors. The value is what it has come to by then. -/
inductive Unwinds : Bool → Level → List Byte → Word → Prop where
  | missing (k : Nat) (neg : Bool) {s : List Byte} : NoOperand neg s →
      Unwinds true .number (spaces k ++ (signText neg ++ s)) 0
  | unclosed (k : Nat) (neg : Bool) {e : Expr} {t s : List Byte} {v : Word} : Renders .expr e t →
      e.eval = some v → Apart t s → Stops s →
      Unwinds false .number (spaces k ++ (signText neg ++ 40 :: (t ++ s))) (negate neg v)
  | inside (k : Nat) (neg : Bool) {error : Bool} {s : List Byte} {v : Word} :
      Unwinds error .expr s v →
      Unwinds error .number (spaces k ++ (signText neg ++ 40 :: s)) (negate neg v)
  | term {error : Bool} {s : List Byte} {v : Word} : Unwinds error .number s v →
      Unwinds error .term s v
  | expr {error : Bool} {s : List Byte} {v : Word} : Unwinds error .term s v →
      Unwinds error .expr s v
  | binary (op : Op) (k : Nat) {error : Bool} {l : Expr} {t s : List Byte} {a b v : Word} :
      Renders op.binds l t → l.eval = some a → Unwinds error op.binds.operand s b →
      op.apply a b = some v → Unwinds error op.binds (t ++ (spaces k ++ op.symbol :: s)) v
  | zero (op : Op) (k : Nat) {l r : Expr} {t u s : List Byte} {a : Word} : op.Divides →
      Renders op.binds l t → l.eval = some a → Renders op.binds.operand r u → r.eval = some 0 →
      Apart u s → Unwinds true op.binds (t ++ (spaces k ++ op.symbol :: (u ++ s))) 0
  | zeroInside (op : Op) (k : Nat) {error : Bool} {l : Expr} {t s : List Byte} {a : Word} :
      op.Divides → Renders op.binds l t → l.eval = some a → Unwinds error op.binds.operand s 0 →
      Unwinds true op.binds (t ++ (spaces k ++ op.symbol :: s)) 0

/-- A text in which the calculator divides the least number by -1. -/
inductive Traps : Level → List Byte → Prop where
  | inside (k : Nat) (neg : Bool) {s : List Byte} : Traps .expr s →
      Traps .number (spaces k ++ (signText neg ++ 40 :: s))
  | term {s : List Byte} : Traps .number s → Traps .term s
  | expr {s : List Byte} : Traps .term s → Traps .expr s
  | later (op : Op) (k : Nat) {l : Expr} {t s : List Byte} {a : Word} : Renders op.binds l t →
      l.eval = some a → Traps op.binds.operand s → Traps op.binds (t ++ (spaces k ++ op.symbol :: s))
  | quotient (op : Op) (k : Nat) {l r : Expr} {t u s : List Byte} : op.Divides →
      Renders op.binds l t → l.eval = some (BitVec.intMin 32) → Renders op.binds.operand r u →
      r.eval = some (-1) → Apart u s → Traps op.binds (t ++ (spaces k ++ op.symbol :: (u ++ s)))
  | quotientInside (op : Op) (k : Nat) {error : Bool} {l : Expr} {t s : List Byte} : op.Divides →
      Renders op.binds l t → l.eval = some (BitVec.intMin 32) →
      Unwinds error op.binds.operand s (-1) → Traps op.binds (t ++ (spaces k ++ op.symbol :: s))

end NimrodOS.Calc
