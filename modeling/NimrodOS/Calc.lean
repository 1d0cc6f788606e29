import NimrodOS.Libc

/-! The calculator of `shell/shell.c`. A text is read from the front; what is left of it
stands for `calc_ptr`. -/
namespace NimrodOS.Calc

open Libc

/-- The exception of a division whose quotient has no 32 bits. -/
inductive Trap where
  | divideError
  deriving DecidableEq, Repr

/-- A value, the text behind it and `calc_error`. No function is called once that is set. -/
structure Parsed (n : Nat) where
  val : Word
  rest : List Byte
  error : Bool
  within : rest.length ≤ n

def skipSpaces (s : List Byte) : List Byte := s.dropWhile (· = 32)

def isDigit (c : Byte) : Bool := 48 ≤ c && c ≤ 57

/-- The sign in front of an operand, and the text behind it. -/
def takeSign : List Byte → Bool × List Byte
  | [] => (false,[])
  | c :: s => if c = 45 then (true,s) else (false,c :: s)

def takeCloser : List Byte → List Byte
  | [] => []
  | c :: s => if c = 41 then s else c :: s

def digitLoop (val : Word) : List Byte → Word × List Byte
  | [] => (val,[])
  | c :: s =>
    if isDigit c then digitLoop (val * 10 + (c.setWidth 32 - 48)) s else (val,c :: s)

def negate (neg : Bool) (val : Word) : Word := if neg then -val else val

inductive Op where
  | add | sub | mul | div | mod
  deriving DecidableEq, Repr

/-- The operators that `calc_term` goes on after. -/
def termOp (c : Byte) : Option Op :=
  if c = 42 then some .mul else if c = 47 then some .div else if c = 37 then some .mod else none

/-- Those of `calc_expr`. -/
def exprOp (c : Byte) : Option Op :=
  if c = 43 then some .add else if c = 45 then some .sub else none

/-- The value and `calc_error` after an operator and its second operand. A quotient is
computed even when its divisor was not read without error. -/
def Op.combine (op : Op) (val d : Word) (error : Bool) : Except Trap (Word × Bool) :=
  match op with
  | .add => .ok (val + d,error)
  | .sub => .ok (val - d,error)
  | .mul => .ok (val * d,error)
  | .div =>
    if d = 0 then .ok (0,true)
    else if val = BitVec.intMin 32 ∧ d = -1 then .error .divideError
    else .ok (val.sdiv d,error)
  | .mod =>
    if d = 0 then .ok (0,true)
    else if val = BitVec.intMin 32 ∧ d = -1 then .error .divideError
    else .ok (val.srem d,error)

theorem skipSpaces_length (s : List Byte) : (skipSpaces s).length ≤ s.length :=
  (List.dropWhile_suffix _).length_le

theorem takeSign_length (s : List Byte) : (takeSign s).2.length ≤ s.length := by
  unfold takeSign
  split
  · exact le_rfl
  · split_ifs
    · exact Nat.le_succ _
    · exact le_rfl

theorem takeCloser_length (s : List Byte) : (takeCloser s).length ≤ s.length := by
  unfold takeCloser
  split
  · exact le_rfl
  · split_ifs
    · exact Nat.le_succ _
    · exact le_rfl

theorem digitLoop_length (val : Word) (s : List Byte) : (digitLoop val s).2.length ≤ s.length := by
  induction s generalizing val with
  | nil => exact le_rfl
  | cons c s ih =>
    unfold digitLoop
    split_ifs
    · exact (ih _).trans (Nat.le_succ _)
    · exact le_rfl

mutual

def calcNumber (s : List Byte) : Except Trap (Parsed s.length) :=
  match signed : takeSign (skipSpaces s) with
  | (_,[]) => .ok ⟨0,[],true,Nat.zero_le _⟩
  | (neg,c :: t) =>
    have shorter : t.length < s.length := by
      have first := skipSpaces_length s
      have second := takeSign_length (skipSpaces s)
      rw [signed] at second
      exact (Nat.lt_of_succ_le second).trans_le first
    if c = 40 then do
      let inner ← calcExpr t
      return ⟨negate neg inner.val,takeCloser inner.rest,inner.error,
        (takeCloser_length _).trans (inner.within.trans shorter.le)⟩
    else if isDigit c then
      .ok ⟨negate neg (digitLoop 0 (c :: t)).1,(digitLoop 0 (c :: t)).2,false,
        (digitLoop_length 0 _).trans (Nat.succ_le_of_lt shorter)⟩
    else .ok ⟨0,c :: t,true,Nat.succ_le_of_lt shorter⟩
termination_by 3 * s.length

def calcTerm (s : List Byte) : Except Trap (Parsed s.length) := do
  let first ← calcNumber s
  if first.error then return first
  else
    have within := first.within
    let last ← termLoop first.val first.rest
    return {last with within := last.within.trans within}
termination_by 3 * s.length + 1

def termLoop (val : Word) (s : List Byte) : Except Trap (Parsed s.length) :=
  match ahead : skipSpaces s with
  | [] => .ok ⟨val,[],false,Nat.zero_le _⟩
  | c :: t =>
    have shorter : t.length < s.length := by
      have skipped := skipSpaces_length s
      rw [ahead] at skipped
      exact skipped
    match termOp c with
    | none => .ok ⟨val,c :: t,false,shorter⟩
    | some op => do
      let d ← calcNumber t
      let (val,error) ← op.combine val d.val d.error
      have within := d.within
      if error then return ⟨val,d.rest,true,within.trans shorter.le⟩
      else
        let last ← termLoop val d.rest
        return {last with within := last.within.trans (within.trans shorter.le)}
termination_by 3 * s.length

def calcExpr (s : List Byte) : Except Trap (Parsed s.length) := do
  let first ← calcTerm s
  if first.error then return first
  else
    have within := first.within
    let last ← exprLoop first.val first.rest
    return {last with within := last.within.trans within}
termination_by 3 * s.length + 2

def exprLoop (val : Word) (s : List Byte) : Except Trap (Parsed s.length) :=
  match ahead : skipSpaces s with
  | [] => .ok ⟨val,[],false,Nat.zero_le _⟩
  | c :: t =>
    have shorter : t.length < s.length := by
      have skipped := skipSpaces_length s
      rw [ahead] at skipped
      exact skipped
    match exprOp c with
    | none => .ok ⟨val,c :: t,false,shorter⟩
    | some op => do
      let d ← calcTerm t
      let (val,error) ← op.combine val d.val d.error
      have within := d.within
      if error then return ⟨val,d.rest,true,within.trans shorter.le⟩
      else
        let last ← exprLoop val d.rest
        return {last with within := last.within.trans (within.trans shorter.le)}
termination_by 3 * s.length + 1

end

/-- What `cmd_calc` shows. -/
inductive Output where
  | usage
  | invalid
  /-- A number with its sign. -/
  | result (minus : Bool) (shown : Word)
  deriving DecidableEq, Repr

def cmdCalc (args : CString) : Except Trap Output :=
  match skipSpaces args.val with
  | [] => .ok .usage
  | c :: s => do
    let result ← calcExpr (c :: s)
    if result.error then return .invalid
    else if result.val.toInt < 0 then return .result true (-result.val)
    else return .result false result.val

end NimrodOS.Calc
