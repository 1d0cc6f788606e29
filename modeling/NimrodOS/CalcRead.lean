import NimrodOS.CalcGrammar

/-! The calculator reads what the grammar renders. -/
namespace NimrodOS.Calc

structure Answer where
  val : Word
  rest : List Byte
  error : Bool

def Parsed.answer {n : Nat} (p : Parsed n) : Answer := ⟨p.val,p.rest,p.error⟩

def read : Level → List Byte → Except Trap Answer
  | .number,s => (calcNumber s).map Parsed.answer
  | .term,s => (calcTerm s).map Parsed.answer
  | .expr,s => (calcExpr s).map Parsed.answer

/-- How a level goes on behind its first operand. -/
def loop : Level → Word → List Byte → Except Trap Answer
  | .number,v,s => .ok ⟨v,s,false⟩
  | .term,v,s => (termLoop v s).map Parsed.answer
  | .expr,v,s => (exprLoop v s).map Parsed.answer

/-! The functions as equations. -/

variable {s t k : List Byte} {v w : Word} {c : Byte} {lvl : Level} {op : Op} {error : Bool}

theorem read_number (s : List Byte) : read .number s =
    match takeSign (skipSpaces s) with
    | (_,[]) => .ok ⟨0,[],true⟩
    | (neg,c :: t) =>
      if c = 40 then
        (read .expr t).map fun inner =>
          ⟨negate neg inner.val,takeCloser inner.rest,inner.error⟩
      else if isDigit c then
        .ok ⟨negate neg (digitLoop 0 (c :: t)).1,(digitLoop 0 (c :: t)).2,false⟩
      else .ok ⟨0,c :: t,true⟩ := by
  simp only [read]
  rw [calcNumber]
  split
  · next neg ahead => simp only [ahead]; rfl
  · next neg c t ahead =>
    simp only [ahead]
    split_ifs
    · cases calcExpr t <;> rfl
    · rfl
    · rfl

section

variable {m n : Nat} {next : Word → (s : List Byte) → Except Trap (Parsed s.length)}

/-- How a level begins: an operand, and the loop behind it unless that failed. -/
theorem first_answer (first : Except Trap (Parsed n)) :
    (do
      let first ← first
      if first.error then return first
      else
        have within := first.within
        let last ← next first.val first.rest
        return {last with within := last.within.trans within} : Except Trap (Parsed n)).map Parsed.answer =
      (first.map Parsed.answer).bind fun first =>
        if first.error then .ok first else (next first.val first.rest).map Parsed.answer := by
  cases first with
  | error trap => rfl
  | ok first =>
    simp only [bind,Except.bind,pure,Except.pure,Except.map,Parsed.answer]
    split_ifs
    · rfl
    · cases next first.val first.rest <;> rfl

/-- A round of a loop behind its operator. -/
theorem round_answer (op : Op) (v : Word) (d : Except Trap (Parsed m)) (shorter : m ≤ n) :
    (do
      let d ← d
      let (val,error) ← op.combine v d.val d.error
      have within := d.within
      if error then return ⟨val,d.rest,true,within.trans shorter⟩
      else
        let last ← next val d.rest
        return {last with within := last.within.trans (within.trans shorter)} :
        Except Trap (Parsed n)).map Parsed.answer =
      (d.map Parsed.answer).bind fun d => (op.combine v d.val d.error).bind fun (v,error) =>
        if error then .ok ⟨v,d.rest,true⟩ else (next v d.rest).map Parsed.answer := by
  cases d with
  | error trap => rfl
  | ok d =>
    simp only [bind,Except.bind,pure,Except.pure,Except.map,Parsed.answer]
    cases op.combine v d.val d.error with
    | error trap => rfl
    | ok combined =>
      simp only []
      split_ifs
      · rfl
      · cases next combined.1 d.rest <;> rfl

end

theorem rest_within (ahead : skipSpaces s = c :: t) : t.length ≤ s.length := by
  have skipped := skipSpaces_length s
  rw [ahead] at skipped
  exact (Nat.le_succ _).trans skipped

theorem read_term (s : List Byte) : read .term s = (read .number s).bind fun first =>
    if first.error then .ok first else loop .term first.val first.rest := by
  simp only [read,loop]
  rw [calcTerm]
  exact first_answer _

theorem read_expr (s : List Byte) : read .expr s = (read .term s).bind fun first =>
    if first.error then .ok first else loop .expr first.val first.rest := by
  simp only [read,loop]
  rw [calcExpr]
  exact first_answer _

theorem loop_term (v : Word) (s : List Byte) : loop .term v s =
    match skipSpaces s with
    | [] => .ok ⟨v,[],false⟩
    | c :: t =>
      match termOp c with
      | none => .ok ⟨v,c :: t,false⟩
      | some op => (read .number t).bind fun d => (op.combine v d.val d.error).bind fun (v,error) =>
        if error then .ok ⟨v,d.rest,true⟩ else loop .term v d.rest := by
  simp only [read,loop]
  rw [termLoop]
  split
  · next ahead => simp only [ahead]; rfl
  · next c t ahead =>
    simp only [ahead]
    cases termOp c with
    | none => rfl
    | some op => exact round_answer op v (calcNumber t) (rest_within ahead)

theorem loop_expr (v : Word) (s : List Byte) : loop .expr v s =
    match skipSpaces s with
    | [] => .ok ⟨v,[],false⟩
    | c :: t =>
      match exprOp c with
      | none => .ok ⟨v,c :: t,false⟩
      | some op => (read .term t).bind fun d => (op.combine v d.val d.error).bind fun (v,error) =>
        if error then .ok ⟨v,d.rest,true⟩ else loop .expr v d.rest := by
  simp only [read,loop]
  rw [exprLoop]
  split
  · next ahead => simp only [ahead]; rfl
  · next c t ahead =>
    simp only [ahead]
    cases exprOp c with
    | none => rfl
    | some op => exact round_answer op v (calcTerm t) (rest_within ahead)

/-! Spaces and operators. -/

theorem skipSpaces_spaces (k : Nat) (s : List Byte) : skipSpaces (spaces k ++ s) = skipSpaces s := by
  induction k with
  | zero => rfl
  | succ k ih => exact ih

theorem skipSpaces_cons (solid : c ≠ 32) : skipSpaces (c :: s) = c :: s :=
  List.dropWhile_cons_of_neg (by simpa using solid)

theorem skipSpaces_head (ahead : skipSpaces s = c :: t) : c ≠ 32 := by
  induction s with
  | nil => cases ahead
  | cons d s ih =>
    by_cases blank : d = 32
    · subst blank
      exact ih ahead
    · rw [skipSpaces_cons blank] at ahead
      obtain ⟨rfl,-⟩ := List.cons.inj ahead
      exact blank

@[simp] theorem skipSpaces_skipSpaces (s : List Byte) : skipSpaces (skipSpaces s) = skipSpaces s := by
  cases ahead : skipSpaces s with
  | nil => rfl
  | cons c t => exact skipSpaces_cons (skipSpaces_head ahead)

/-- A text is its spaces and what comes behind them. -/
theorem exists_spaces (s : List Byte) : ∃ k, s = spaces k ++ skipSpaces s := by
  induction s with
  | nil => exact ⟨0,rfl⟩
  | cons c s ih =>
    by_cases blank : c = 32
    · subst blank
      obtain ⟨k,same⟩ := ih
      exact ⟨k + 1,congrArg (List.cons 32) same⟩
    · exact ⟨0,(skipSpaces_cons blank).symm⟩

theorem termOp_eq_some : termOp c = some op ↔ op.binds = .term ∧ c = op.symbol := by
  unfold termOp
  cases op <;> split_ifs <;> simp_all [Op.binds,Op.symbol]

theorem exprOp_eq_some : exprOp c = some op ↔ op.binds = .expr ∧ c = op.symbol := by
  unfold exprOp
  cases op <;> split_ifs <;> simp_all [Op.binds,Op.symbol]

theorem symbol_solid (op : Op) : op.symbol ≠ 32 := by
  cases op <;> decide

theorem symbol_notDigit (op : Op) : ¬isDigit op.symbol := by
  cases op <;> decide

theorem nextOp_eq_some : nextOp s = some op ↔ ∃ t, skipSpaces s = op.symbol :: t := by
  unfold nextOp
  cases skipSpaces s with
  | nil => simp
  | cons c t =>
    have tells : ((termOp c).orElse fun _ => exprOp c) = some op ↔ c = op.symbol := by
      cases op <;> simp [termOp,exprOp,Op.symbol] <;> split_ifs <;> simp_all
    simp only [tells,List.cons.injEq,exists_and_left,exists_eq',and_true]

/-! The loops. -/

theorem loop_op (ahead : skipSpaces s = op.symbol :: t) : loop op.binds v s =
    (read op.binds.operand t).bind fun d => (op.combine v d.val d.error).bind fun (v,error) =>
      if error then .ok ⟨v,d.rest,true⟩ else loop op.binds v d.rest := by
  cases binds : op.binds with
  | number => cases op <;> cases binds
  | term =>
    have tells : termOp op.symbol = some op := termOp_eq_some.mpr ⟨binds,rfl⟩
    rw [loop_term,ahead]
    simp only [tells]
    rfl
  | expr =>
    have tells : exprOp op.symbol = some op := exprOp_eq_some.mpr ⟨binds,rfl⟩
    rw [loop_expr,ahead]
    simp only [tells]
    rfl

/-- Only operators that bind less tightly may follow. -/
theorem loop_done (above : lvl ≠ .number)
    (looser : ∀ op, nextOp s = some op → lvl.rank < op.binds.rank) :
    loop lvl v s = .ok ⟨v,skipSpaces s,false⟩ := by
  have other (op : Op) (c : Byte) (t : List Byte) (ahead : skipSpaces s = c :: t) :
      op.binds = lvl → c ≠ op.symbol := by
    rintro rfl rfl
    exact absurd (looser op (nextOp_eq_some.mpr ⟨t,ahead⟩)) (lt_irrefl _)
  cases lvl with
  | number => exact absurd rfl above
  | term =>
    rw [loop_term]
    cases ahead : skipSpaces s with
    | nil => rfl
    | cons c t =>
      have none : termOp c = none := by
        by_contra present
        obtain ⟨op,tells⟩ := Option.ne_none_iff_exists'.mp present
        exact other op c t ahead (termOp_eq_some.mp tells).1 (termOp_eq_some.mp tells).2
      simp only [none]
  | expr =>
    rw [loop_expr]
    cases ahead : skipSpaces s with
    | nil => rfl
    | cons c t =>
      have none : exprOp c = none := by
        by_contra present
        obtain ⟨op,tells⟩ := Option.ne_none_iff_exists'.mp present
        exact other op c t ahead (exprOp_eq_some.mp tells).1 (exprOp_eq_some.mp tells).2
      simp only [none]

theorem loop_skip (above : lvl ≠ .number) (same : skipSpaces s = skipSpaces k) :
    loop lvl v s = loop lvl v k := by
  cases lvl with
  | number => exact absurd rfl above
  | term => rw [loop_term,loop_term,same]
  | expr => rw [loop_expr,loop_expr,same]

theorem read_first (above : lvl ≠ .number) (s : List Byte) :
    read lvl s = (read lvl.operand s).bind fun first =>
      if first.error then .ok first else loop lvl first.val first.rest := by
  cases lvl with
  | number => exact absurd rfl above
  | term => exact read_term s
  | expr => exact read_expr s

theorem read_skip (same : skipSpaces s = skipSpaces k) : read lvl s = read lvl k := by
  have number : read .number s = read .number k := by rw [read_number,read_number,same]
  have term : read .term s = read .term k := by rw [read_term,read_term,number]
  cases lvl with
  | number => exact number
  | term => exact term
  | expr => rw [read_expr,read_expr,term]

/-! Applying operators. -/

theorem combine_value {a b : Word} (value : op.apply a b = some v) (error : Bool) :
    op.combine a b error = .ok (v,error) := by
  unfold Op.apply at value
  split_ifs at value with undefined
  obtain rfl := Option.some.inj value
  have same {x : Word} {i : Int} (toInt : x.toInt = i.bmod (2^32)) : x = BitVec.ofInt 32 i := by
    apply BitVec.eq_of_toInt_eq
    rw [toInt,BitVec.toInt_ofInt]
  cases op with
  | add => rw [Op.combine,same (BitVec.toInt_add a b),Op.exact]
  | sub => rw [Op.combine,same (BitVec.toInt_sub (x := a) (y := b)),Op.exact]
  | mul => rw [Op.combine,same (BitVec.toInt_mul a b),Op.exact]
  | div =>
    simp only [Op.Divides,true_and,not_or] at undefined
    rw [Op.combine,if_neg undefined.1,if_neg undefined.2,same (BitVec.toInt_sdiv a b),Op.exact]
  | mod =>
    simp only [Op.Divides,true_and,not_or] at undefined
    rw [Op.combine,if_neg undefined.1,if_neg undefined.2,Op.exact,← BitVec.toInt_srem,
      BitVec.ofInt_toInt]

theorem combine_zero (divides : op.Divides) (a : Word) (error : Bool) :
    op.combine a 0 error = .ok (0,true) := by
  cases op with
  | div | mod => rfl
  | _ => cases divides

theorem combine_trap (divides : op.Divides) (error : Bool) :
    op.combine (BitVec.intMin 32) (-1) error = .error .divideError := by
  cases op with
  | div | mod => rfl
  | _ => cases divides

theorem combine_cases (op : Op) (a b : Word) : (∃ v, op.apply a b = some v) ∨
    op.Divides ∧ (b = 0 ∨ a = BitVec.intMin 32 ∧ b = -1) := by
  by_cases undefined : op.Divides ∧ (b = 0 ∨ a = BitVec.intMin 32 ∧ b = -1)
  · exact .inr undefined
  · exact .inl ⟨_,if_neg undefined⟩

/-! Operands. -/

/-- The front of an operand up to its sign. -/
theorem takeSign_text (k : Nat) {neg : Bool}
    (solid : neg = false → ∀ c ∈ s.head?, c ≠ 32 ∧ c ≠ 45) :
    takeSign (skipSpaces (spaces k ++ (signText neg ++ s))) = (neg,s) := by
  rw [skipSpaces_spaces]
  cases neg with
  | true => rfl
  | false =>
    cases s with
    | nil => rfl
    | cons c s =>
      obtain ⟨solid,unsigned⟩ := solid rfl c rfl
      show takeSign (skipSpaces (c :: s)) = (false,c :: s)
      rw [skipSpaces_cons solid,takeSign,if_neg unsigned]

theorem read_paren (k : Nat) (neg : Bool) (s : List Byte) :
    read .number (spaces k ++ (signText neg ++ 40 :: s)) = (read .expr s).map fun inner =>
      ⟨negate neg inner.val,takeCloser inner.rest,inner.error⟩ := by
  have front : takeSign (skipSpaces (spaces k ++ (signText neg ++ 40 :: s))) = (neg,40 :: s) := by
    apply takeSign_text
    rintro - c ⟨⟩
    decide
  rw [read_number,front]
  rfl

theorem digit_solid (digit : isDigit c) : c ≠ 32 ∧ c ≠ 45 ∧ c ≠ 40 := by
  refine ⟨?_,?_,?_⟩
  all_goals
    rintro rfl
    revert digit
    decide

theorem digitLoop_append {ds : List Byte} (digits : ∀ c ∈ ds, isDigit c)
    (ends : ∀ c ∈ k.head?, ¬isDigit c) (n : Nat) :
    digitLoop (BitVec.ofNat 32 n) (ds ++ k) =
      (BitVec.ofNat 32 (ds.foldl (fun n c => n * 10 + (c.toNat - 48)) n),k) := by
  induction ds generalizing n with
  | nil =>
    cases k with
    | nil => rfl
    | cons c k => exact if_neg (ends c rfl)
  | cons c ds ih =>
    rw [List.forall_mem_cons] at digits
    have digit := digits.1
    have least : 48 ≤ c.toNat := by
      simp only [isDigit,Bool.and_eq_true,decide_eq_true_eq] at digit
      exact digit.1
    have next : BitVec.ofNat 32 n * 10 + (c.setWidth 32 - 48) =
        BitVec.ofNat 32 (n * 10 + (c.toNat - 48)) := by
      have small := c.isLt
      have ten : (10 : Word).toNat = 10 := rfl
      have base : (48 : Word).toNat = 48 := rfl
      apply BitVec.eq_of_toNat_eq
      simp only [BitVec.toNat_add,BitVec.toNat_mul,BitVec.toNat_sub,BitVec.toNat_ofNat,
        BitVec.toNat_setWidth,ten,base]
      omega
    rw [List.cons_append,digitLoop,if_pos digit,next,ih digits.2,List.foldl_cons]

theorem read_literal (j : Nat) (neg : Bool) {ds : List Byte} (some' : ds ≠ [])
    (digits : ∀ c ∈ ds, isDigit c) (ends : ∀ c ∈ k.head?, ¬isDigit c) :
    read .number (spaces j ++ (signText neg ++ (ds ++ k))) =
      .ok ⟨negate neg (BitVec.ofNat 32 (digitsValue ds)),k,false⟩ := by
  have loop : digitLoop 0 (ds ++ k) = (BitVec.ofNat 32 (digitsValue ds),k) :=
    digitLoop_append digits ends 0
  cases ds with
  | nil => exact absurd rfl some'
  | cons c ds =>
    have digit := digits c (List.mem_cons_self ..)
    obtain ⟨solid,unsigned,inner⟩ := digit_solid digit
    have front : takeSign (skipSpaces (spaces j ++ (signText neg ++ (c :: ds ++ k)))) =
        (neg,c :: (ds ++ k)) := by
      apply takeSign_text
      rintro - d ⟨⟩
      exact ⟨solid,unsigned⟩
    rw [read_number,front]
    simp only [if_neg inner,if_pos digit]
    rw [List.cons_append] at loop
    rw [loop]

/-! Renderings. -/

theorem Renders.eval_signed {neg : Bool} {e : Expr} (value : (Expr.signed neg e).eval = some v) :
    ∃ w, e.eval = some w ∧ v = negate neg w := by
  cases neg with
  | false => exact ⟨v,value,rfl⟩
  | true =>
    obtain ⟨w,inner,rfl⟩ := Option.map_eq_some_iff.mp value
    exact ⟨w,inner,rfl⟩

theorem Expr.eval_binary {l r : Expr} (value : (Expr.binary op l r).eval = some v) :
    ∃ a b, l.eval = some a ∧ r.eval = some b ∧ op.apply a b = some v := by
  unfold Expr.eval at value
  split at value
  · next a b left right => exact ⟨a,b,left,right,value⟩
  · cases value

/-! What stands behind a rendering. -/

/-- Where a level comes to its end: only operators that bind less tightly may follow. -/
def Ends (lvl : Level) (k : List Byte) : Prop :=
  ∀ op, nextOp k = some op → lvl.rank < op.binds.rank

/-- Where it may still go on. -/
def GoesOn (lvl : Level) (k : List Byte) : Prop :=
  ∀ op, nextOp k = some op → lvl.rank ≤ op.binds.rank

theorem skipSpaces_symbol (op : Op) (k : Nat) (s : List Byte) :
    skipSpaces (spaces k ++ op.symbol :: s) = op.symbol :: s := by
  rw [skipSpaces_spaces,skipSpaces_cons (symbol_solid op)]

theorem goesOn_symbol (op : Op) (k : Nat) (s : List Byte) :
    GoesOn op.binds (spaces k ++ op.symbol :: s) := by
  intro other found
  have next : nextOp (spaces k ++ op.symbol :: s) = some op :=
    nextOp_eq_some.mpr ⟨s,skipSpaces_symbol op k s⟩
  obtain rfl := Option.some.inj (next.symm.trans found)
  exact le_rfl

theorem nextOp_other (solid : c ≠ 32) (other : ∀ op : Op, c ≠ op.symbol) (k : Nat) (s : List Byte) :
    nextOp (spaces k ++ c :: s) = none := by
  by_contra present
  obtain ⟨op,found⟩ := Option.ne_none_iff_exists'.mp present
  obtain ⟨t,ahead⟩ := nextOp_eq_some.mp found
  rw [skipSpaces_spaces,skipSpaces_cons solid] at ahead
  exact other op (List.cons.inj ahead).1

/-- Spaces and anything that is not a digit stand apart from what comes before. -/
theorem apart_spaces (other : ∀ c ∈ s.head?, ¬isDigit c) (t : List Byte) (k : Nat) :
    Apart t (spaces k ++ s) := by
  intro _ d _ first _
  cases k with
  | zero => exact other d first
  | succ k =>
    obtain rfl : 32 = d := Option.some.inj first
    decide

theorem apart_symbol (t : List Byte) (op : Op) (k : Nat) (s : List Byte) :
    Apart t (spaces k ++ op.symbol :: s) := by
  apply apart_spaces
  rintro _ ⟨⟩
  exact symbol_notDigit op

theorem apart_append {u : List Byte} (some' : u ≠ []) : Apart (t ++ u) k ↔ Apart u k := by
  unfold Apart
  rw [List.getLast?_append,List.getLast?_eq_some_getLast some',Option.some_or]

theorem Renders.ne_nil {e : Expr} (rendered : Renders lvl e t) : t ≠ [] := by
  induction rendered with
  | literal k neg some' =>
    intro empty
    exact some' (List.append_eq_nil_iff.mp (List.append_eq_nil_iff.mp empty).2).2
  | parens => simp
  | term _ ih => exact ih
  | expr _ ih => exact ih
  | binary => simp

theorem term_above : Level.term ≠ .number := nofun

theorem expr_above : Level.expr ≠ .number := nofun

theorem binds_above (op : Op) : op.binds ≠ .number := by
  cases op <;> nofun

theorem GoesOn.operand (goesOn : GoesOn lvl k) : GoesOn lvl.operand k := by
  have below : lvl.operand.rank ≤ lvl.rank := by cases lvl <;> decide
  exact fun op next => below.trans (goesOn op next)

/-- Behind an operand its own level has come to its end. -/
theorem loop_operand (goesOn : GoesOn lvl k) (v : Word) : ∃ rest,
    loop lvl.operand v k = .ok ⟨v,rest,false⟩ ∧ skipSpaces rest = skipSpaces k := by
  cases lvl with
  | number | term => exact ⟨k,rfl,rfl⟩
  | expr => exact ⟨_,loop_done term_above goesOn,skipSpaces_skipSpaces k⟩

theorem read_lift (above : lvl ≠ .number) (goesOn : GoesOn lvl k)
    (first : read lvl.operand s = loop lvl.operand v k) : read lvl s = loop lvl v k := by
  obtain ⟨rest,done,same⟩ := loop_operand goesOn v
  rw [read_first above,first,done]
  exact loop_skip above same

/-- The calculator reads a rendering whole and goes on behind it with its value. -/
theorem read_rendered {e : Expr} (rendered : Renders lvl e t) (value : e.eval = some v)
    (apart : Apart t k) (tight : GoesOn lvl k) : read lvl (t ++ k) = loop lvl v k := by
  induction rendered generalizing v k with
  | @literal j neg ds some' digits =>
    obtain ⟨w,literal,rfl⟩ := Renders.eval_signed value
    obtain rfl := Option.some.inj literal
    have ends : ∀ c ∈ k.head?, ¬isDigit c := by
      intro c first
      have last : ds.getLast some' ∈ ds.getLast? := List.getLast?_eq_some_getLast some'
      have apart' := (apart_append some').mp ((apart_append (by simp [some'])).mp apart)
      exact apart' _ c last first (digits _ (List.getLast_mem some'))
    rw [List.append_assoc,List.append_assoc]
    exact read_literal j neg some' digits ends
  | @parens j i neg e t inner ih =>
    obtain ⟨w,value',rfl⟩ := Renders.eval_signed value
    have closer : (41 : Byte) ≠ 32 := by decide
    have other : ∀ op : Op, (41 : Byte) ≠ op.symbol := by
      intro op
      cases op <;> decide
    have none : nextOp (spaces i ++ 41 :: k) = none := nextOp_other closer other i k
    have reads : read .expr (t ++ (spaces i ++ 41 :: k)) = loop .expr w (spaces i ++ 41 :: k) := by
      apply ih value'
      · apply apart_spaces
        rintro c ⟨⟩
        decide
      · intro op next
        cases none.symm.trans next
    have done : loop .expr w (spaces i ++ 41 :: k) = .ok ⟨w,41 :: k,false⟩ := by
      rw [loop_done expr_above,skipSpaces_spaces,skipSpaces_cons closer]
      intro op next
      cases none.symm.trans next
    have text : spaces j ++ (signText neg ++ 40 :: (t ++ (spaces i ++ [41]))) ++ k =
        spaces j ++ (signText neg ++ 40 :: (t ++ (spaces i ++ 41 :: k))) := by
      simp
    rw [text,read_paren,reads,done]
    rfl
  | @term e t inner ih => exact read_lift term_above tight (ih value apart tight.operand)
  | @expr e t inner ih => exact read_lift expr_above tight (ih value apart tight.operand)
  | @binary op j l r t u left right ihl ihr =>
    obtain ⟨a,b,valueL,valueR,applied⟩ := Expr.eval_binary value
    have first : read op.binds (t ++ (spaces j ++ op.symbol :: (u ++ k))) =
        loop op.binds a (spaces j ++ op.symbol :: (u ++ k)) :=
      ihl valueL (apart_symbol t op j _) (goesOn_symbol op j _)
    have second : read op.binds.operand (u ++ k) = loop op.binds.operand b k := by
      apply ihr valueR _ tight.operand
      have whole : t ++ (spaces j ++ op.symbol :: u) = t ++ (spaces j ++ [op.symbol]) ++ u := by
        simp
      rw [whole] at apart
      exact (apart_append right.ne_nil).mp apart
    obtain ⟨rest,operand,same⟩ := loop_operand tight b
    have text : t ++ (spaces j ++ op.symbol :: u) ++ k =
        t ++ (spaces j ++ op.symbol :: (u ++ k)) := by
      simp
    rw [text,first,loop_op (skipSpaces_symbol op j _),second,operand]
    simp only [Except.bind,combine_value applied]
    exact loop_skip (binds_above op) same

/-- Every number has digits. -/
theorem exists_digits (n : Nat) :
    ∃ ds, ds ≠ [] ∧ (∀ c ∈ ds, isDigit c) ∧ digitsValue ds = n := by
  induction n using Nat.strong_induction_on with
  | _ n ih =>
    have small : n % 10 + 48 < 2^8 := by omega
    have value : (BitVec.ofNat 8 (n % 10 + 48)).toNat = n % 10 + 48 := BitVec.toNat_ofNat .. ▸
      Nat.mod_eq_of_lt small
    have digit : isDigit (BitVec.ofNat 8 (n % 10 + 48)) := by
      simp only [isDigit,Bool.and_eq_true,decide_eq_true_eq,BitVec.le_def,value]
      constructor
      · exact Nat.le_add_left ..
      · show n % 10 + 48 ≤ 57
        omega
    by_cases single : n < 10
    · refine ⟨[BitVec.ofNat 8 (n % 10 + 48)],List.cons_ne_nil _ _,?_,?_⟩
      · simpa only [List.forall_mem_singleton] using digit
      · simp only [digitsValue,List.foldl_cons,List.foldl_nil,value]
        omega
    · obtain ⟨ds,-,digits,front⟩ := ih (n / 10) (by omega)
      refine ⟨ds ++ [BitVec.ofNat 8 (n % 10 + 48)],by simp,?_,?_⟩
      · rw [List.forall_mem_append,List.forall_mem_singleton]
        exact ⟨digits,digit⟩
      · rw [digitsValue] at front ⊢
        rw [List.foldl_append,front,List.foldl_cons,List.foldl_nil,value]
        omega

/-- Every expression can be written. -/
theorem exists_renders (e : Expr) : ∃ t, Renders .number e t := by
  induction e with
  | lit n =>
    obtain ⟨ds,some',digits,rfl⟩ := exists_digits n
    exact ⟨_,.literal 0 false some' digits⟩
  | neg e ih =>
    obtain ⟨t,inner⟩ := ih
    exact ⟨_,.parens 0 0 true (.expr (.term inner))⟩
  | binary op l r ihl ihr =>
    obtain ⟨t,left⟩ := ihl
    obtain ⟨u,right⟩ := ihr
    have leftmost : Renders op.binds l t := by
      cases op <;> first | exact .term left | exact .expr (.term left)
    have operand : Renders op.binds.operand r u := by
      cases op <;> first | exact right | exact .term right
    have whole : Renders .expr (.binary op l r) (t ++ (spaces 0 ++ op.symbol :: u)) := by
      have rendered := Renders.binary op 0 leftmost operand
      cases op <;> first | exact rendered | exact .expr rendered
    exact ⟨_,.parens 0 0 false whole⟩

/-- The whole text of an expression that evaluates is read to its value. -/
theorem calcExpr_renders {e : Expr} (rendered : Renders .expr e t) (value : e.eval = some v) :
    (calcExpr t).map Parsed.answer = .ok ⟨v,[],false⟩ := by
  have reads : read .expr (t ++ []) = loop .expr v [] := by
    apply read_rendered rendered value
    · rintro c d - ⟨⟩
    · rintro op ⟨⟩
  have done : loop .expr v [] = .ok ⟨v,[],false⟩ := by
    apply loop_done expr_above
    rintro op ⟨⟩
  rw [List.append_nil,done] at reads
  exact reads

/-- The text is `-(2 - 3*4 ) - 7 % 4`. -/
theorem calcExpr_renders_mixed :
    (calcExpr [45,40,50,32,45,32,51,42,52,32,41,32,45,32,55,32,37,32,52]).map Parsed.answer = .ok ⟨7,[],false⟩ := by
  have two := Renders.literal 0 false (List.cons_ne_nil 50 []) (by decide)
  have three := Renders.literal 1 false (List.cons_ne_nil 51 []) (by decide)
  have four (k : Nat) := Renders.literal k false (List.cons_ne_nil 52 []) (by decide)
  have seven := Renders.literal 1 false (List.cons_ne_nil 55 []) (by decide)
  have product := Renders.binary .mul 0 (.term three) (four 0)
  have difference := Renders.binary .sub 1 (.expr (.term two)) product
  have remainder := Renders.binary .mod 1 (.term seven) (four 1)
  have whole := Renders.binary .sub 1 (.expr (.term (.parens 0 1 true difference))) remainder
  exact calcExpr_renders whole (by decide)

end NimrodOS.Calc
