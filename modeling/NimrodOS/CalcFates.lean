import NimrodOS.CalcRead

/-! Every text comes to one end: it begins with an expression that evaluates, or the
calculator unwinds in it, or it traps. -/
namespace NimrodOS.Calc

variable {s t k : List Byte} {v w : Word} {c : Byte} {lvl : Level} {op : Op} {error : Bool}

/-- Nothing in the text is read any more: neither spaces nor an operator nor a closing
parenthesis. -/
structure Dead (k : List Byte) : Prop where
  solid : skipSpaces k = k
  noOp : nextOp k = none
  noCloser : k.head? ≠ some 41

namespace Dead

theorem of_stops (stops : Stops s) : Dead (skipSpaces s) := by
  refine ⟨skipSpaces_skipSpaces s,?_,stops.2⟩
  rw [nextOp,skipSpaces_skipSpaces]
  exact stops.1

theorem closer (dead : Dead k) : takeCloser k = k := by
  cases k with
  | nil => rfl
  | cons c k => exact if_neg fun closer => dead.noCloser (congrArg some closer)

theorem loop (dead : Dead k) (lvl : Level) (v : Word) : loop lvl v k = .ok ⟨v,k,false⟩ := by
  by_cases above : lvl = .number
  · subst above
    rfl
  · rw [loop_done above,dead.solid]
    intro op next
    cases dead.noOp.symm.trans next

end Dead

/-- What a reading leaves behind when it unwinds. -/
def UnwoundTo (error : Bool) (v : Word) (answer : Except Trap Answer) : Prop :=
  ∃ k, answer = .ok ⟨v,k,error⟩ ∧ (error = false → Dead k)

theorem unwound_first (above : lvl ≠ .number) (first : UnwoundTo error v (read lvl.operand s)) :
    UnwoundTo error v (read lvl s) := by
  obtain ⟨k,reads,dead⟩ := first
  refine ⟨k,?_,dead⟩
  rw [read_first above,reads]
  cases error with
  | true => rfl
  | false => exact (dead rfl).loop lvl v

theorem unwound_combine {b : Word} (second : UnwoundTo error b (read op.binds.operand s))
    (ahead : skipSpaces k = op.symbol :: s) (applied : op.apply v b = some w) :
    UnwoundTo error w (loop op.binds v k) := by
  obtain ⟨rest,reads,dead⟩ := second
  refine ⟨rest,?_,dead⟩
  rw [loop_op ahead,reads]
  simp only [Except.bind,combine_value applied]
  cases error with
  | true => rfl
  | false => exact (dead rfl).loop op.binds w

/-- A left operand is read, and then the loop goes on with the operator. -/
theorem read_left {l : Expr} {a : Word} (left : Renders op.binds l t) (value : l.eval = some a)
    (k : Nat) (s : List Byte) : read op.binds (t ++ (spaces k ++ op.symbol :: s)) =
      loop op.binds a (spaces k ++ op.symbol :: s) :=
  read_rendered left value (apart_symbol t op k s) (goesOn_symbol op k s)

/-- The operand of a division is a number. -/
theorem read_divisor {r : Expr} {u : List Byte} (divides : op.Divides)
    (right : Renders op.binds.operand r u) (value : r.eval = some v) (apart : Apart u s) :
    read op.binds.operand (u ++ s) = .ok ⟨v,s,false⟩ := by
  have number : op.binds.operand = .number := by
    cases op with
    | div | mod => rfl
    | _ => cases divides
  have reads := read_rendered (k := s) right value apart (number ▸ fun op _ => Nat.zero_le _)
  rw [reads,number]
  rfl

theorem read_unwinds (unwinds : Unwinds error lvl s v) : UnwoundTo error v (read lvl s) := by
  induction unwinds with
  | @missing k neg s none =>
    have front : takeSign (skipSpaces (spaces k ++ (signText neg ++ s))) = (neg,s) :=
      takeSign_text k fun unsigned c first => (none c first).2.2 unsigned
    rw [read_number,front]
    cases s with
    | nil => exact ⟨[],rfl,nofun⟩
    | cons c s =>
      obtain ⟨outer,other,-⟩ := none c rfl
      refine ⟨c :: s,?_,nofun⟩
      simp only [if_neg outer,if_neg other]
  | @unclosed k neg e t s v inner value apart stops =>
    have ends : Ends .expr s := fun op next => by cases stops.1.symm.trans next
    have reads : read .expr (t ++ s) = .ok ⟨v,skipSpaces s,false⟩ := by
      rw [read_rendered inner value apart fun op next => (ends op next).le]
      exact loop_done expr_above ends
    have dead := Dead.of_stops stops
    refine ⟨skipSpaces s,?_,fun _ => dead⟩
    rw [read_paren,reads]
    simp only [Except.map,dead.closer]
  | @inside k neg error s v _ ih =>
    obtain ⟨rest,reads,dead⟩ := ih
    rw [read_paren,reads]
    refine ⟨takeCloser rest,rfl,?_⟩
    intro fine
    rw [(dead fine).closer]
    exact dead fine
  | term _ ih => exact unwound_first term_above ih
  | expr _ ih => exact unwound_first expr_above ih
  | binary op k left value _ applied ih =>
    rw [read_left left value]
    exact unwound_combine ih (skipSpaces_symbol op k _) applied
  | @zero op k l r t u s a divides left value right zero apart =>
    rw [read_left left value,loop_op (skipSpaces_symbol op k _),
      read_divisor divides right zero apart]
    refine ⟨s,?_,nofun⟩
    simp only [Except.bind,combine_zero divides,if_true]
  | zeroInside op k divides left value _ ih =>
    obtain ⟨rest,reads,-⟩ := ih
    rw [read_left left value,loop_op (skipSpaces_symbol op k _),reads]
    refine ⟨rest,?_,nofun⟩
    simp only [Except.bind,combine_zero divides,if_true]

theorem read_traps (traps : Traps lvl s) : read lvl s = .error .divideError := by
  induction traps with
  | inside k neg _ ih =>
    rw [read_paren,ih]
    rfl
  | term _ ih =>
    rw [read_term,ih]
    rfl
  | expr _ ih =>
    rw [read_expr,ih]
    rfl
  | later op k left value _ ih =>
    rw [read_left left value,loop_op (skipSpaces_symbol op k _),ih]
    rfl
  | quotient op k divides left value right least apart =>
    rw [read_left left value,loop_op (skipSpaces_symbol op k _),
      read_divisor divides right least apart]
    simp only [Except.bind,combine_trap divides]
  | quotientInside op k divides left value unwinds =>
    obtain ⟨rest,reads,-⟩ := read_unwinds unwinds
    rw [read_left left value,loop_op (skipSpaces_symbol op k _),reads]
    simp only [Except.bind,combine_trap divides]

/-! Nothing else happens. -/

inductive Fate (lvl : Level) (s : List Byte) : Except Trap Answer → Prop where
  | reads {e : Expr} {t k : List Byte} {v : Word} : s = t ++ k → Renders lvl e t →
      e.eval = some v → Apart t k → Ends lvl k → Fate lvl s (loop lvl v k)
  | unwinds {error : Bool} {v : Word} {answer : Except Trap Answer} : Unwinds error lvl s v →
      UnwoundTo error v answer → Fate lvl s answer
  | traps : Traps lvl s → Fate lvl s (.error .divideError)

theorem Fate.unwound (unwinds : Unwinds error lvl s v) : Fate lvl s (read lvl s) :=
  .unwinds unwinds (read_unwinds unwinds)

theorem Fate.trapped (traps : Traps lvl s) : Fate lvl s (read lvl s) := by
  rw [read_traps traps]
  exact .traps traps

theorem Fate.rendered {e : Expr} (same : s = t ++ k) (rendered : Renders lvl e t)
    (value : e.eval = some v) (apart : Apart t k) (ends : Ends lvl k) : Fate lvl s (read lvl s) := by
  have reads := read_rendered rendered value apart fun op next => (ends op next).le
  rw [← same] at reads
  rw [reads]
  exact .reads same rendered value apart ends

theorem sign_split (s : List Byte) : ∃ k neg x, s = spaces k ++ (signText neg ++ x) ∧
    (neg = false → ∀ c ∈ x.head?, c ≠ 32 ∧ c ≠ 45) := by
  obtain ⟨k,same⟩ := exists_spaces s
  cases ahead : skipSpaces s with
  | nil => exact ⟨k,false,[],by rw [same,ahead]; rfl,fun _ => nofun⟩
  | cons c t =>
    have solid := skipSpaces_head ahead
    by_cases minus : c = 45
    · subst minus
      exact ⟨k,true,t,by rw [same,ahead]; rfl,nofun⟩
    · refine ⟨k,false,c :: t,by rw [same,ahead]; rfl,?_⟩
      rintro - _ ⟨⟩
      exact ⟨solid,minus⟩

theorem ends_expr : Ends .expr k ↔ nextOp k = none := by
  constructor
  · intro ends
    by_contra present
    obtain ⟨op,next⟩ := Option.ne_none_iff_exists'.mp present
    have looser := ends op next
    cases op <;> exact absurd looser (by decide)
  · intro none op next
    cases none.symm.trans next

theorem ends_number (k : List Byte) : Ends .number k := by
  intro op _
  cases op <;> decide

theorem Renders.eval_signed_some {e : Expr} (value : e.eval = some v) (neg : Bool) :
    (Expr.signed neg e).eval = some (negate neg v) := by
  cases neg with
  | false => exact value
  | true => exact Option.map_eq_some_iff.mpr ⟨v,value,rfl⟩

theorem apart_closer (t k : List Byte) : Apart (t ++ [41]) k := by
  intro c d last _ digit
  rw [List.getLast?_concat] at last
  obtain rfl := Option.some.inj last
  exact absurd digit (by decide)

/-- A parenthesis whose inside evaluates is closed behind it or passed over. -/
theorem fate_closed {e : Expr} (j : Nat) (neg : Bool) (inner : Renders .expr e t)
    (value : e.eval = some v) (apart : Apart t k) (ends : Ends .expr k)
    (same : s = spaces j ++ (signText neg ++ 40 :: (t ++ k))) :
    Fate .number s (read .number s) := by
  have none := ends_expr.mp ends
  by_cases closed : (skipSpaces k).head? = some 41
  · obtain ⟨i,behind⟩ := exists_spaces k
    obtain ⟨rest,ahead⟩ := List.head?_eq_some_iff.mp closed
    rw [ahead] at behind
    have whole : s = spaces j ++ (signText neg ++ 40 :: (t ++ (spaces i ++ [41]))) ++ rest := by
      rw [same,behind]
      simp
    have text : spaces j ++ (signText neg ++ 40 :: (t ++ (spaces i ++ [41]))) =
        spaces j ++ (signText neg ++ 40 :: (t ++ spaces i)) ++ [41] := by
      simp
    refine .rendered whole (.parens j i neg inner) (Renders.eval_signed_some value neg) ?_
      (ends_number rest)
    rw [text]
    exact apart_closer _ rest
  · subst same
    exact .unwound (.unclosed j neg inner value apart ⟨none,closed⟩)

theorem fate_number (ih : ∀ t : List Byte, t.length < s.length → Fate .expr t (read .expr t)) :
    Fate .number s (read .number s) := by
  obtain ⟨j,neg,x,same,solid⟩ := sign_split s
  cases x with
  | nil =>
    subst same
    exact .unwound (.missing j neg nofun)
  | cons c t =>
    by_cases paren : c = 40
    · subst paren
      have shorter : t.length < s.length := by
        rw [same]
        simp
        omega
      have inner := ih t shorter
      generalize read .expr t = answer at inner
      cases inner with
      | reads split rendered value apart ends =>
        subst split
        exact fate_closed j neg rendered value apart ends same
      | unwinds unwinds _ =>
        subst same
        exact .unwound (.inside j neg unwinds)
      | traps traps =>
        subst same
        exact .trapped (.inside j neg traps)
    · by_cases digit : isDigit c
      · have digits : ∀ d ∈ (c :: t).takeWhile isDigit, isDigit d := fun d member =>
          List.mem_takeWhile_imp member
        have some' : (c :: t).takeWhile isDigit ≠ [] := by
          rw [List.takeWhile_cons_of_pos digit]
          exact List.cons_ne_nil _ _
        have whole : s = spaces j ++ (signText neg ++ (c :: t).takeWhile isDigit) ++
            (c :: t).dropWhile isDigit := by
          rw [List.append_assoc,List.append_assoc,List.takeWhile_append_dropWhile,same]
        refine .rendered whole (.literal j neg some' digits) (Renders.eval_signed_some rfl neg) ?_
          (ends_number _)
        intro _ d _ first _
        have stops := List.head?_dropWhile_not isDigit (c :: t)
        rw [Option.mem_def] at first
        rw [first] at stops
        simpa using stops
      · subst same
        refine .unwound (.missing j neg ?_)
        rintro _ ⟨⟩
        exact ⟨paren,digit,fun unsigned => solid unsigned c rfl⟩

/-- Behind an operand that came to its end, its level goes on. -/
theorem Ends.goesOn (above : lvl ≠ .number) (ends : Ends lvl.operand k) : GoesOn lvl k := by
  have rank : lvl.rank = lvl.operand.rank + 1 := by
    cases lvl with
    | number => exact absurd rfl above
    | _ => rfl
  intro other next
  have looser := ends other next
  omega

/-- A level that has not come to its end goes on with one of its operators. -/
theorem goes_on_with (goesOn : GoesOn lvl k) (more : ¬Ends lvl k) :
    ∃ (op : Op) (j : Nat) (u : List Byte), op.binds = lvl ∧ k = spaces j ++ op.symbol :: u := by
  simp only [Ends,not_forall,not_lt] at more
  obtain ⟨op,next,tight⟩ := more
  have same : op.binds.rank = lvl.rank := le_antisymm tight (goesOn op next)
  obtain ⟨u,ahead⟩ := nextOp_eq_some.mp next
  obtain ⟨j,behind⟩ := exists_spaces k
  refine ⟨op,j,u,?_,ahead ▸ behind⟩
  cases binds : op.binds <;> cases lvl <;> rw [binds] at same <;> first | rfl | cases same

/-- Along a level, as long as its operands have a fate. -/
theorem fate_loop {n : Nat} (above : lvl ≠ .number)
    (ih : ∀ u : List Byte, u.length < n → Fate lvl.operand u (read lvl.operand u)) {e : Expr}
    (rendered : Renders lvl e t) (value : e.eval = some v) (apart : Apart t k)
    (goesOn : GoesOn lvl k) (short : k.length ≤ n) : Fate lvl (t ++ k) (loop lvl v k) := by
  induction length : k.length using Nat.strong_induction_on generalizing k t e v with
  | _ m step =>
    by_cases ends : Ends lvl k
    · exact .reads rfl rendered value apart ends
    · obtain ⟨op,j,u,rfl,rfl⟩ := goes_on_with goesOn ends
      have shorter : u.length < m := by
        rw [← length]
        simp
        omega
      have inner := ih u (by omega)
      rw [← read_left rendered value j u]
      generalize answered : read op.binds.operand u = answer at inner
      cases inner with
      | @reads e2 t2 k2 b split right value2 apart2 ends2 =>
        subst split
        rcases combine_cases op v b with ⟨w,applied⟩ | ⟨divides,rfl | ⟨rfl,rfl⟩⟩
        · obtain ⟨rest,done,same⟩ := loop_operand (ends2.goesOn above) b
          have on : loop op.binds v (spaces j ++ op.symbol :: (t2 ++ k2)) = loop op.binds w k2 := by
            rw [loop_op (skipSpaces_symbol op j _),answered,done]
            simp only [Except.bind,combine_value applied]
            exact loop_skip above same
          have text : t ++ (spaces j ++ op.symbol :: (t2 ++ k2)) =
              t ++ (spaces j ++ op.symbol :: t2) ++ k2 := by
            simp
          have whole : (Expr.binary op e e2).eval = some w := by
            simp only [Expr.eval,value,value2,applied]
          have apart' : Apart (t ++ (spaces j ++ op.symbol :: t2)) k2 := by
            have last : t ++ (spaces j ++ op.symbol :: t2) =
                t ++ (spaces j ++ [op.symbol]) ++ t2 := by
              simp
            rw [last]
            exact (apart_append right.ne_nil).mpr apart2
          rw [read_left rendered value j,on,text]
          have less : k2.length < m := by
            rw [List.length_append] at shorter
            omega
          exact step k2.length less (.binary op j rendered right) whole apart' (ends2.goesOn above)
            (by omega) rfl
        · exact .unwound (.zero op j divides rendered value right value2 apart2)
        · exact .trapped (.quotient op j divides rendered value right value2 apart2)
      | @unwinds error b answer unwinds _ =>
        rcases combine_cases op v b with ⟨w,applied⟩ | ⟨divides,rfl | ⟨rfl,rfl⟩⟩
        · exact .unwound (.binary op j rendered value unwinds applied)
        · exact .unwound (.zeroInside op j divides rendered value unwinds)
        · exact .trapped (.quotientInside op j divides rendered value unwinds)
      | traps traps => exact .trapped (.later op j rendered value traps)

theorem Renders.first {e : Expr} (above : lvl ≠ .number) (rendered : Renders lvl.operand e t) :
    Renders lvl e t := by
  cases lvl with
  | number => exact absurd rfl above
  | term => exact rendered.term
  | expr => exact rendered.expr

theorem Unwinds.first (above : lvl ≠ .number) (unwinds : Unwinds error lvl.operand s v) :
    Unwinds error lvl s v := by
  cases lvl with
  | number => exact absurd rfl above
  | term => exact unwinds.term
  | expr => exact unwinds.expr

theorem Traps.first (above : lvl ≠ .number) (traps : Traps lvl.operand s) : Traps lvl s := by
  cases lvl with
  | number => exact absurd rfl above
  | term => exact traps.term
  | expr => exact traps.expr

/-- From the operands of a level to the level. -/
theorem fate_first (above : lvl ≠ .number)
    (ih : ∀ u : List Byte, u.length < s.length → Fate lvl.operand u (read lvl.operand u))
    (first : Fate lvl.operand s (read lvl.operand s)) : Fate lvl s (read lvl s) := by
  generalize answered : read lvl.operand s = answer at first
  cases first with
  | @reads e t k v split rendered value apart ends =>
    subst split
    have goesOn := ends.goesOn above
    have short : k.length ≤ (t ++ k).length := by simp
    rw [read_lift above goesOn answered]
    exact fate_loop above ih (rendered.first above) value apart goesOn short
  | unwinds unwinds _ => exact .unwound (unwinds.first above)
  | traps traps => exact .trapped (traps.first above)

theorem fate (lvl : Level) (s : List Byte) : Fate lvl s (read lvl s) := by
  induction length : s.length using Nat.strong_induction_on generalizing lvl s with
  | _ n ih =>
    have shorter (lvl : Level) : ∀ u : List Byte, u.length < s.length → Fate lvl u (read lvl u) :=
      fun u less => ih u.length (length ▸ less) lvl u rfl
    have number := fate_number (shorter .expr)
    have term := fate_first term_above (shorter .number) number
    cases lvl with
    | number => exact number
    | term => exact term
    | expr => exact fate_first expr_above (shorter .term) term

/-! The calculator on a whole text. -/

/-- The text begins with an expression that evaluates, and goes on with no operator. -/
def Begins (s : List Byte) : Prop :=
  ∃ e t k v, s = t ++ k ∧ Renders .expr e t ∧ e.eval = some v ∧ Apart t k ∧ nextOp k = none

/-- There is a value just for a text that begins with an expression or that only lacks
closing parentheses. -/
theorem read_value_iff (s : List Byte) : (∃ v k, read .expr s = .ok ⟨v,k,false⟩) ↔
    Begins s ∨ ∃ v, Unwinds false .expr s v := by
  constructor
  · rintro ⟨v,k,reads⟩
    have fate := fate .expr s
    rw [reads] at fate
    generalize answered : (Except.ok ⟨v,k,false⟩ : Except Trap Answer) = answer at fate
    cases fate with
    | reads split rendered value apart ends =>
      exact .inl ⟨_,_,_,_,split,rendered,value,apart,ends_expr.mp ends⟩
    | @unwinds error w _ unwinds unwound =>
      obtain ⟨rest,same,-⟩ := unwound
      obtain ⟨rfl,rfl,rfl⟩ := Answer.mk.inj (Except.ok.inj (answered.trans same))
      exact .inr ⟨_,unwinds⟩
    | traps => cases answered
  · rintro (⟨e,t,k,v,rfl,rendered,value,apart,none⟩ | ⟨v,unwinds⟩)
    · have ends := ends_expr.mpr none
      have reads := read_rendered rendered value apart fun op next => (ends op next).le
      exact ⟨v,skipSpaces k,reads.trans (loop_done expr_above ends)⟩
    · obtain ⟨k,reads,-⟩ := read_unwinds unwinds
      exact ⟨v,k,reads⟩

theorem read_traps_iff (s : List Byte) : read .expr s = .error .divideError ↔ Traps .expr s := by
  constructor
  · intro trapped
    have fate := fate .expr s
    rw [trapped] at fate
    generalize answered : (Except.error .divideError : Except Trap Answer) = answer at fate
    cases fate with
    | reads _ _ _ _ ends => cases answered.trans (loop_done expr_above ends)
    | unwinds _ unwound =>
      obtain ⟨rest,same,-⟩ := unwound
      cases answered.trans same
    | traps traps => exact traps
  · exact read_traps

end NimrodOS.Calc
