import NimrodOS.CalcFates

/-! Which arguments `cmd_calc` shows a result for. -/
namespace NimrodOS.Calc

open Libc

/-- An expression up to trailing spaces. -/
def WellFormed (s : List Byte) : Prop := ∃ e t k, Renders .expr e t ∧ s = t ++ spaces k

/-- Every closing parenthesis has an opening one before it, and the other way round, when
`d` are open already. -/
def balanced : Nat → List Byte → Bool
  | d,[] => d == 0
  | d,c :: s =>
    if c = 40 then balanced (d + 1) s
    else if c = 41 then d != 0 && balanced (d - 1) s
    else balanced d s

def Unbalanced (s : List Byte) : Prop := balanced 0 s = false

/-- There is an expression in front, but the whole is not one. -/
def Leftover (s : List Byte) : Prop := ¬WellFormed s ∧ ∃ e t k, Renders .expr e t ∧ s = t ++ k

/-- A result is shown for expressions only, and the error for the rest of these. -/
structure Accepts (args : CString) : Prop where
  wellFormed : ∀ minus shown, cmdCalc args = .ok (.result minus shown) → WellFormed args.val
  rejected : Unbalanced args.val ∨ Leftover args.val → cmdCalc args = .ok .invalid

/-- Not an expression, but it begins with one behind which no operator stands, or all that it
lacks are closing parentheses before such a place. -/
def Misread (s : List Byte) : Prop :=
  ¬WellFormed s ∧ (Begins s ∨ ∃ v, Unwinds false .expr s v)

variable {s t k : List Byte} {lvl : Level} {e : Expr} {args : CString}

/-! Expressions are balanced. -/

theorem balanced_append (other : ∀ c ∈ t, c ≠ 40 ∧ c ≠ 41) (d : Nat) (k : List Byte) :
    balanced d (t ++ k) = balanced d k := by
  induction t with
  | nil => rfl
  | cons c t ih =>
    rw [List.forall_mem_cons] at other
    rw [List.cons_append,balanced,if_neg other.1.1,if_neg other.1.2]
    exact ih other.2

theorem balanced_spaces (d j : Nat) (k : List Byte) : balanced d (spaces j ++ k) = balanced d k := by
  apply balanced_append
  intro c member
  obtain rfl := List.eq_of_mem_replicate member
  decide

theorem balanced_sign (d : Nat) (neg : Bool) (k : List Byte) :
    balanced d (signText neg ++ k) = balanced d k := by
  cases neg <;> rfl

theorem Renders.balanced (rendered : Renders lvl e t) (d : Nat) (k : List Byte) :
    balanced d (t ++ k) = balanced d k := by
  induction rendered generalizing d k with
  | literal j neg _ digits =>
    rw [List.append_assoc,List.append_assoc,balanced_spaces,balanced_sign]
    apply balanced_append
    intro c member
    have digit := digits c member
    refine ⟨(digit_solid digit).2.2,?_⟩
    rintro rfl
    exact absurd digit (by decide)
  | parens j i neg _ ih =>
    simp only [List.append_assoc,List.cons_append,balanced_spaces,balanced_sign]
    show Calc.balanced (d + 1) _ = _
    rw [ih,balanced_spaces]
    rfl
  | term _ ih => exact ih d k
  | expr _ ih => exact ih d k
  | @binary op j l r t u _ _ ihl ihr =>
    have other : Calc.balanced d (op.symbol :: (u ++ k)) = Calc.balanced d (u ++ k) := by
      cases op <;> rfl
    simp only [List.append_assoc,List.cons_append]
    rw [ihl,balanced_spaces,other,ihr]

theorem WellFormed.balanced (formed : WellFormed s) : balanced 0 s = true := by
  obtain ⟨e,t,k,rendered,rfl⟩ := formed
  rw [rendered.balanced,← List.append_nil (spaces k),balanced_spaces]
  rfl

/-! The command. -/

theorem cmdCalc_blank (blank : skipSpaces args.val = []) : cmdCalc args = .ok .usage := by
  simp only [cmdCalc,blank]

theorem cmdCalc_solid (solid : skipSpaces args.val ≠ []) :
    cmdCalc args = (read .expr args.val).map fun a =>
      if a.error then .invalid
      else if a.val.toInt < 0 then .result true (-a.val) else .result false a.val := by
  have skipped : read .expr args.val = read .expr (skipSpaces args.val) :=
    read_skip (skipSpaces_skipSpaces args.val).symm
  rw [skipped]
  unfold cmdCalc
  split
  · next blank => exact absurd blank solid
  · next c t ahead =>
    rw [ahead]
    simp only [read]
    cases calcExpr (c :: t) with
    | error trap => rfl
    | ok a =>
      simp only [bind,Except.bind,pure,Except.pure,Except.map,Parsed.answer]
      split_ifs <;> rfl

/-- Blank texts hold no operand. -/
theorem Renders.solid (rendered : Renders lvl e t) : skipSpaces (t ++ k) ≠ [] := by
  induction rendered generalizing k with
  | @literal j neg ds some' digits =>
    rw [List.append_assoc,List.append_assoc,skipSpaces_spaces]
    cases neg with
    | true => exact List.cons_ne_nil _ _
    | false =>
      cases ds with
      | nil => exact absurd rfl some'
      | cons c ds =>
        have digit := digits c (List.mem_cons_self ..)
        show skipSpaces (c :: (ds ++ k)) ≠ []
        rw [skipSpaces_cons (digit_solid digit).1]
        exact List.cons_ne_nil _ _
  | parens j i neg =>
    rw [List.append_assoc,List.append_assoc,skipSpaces_spaces]
    cases neg <;> exact List.cons_ne_nil _ _
  | term _ ih => exact ih
  | expr _ ih => exact ih
  | binary op j _ _ ihl _ =>
    rw [List.append_assoc]
    exact ihl

theorem blank_rejected (blank : skipSpaces s = []) : ¬(Unbalanced s ∨ Leftover s) := by
  obtain ⟨j,same⟩ := exists_spaces s
  rw [blank,List.append_nil] at same
  rintro (unbalanced | ⟨-,e,t,k,rendered,split⟩)
  · have fine := balanced_spaces 0 j []
    rw [List.append_nil,← same,unbalanced] at fine
    cases fine
  · rw [split] at blank
    exact rendered.solid blank

/-- Nothing can be read from a blank text. -/
theorem read_blank (blank : skipSpaces s = []) : read .expr s = .ok ⟨0,[],true⟩ := by
  have number : read .number s = .ok ⟨0,[],true⟩ := by
    rw [read_number,blank]
    rfl
  rw [read_expr,read_term,number]
  rfl

theorem result_iff (args : CString) : (∃ minus shown, cmdCalc args = .ok (.result minus shown)) ↔
    ∃ v k, read .expr args.val = .ok ⟨v,k,false⟩ := by
  by_cases blank : skipSpaces args.val = []
  · rw [cmdCalc_blank blank,read_blank blank]
    constructor
    · rintro ⟨minus,shown,same⟩
      cases same
    · rintro ⟨v,k,same⟩
      cases same
  · rw [cmdCalc_solid blank]
    cases read .expr args.val with
    | error trap =>
      constructor
      · rintro ⟨minus,shown,same⟩
        cases same
      · rintro ⟨v,k,same⟩
        cases same
    | ok a =>
      obtain ⟨v,k,error⟩ := a
      cases error with
      | true =>
        constructor
        · rintro ⟨minus,shown,same⟩
          cases same
        · rintro ⟨v,k,same⟩
          cases same
      | false =>
        refine iff_of_true ?_ ⟨v,k,rfl⟩
        by_cases minus : v.toInt < 0
        · exact ⟨true,-v,by simp [Except.map,minus]⟩
        · exact ⟨false,v,by simp [Except.map,minus]⟩

/-- Either a result, the usage for a blank text, an exception, or the error. -/
theorem cmdCalc_cases (args : CString) :
    (∃ minus shown, cmdCalc args = .ok (.result minus shown)) ∨ skipSpaces args.val = [] ∨
      read .expr args.val = .error .divideError ∨ cmdCalc args = .ok .invalid := by
  by_cases blank : skipSpaces args.val = []
  · exact .inr (.inl blank)
  · cases reads : read .expr args.val with
    | error trap => exact .inr (.inr (.inl rfl))
    | ok a =>
      obtain ⟨v,k,error⟩ := a
      cases error with
      | true =>
        refine .inr (.inr (.inr ?_))
        rw [cmdCalc_solid blank,reads]
        rfl
      | false => exact .inl ((result_iff args).mpr ⟨v,k,reads⟩)

/-- A result is shown just for texts that the calculator can read to a value. -/
theorem result_iff_reads (args : CString) :
    (∃ minus shown, cmdCalc args = .ok (.result minus shown)) ↔
      Begins args.val ∨ ∃ v, Unwinds false .expr args.val v :=
  (result_iff args).trans (read_value_iff args.val)

/-- The command accepts its grammar just on the arguments that it does not misread, and on
which no exception comes before the error. -/
theorem accepts_iff (args : CString) : Accepts args ↔ ¬Misread args.val ∧
    ¬((Unbalanced args.val ∨ Leftover args.val) ∧ Traps .expr args.val) := by
  constructor
  · intro accepts
    constructor
    · rintro ⟨malformed,reads⟩
      obtain ⟨minus,shown,result⟩ := (result_iff_reads args).mpr reads
      exact malformed (accepts.wellFormed minus shown result)
    · rintro ⟨reject,traps⟩
      have invalid := accepts.rejected reject
      have solid : skipSpaces args.val ≠ [] := fun blank => blank_rejected blank reject
      rw [cmdCalc_solid solid,read_traps traps] at invalid
      cases invalid
  · rintro ⟨fine,quiet⟩
    constructor
    · intro minus shown result
      by_contra malformed
      exact fine ⟨malformed,(result_iff_reads args).mp ⟨minus,shown,result⟩⟩
    · intro reject
      rcases cmdCalc_cases args with result | blank | trapped | invalid
      · have malformed : ¬WellFormed args.val := by
          rcases reject with unbalanced | leftover
          · intro formed
            cases formed.balanced.symm.trans unbalanced
          · exact leftover.1
        exact absurd ⟨malformed,(result_iff_reads args).mp result⟩ fine
      · exact absurd reject (blank_rejected blank)
      · exact absurd ⟨reject,(read_traps_iff args.val).mp trapped⟩ quiet
      · exact invalid

/-- An opening parenthesis, a digit and no more. -/
theorem unclosed_accepted : ¬Accepts ⟨[40,49],by decide⟩ := by
  intro accepts
  have digit := Renders.literal 0 false (List.cons_ne_nil 49 []) (by decide)
  have unclosed : Unwinds false .expr [40,49] 1 := by
    refine .expr (.term (.unclosed 0 false (.expr (.term digit)) (by decide) ?_ ?_))
    · rintro c d - ⟨⟩
    · exact ⟨rfl,nofun⟩
  obtain ⟨minus,shown,result⟩ := (result_iff_reads ⟨[40,49],by decide⟩).mpr (.inr ⟨1,unclosed⟩)
  have formed := (accepts.wellFormed minus shown result).balanced
  cases formed

end NimrodOS.Calc
