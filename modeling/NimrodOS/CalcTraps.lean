import NimrodOS.CalcAccepts

/-! Which arguments of `cmd_calc` make the processor raise a divide error. -/
namespace NimrodOS.Calc

open Libc

variable {a d : Word} {op : Op} {args : CString}

/-- The instruction `idiv` behind `cdq`: quotient and remainder, with an exception where the
divisor is zero or the quotient has no 32 bits. -/
def idiv (a d : Word) : Except Trap (Word × Word) :=
  if d ≠ 0 ∧ -2^31 ≤ a.toInt.tdiv d.toInt ∧ a.toInt.tdiv d.toInt < 2^31 then
    .ok (BitVec.ofInt 32 (a.toInt.tdiv d.toInt),BitVec.ofInt 32 (a.toInt.tmod d.toInt))
  else .error .divideError

def NeverTraps (args : CString) : Prop := ∀ trap, cmdCalc args ≠ .error trap

theorem idiv_fine (divisor : d ≠ 0) (fits : ¬(a = BitVec.intMin 32 ∧ d = -1)) :
    idiv a d = .ok (a.sdiv d,a.srem d) := by
  have quotient : (a.sdiv d).toInt = a.toInt.tdiv d.toInt :=
    BitVec.toInt_sdiv_of_ne_or_ne a d (Decidable.not_and_iff_not_or_not.mp fits)
  have least := BitVec.le_toInt (a.sdiv d)
  have most := BitVec.toInt_lt (x := a.sdiv d)
  rw [idiv,if_pos ⟨divisor,by omega,by omega⟩,← quotient,← BitVec.toInt_srem,BitVec.ofInt_toInt,
    BitVec.ofInt_toInt]

theorem idiv_traps_iff (a d : Word) :
    idiv a d = .error .divideError ↔ d = 0 ∨ a = BitVec.intMin 32 ∧ d = -1 := by
  by_cases bad : d = 0 ∨ a = BitVec.intMin 32 ∧ d = -1
  · refine iff_of_true ?_ bad
    rcases bad with rfl | ⟨rfl,rfl⟩
    · exact if_neg fun inside => inside.1 rfl
    · rfl
  · rw [not_or] at bad
    refine iff_of_false ?_ (not_or.mpr bad)
    rw [idiv_fine bad.1 bad.2]
    exact nofun

/-- What `calc_term` does behind its test of the divisor is one `idiv`. -/
theorem combine_idiv (divides : op.Divides) (divisor : d ≠ 0) (error : Bool) :
    op.combine a d error =
      (idiv a d).map fun result => (if op = .div then result.1 else result.2,error) := by
  by_cases bad : a = BitVec.intMin 32 ∧ d = -1
  · rw [(idiv_traps_iff a d).mpr (.inr bad),bad.1,bad.2,combine_trap divides]
    rfl
  · rw [idiv_fine divisor bad]
    cases op with
    | div | mod =>
      simp only [Op.combine,if_neg divisor,if_neg bad]
      rfl
    | _ => cases divides

theorem cmdCalc_traps (args : CString) :
    cmdCalc args = .error .divideError ↔ read .expr args.val = .error .divideError := by
  by_cases blank : skipSpaces args.val = []
  · rw [cmdCalc_blank blank,read_blank blank]
    exact iff_of_false nofun nofun
  · rw [cmdCalc_solid blank]
    cases read .expr args.val with
    | error trap =>
      cases trap
      exact iff_of_true rfl rfl
    | ok answer => exact iff_of_false nofun nofun

/-- The command raises no divide error just on the texts in which no division of the least
number by -1 is reached. -/
theorem never_traps_iff (args : CString) : NeverTraps args ↔ ¬Traps .expr args.val := by
  have traps := (cmdCalc_traps args).trans (read_traps_iff args.val)
  constructor
  · intro never trapped
    exact never .divideError (traps.mpr trapped)
  · intro quiet trap trapped
    cases trap
    exact quiet (traps.mp trapped)

/-- The least number, a slash and -1. -/
theorem least_quotient_traps :
    ¬NeverTraps ⟨[45,50,49,52,55,52,56,51,54,52,56,47,45,49],by decide⟩ := by
  have least := Renders.literal 0 true (List.cons_ne_nil 50 [49,52,55,52,56,51,54,52,56]) (by decide)
  have minusOne := Renders.literal 0 true (List.cons_ne_nil 49 []) (by decide)
  have quotient : Traps .expr [45,50,49,52,55,52,56,51,54,52,56,47,45,49] := by
    refine .expr (.quotient (s := []) .div 0 trivial least.term rfl minusOne rfl ?_)
    rintro c d - ⟨⟩
  intro never
  exact never .divideError ((cmdCalc_traps _).mpr (read_traps quotient))

end NimrodOS.Calc
