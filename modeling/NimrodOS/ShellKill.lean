import NimrodOS.CalcRead
import NimrodOS.Lib.Checked
import NimrodOS.Shell
import NimrodOS.TaskCount

/-! The command `kill` of `shell/shell.c`, from the text behind it to the table of tasks. -/
namespace NimrodOS.Tasks

open Checked Libc Calc
open Shell (text)

/-- `cmd_kill` on the number that its loop has read. An index outside of the table is a fault here, as the
language has it; `cmdKill` follows one that leads back to a slot. -/
def killNumber (s : State) (id : Word) : Except OutOfRange (State × KillReply) :=
  if id = 0 then return (s,.kernelTask)
  else if id.toInt ≥ 16 then return (s,.noSuchTask)
  else do
    let t ← get s.tasks id.toInt
    if t.state = .unused ∨ t.state = .dead then return (s,.noSuchTask)
    else
      let tasks ← set s.tasks id.toInt {t with state := .dead}
      return ({s with tasks := tasks},.killed)

def cmdKillLine (s : State) (args : List Byte) : Except OutOfRange (State × KillReply) :=
  killNumber s (digitLoop 0 (skipSpaces args)).1

/-- The number that was typed, of any size. -/
def typedNumber (args : List Byte) : Nat := digitsValue ((skipSpaces args).takeWhile isDigit)

/-- A task other than the kernel's that can be killed has this number. -/
def Killable (s : State) (n : Nat) : Prop := ∃ i : Fin 16, i.val = n ∧ i ≠ 0 ∧ Live (s.status i)

instance (s : State) (n : Nat) : Decidable (Killable s n) := inferInstanceAs (Decidable (∃ _ : Fin 16, _))

/-- Nothing but a slot of the table is touched: the task of the typed number is killed, or an error
is reported and nothing changes. -/
def KillsTyped (s : State) (args : List Byte) : Prop :=
  if Killable s (typedNumber args) then ∃ i : Fin 16, i.val = typedNumber args ∧
    cmdKillLine s args = .ok (s.setState i .dead,.killed)
  else ∃ reply ≠ .killed, cmdKillLine s args = .ok (s,reply)

variable {s : State} {id : Word} {args : List Byte} {i : Fin 16}

/-- The loop reads the typed number in 32 bits. -/
theorem digitLoop_typed (args : List Byte) :
    (digitLoop 0 (skipSpaces args)).1 = BitVec.ofNat 32 (typedNumber args) := by
  have digits : ∀ c ∈ (skipSpaces args).takeWhile isDigit, isDigit c := fun c member =>
    List.mem_takeWhile_imp member
  have ends : ∀ c ∈ ((skipSpaces args).dropWhile isDigit).head?, ¬isDigit c := by
    intro c member
    have stops := List.head?_dropWhile_not isDigit (skipSpaces args)
    rw [Option.mem_def.mp member] at stops
    simpa using stops
  have loop := digitLoop_append digits ends 0
  rw [List.takeWhile_append_dropWhile] at loop
  exact congrArg Prod.fst loop

/-! What becomes of a number. -/

theorem killNumber_negative (negative : id.toInt < 0) : killNumber s id = .error ⟨16,id.toInt⟩ := by
  have nonzero : id ≠ 0 := by
    rintro rfl
    exact absurd negative (by decide)
  rw [killNumber,if_neg nonzero,if_neg (by omega),get_outside (.inl negative)]
  rfl

theorem slotAt_same (same : i.val = id.toNat) : slotAt id = some i := by
  have bound := i.isLt
  rw [slotAt_eq_some]
  omega

/-- From 0 on, a number leads to its own slot or is too large. -/
theorem addresses_nonnegative (nonnegative : 0 ≤ id.toInt) : Addresses id := by
  have sign := BitVec.toInt_eq_toNat_cond id
  by_cases large : 16 ≤ id.toInt
  · exact .inl large
  · have inside : id.toNat < 16 := by omega
    have found : slotAt id = some ⟨id.toNat,inside⟩ := slotAt_same rfl
    exact .inr (Option.isSome_of_eq_some found)

/-- Then it is what the commands of the scheduler's model take. -/
theorem killNumber_nonnegative (nonnegative : 0 ≤ id.toInt) :
    killNumber s id = .ok (cmdKill s ⟨id,addresses_nonnegative nonnegative⟩) := by
  have sign := BitVec.toInt_eq_toNat_cond id
  rw [killNumber,cmdKill]
  by_cases kernel : id = 0
  · rw [if_pos kernel,if_pos kernel]
    rfl
  rw [if_neg kernel,if_neg kernel]
  by_cases large : id.toInt ≥ 16
  · rw [if_pos large,dif_pos large]
    rfl
  have inside : id.toNat < 16 := by omega
  have signed : id.toInt = id.toNat := by omega
  have found : slotAt id = some ⟨id.toNat,inside⟩ := slotAt_same rfl
  rw [if_neg large,dif_neg large,get_at (j := ⟨id.toNat,inside⟩) signed,ok_bind]
  simp only [found,Option.get_some]
  split_ifs
  · rfl
  · rw [set_at (j := ⟨id.toNat,inside⟩) signed,ok_bind]
    have table (i : Fin 16) (t : Task) : Function.update s.tasks i t = (s.setTask i t).tasks := by
      funext j
      exact Function.update_apply ..
    rw [table]
    rfl

theorem target_nonnegative (nonnegative : 0 ≤ id.toInt) :
    target ⟨id,addresses_nonnegative nonnegative⟩ = some i ↔ i.val = id.toNat ∧ i ≠ 0 := by
  have bound := i.isLt
  have sign := BitVec.toInt_eq_toNat_cond id
  have kernel : id = 0 ↔ id.toNat = 0 := BitVec.toNat_inj.symm
  have user : i = 0 ↔ i.val = 0 := Fin.ext_iff
  rw [target_eq_some]
  dsimp only
  rw [Ne,Ne,kernel,user]
  omega

theorem killNumber_killed (nonnegative : 0 ≤ id.toInt) (same : i.val = id.toNat) (user : i ≠ 0)
    (live : Live (s.status i)) : killNumber s id = .ok (s.setState i .dead,.killed) := by
  have done := cmdKill_target s ⟨id,addresses_nonnegative nonnegative⟩
  obtain ⟨used,alive⟩ := live_iff.mp live
  rw [(target_nonnegative nonnegative).mpr ⟨same,user⟩] at done
  dsimp only at done
  rw [killNumber_nonnegative nonnegative,done,if_neg fun gone => gone.elim used alive]

theorem killNumber_refused (nonnegative : 0 ≤ id.toInt) (other : ¬Killable s id.toNat) :
    ∃ reply ≠ .killed, killNumber s id = .ok (s,reply) := by
  have done := cmdKill_target s ⟨id,addresses_nonnegative nonnegative⟩
  rw [killNumber_nonnegative nonnegative]
  cases leads : target ⟨id,addresses_nonnegative nonnegative⟩ with
  | none =>
    rw [leads] at done
    obtain ⟨reply,spares,same⟩ := done
    exact ⟨reply,spares,congrArg Except.ok same⟩
  | some i =>
    rw [leads] at done
    dsimp only at done
    obtain ⟨same,user⟩ := (target_nonnegative nonnegative).mp leads
    have gone : s.status i = .unused ∨ s.status i = .dead := by
      by_contra alive
      exact other ⟨i,same,user,live_iff.mpr (not_or.mp alive)⟩
    rw [done,if_pos gone]
    exact ⟨.noSuchTask,by decide,rfl⟩

/-- A typed number is taken for the number of a task where no sign comes up, and where it has not
come around to the number of a live task. -/
theorem cmdKill_typed_iff (s : State) (args : List Byte) : KillsTyped s args ↔
    typedNumber args % 2^32 < 2^31 ∧
      (typedNumber args < 2^32 ∨ ¬Killable s (typedNumber args % 2^32)) := by
  unfold KillsTyped cmdKillLine
  rw [digitLoop_typed]
  generalize typedNumber args = n
  have value : (BitVec.ofNat 32 n).toNat = n % 2^32 := BitVec.toNat_ofNat ..
  have sign := BitVec.toInt_eq_toNat_cond (BitVec.ofNat 32 n)
  by_cases negative : (BitVec.ofNat 32 n).toInt < 0
  · have faults := killNumber_negative (s := s) negative
    refine iff_of_false ?_ (by omega)
    rw [faults]
    split_ifs
    · rintro ⟨i,-,same⟩
      cases same
    · rintro ⟨reply,-,same⟩
      cases same
  · have low : n % 2^32 < 2^31 := by omega
    have nonnegative : 0 ≤ (BitVec.ofNat 32 n).toInt := by omega
    by_cases small : n < 2^32
    · refine iff_of_true ?_ ⟨low,.inl small⟩
      rw [Nat.mod_eq_of_lt small] at value
      split_ifs with killable
      · obtain ⟨i,same,user,live⟩ := killable
        exact ⟨i,same,killNumber_killed nonnegative (same.trans value.symm) user live⟩
      · exact killNumber_refused nonnegative (value.symm ▸ killable)
    · have none : ¬Killable s n := by
        rintro ⟨i,same,-⟩
        omega
      rw [if_neg none]
      constructor
      · rintro ⟨reply,other,refused⟩
        refine ⟨low,.inr ?_⟩
        rintro ⟨i,same,user,live⟩
        rw [killNumber_killed nonnegative (same.trans value.symm) user live] at refused
        exact other (Prod.mk.inj (Except.ok.inj refused)).2.symm
      · rintro ⟨-,wrapped⟩
        exact killNumber_refused nonnegative (value.symm ▸ wrapped.resolve_left small)

/-- The digits of 2^31 come to a negative number. -/
theorem cmdKill_outside : ¬∀ s args, KillsTyped s args := by
  intro claim
  have typed := claim default (text "2147483648")
  have number : BitVec.toInt (digitLoop 0 (skipSpaces (text "2147483648"))).1 < 0 := by decide
  unfold KillsTyped cmdKillLine at typed
  rw [killNumber_negative number] at typed
  split_ifs at typed
  · obtain ⟨i,-,same⟩ := typed
    cases same
  · obtain ⟨reply,-,same⟩ := typed
    cases same

end NimrodOS.Tasks
