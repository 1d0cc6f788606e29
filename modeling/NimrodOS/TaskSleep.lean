import NimrodOS.TaskTurns

/-! How long a task sleeps. The wake time is computed and compared modulo 2^32. -/
namespace NimrodOS.Tasks

open Transition Libc Cyclic

def Op.isTimer : Op → Bool
  | .timer => true
  | _ => false

/-- Timer interrupts among the steps of a run. -/
def ticks (past : List (State × Op)) : Nat := past.countP fun entry => entry.2.isTimer

/-- In every run that begins with the current task's `sys_sleep_handler(seconds)`, each
dispatch of that task has a hundred ticks for each second before it. -/
def SleepsLong (sym : Symbols) (s : State) (seconds : Word) : Prop :=
  ∀ past t op, Run (Step sym) s past t →
    (past ++ [(t,op)]).head? = some (s,.sleepTicks (seconds * 100)) →
    (step sym t op).2 = some s.currentTask → 100 * seconds.toNat ≤ ticks (past ++ [(t,op)])

/-- A sleeping or dead task with wake time `w`. -/
def Resting (w : Word) (s : State) (x : Fin 16) : Prop :=
  s.status x = .sleeping ∧ s.wakeTick x = w ∨ s.status x = .dead

section

variable {sym : Symbols} {s t : State} {op : Op} {i x y : Fin 16} {w : Word}

theorem sleep_step (sym : Symbols) (s : State) (seconds : Word) :
    step sym s (.sleepTicks (seconds * 100)) = sysSleepHandler sym s seconds := rfl

theorem schedule_tickCount (sym : Symbols) (s : State) :
    (taskSchedule sym s).1.tickCount = s.tickCount := by
  rcases schedule_cases sym s with ⟨-,stayed⟩ | ⟨next,-,switched⟩
  · exact stayed.tickCount
  · exact switched.tickCount

theorem tickCount_enter : (enter sym s op).tickCount =
    if op.isTimer then s.tickCount + 1 else s.tickCount := by
  cases op with
  | create name entry => exact (taskCreate_counters sym s name entry).2
  | kill id => exact (cmdKill_counters s id).2
  | _ => rfl

theorem step_tickCount : (step sym s op).1.tickCount = (enter sym s op).tickCount := by
  by_cases calls : Calls s op
  · rw [step_of_calls calls]
    exact schedule_tickCount sym _
  · rw [step_of_quiet calls]

theorem ticks_snoc (past : List (State × Op)) (t : State) (op : Op) :
    ticks (past ++ [(t,op)]) = ticks past + if op.isTimer then 1 else 0 := by
  simp [ticks,List.countP_append]

theorem ticks_sleep (s : State) (n : Word) (past : List (State × Op)) :
    ticks ((s,.sleepTicks n) :: past) = ticks past := by
  simp [ticks,Op.isTimer]

/-- The counter counts the ticks modulo 2^32. -/
theorem run_tickCount {past : List (State × Op)} (run : Run (Step sym) s past t) :
    t.tickCount.toNat = (s.tickCount.toNat + ticks past) % 2^32 := by
  induction run with
  | nil => exact (Nat.mod_eq_of_lt s.tickCount.isLt).symm
  | @snoc past state next op _ moved ih =>
    obtain rfl := moved
    rw [step_tickCount,tickCount_enter,ticks_snoc]
    split
    · simp [BitVec.toNat_add,ih]
      omega
    · simp [ih]

theorem wakeTick_enter (other : ∀ v, written s op ≠ some (i,v)) :
    (enter sym s op).wakeTick i = s.wakeTick i := by
  rcases enter_cases sym s op with ⟨-,kept⟩ | ⟨j,t,writes,-,kept⟩
  · rw [State.wakeTick,kept]
    rfl
  · have apart : i ≠ j := by
      rintro rfl
      exact other t.state writes
    rw [State.wakeTick,kept,if_neg apart]
    rfl

/-! No dispatch before the wake time. -/

theorem schedule_resting (sym : Symbols) (resting : Resting w s x) (early : s.tickCount < w)
    (user : x ≠ 0) : (taskSchedule sym s).2 ≠ some x ∧ Resting w (taskSchedule sym s).1 x ∧
      (taskSchedule sym s).1.currentTask ≠ x := by
  have notDue : ¬Due s x := by
    rintro ⟨sleeping,due⟩
    rcases resting with ⟨-,rfl⟩ | dead
    · exact absurd due (BitVec.not_le.mpr early)
    · cases sleeping.symm.trans dead
  have stopped : s.status x ≠ .ready ∧ s.status x ≠ .running := by
    rcases resting with ⟨sleeping,-⟩ | dead
    · simp [sleeping]
    · simp [dead]
  rcases schedule_cases sym s with ⟨none,stayed⟩ | ⟨next,picked,switched⟩
  · refine ⟨by simp [none],?_,?_⟩
    · rwa [Resting,stayed.status,stayed.wakeTick]
    · rw [stayed.currentTask]
      rintro rfl
      exact stopped.2 stayed.running
  · have apart : x ≠ next := by
      rintro rfl
      rcases switched.picked with ⟨ready | due,-⟩ | ⟨-,-,kernel⟩
      · exact stopped.1 ready
      · exact notDue due
      · exact user kernel
    have same : (taskSchedule sym s).1.status x = s.status x := by
      rw [switched.status,if_neg apart,if_neg]
      rintro (⟨-,running⟩ | due)
      · exact stopped.2 running
      · exact notDue due
    refine ⟨?_,?_,?_⟩
    · rw [picked]
      exact fun here => apart (Option.some.inj here).symm
    · rwa [Resting,same,switched.wakeTick]
    · rw [switched.currentTask]
      exact apart.symm

theorem step_resting (resting : Resting w s x) (apart : s.currentTask ≠ x)
    (early : (enter sym s op).tickCount < w) (user : x ≠ 0) :
    (step sym s op).2 ≠ some x ∧ Resting w (step sym s op).1 x ∧
      (step sym s op).1.currentTask ≠ x := by
  have entered : Resting w (enter sym s op) x := by
    unfold Resting
    rw [status_enter]
    by_cases hit : ∃ v, written s op = some (x,v)
    · obtain ⟨v,writes⟩ := hit
      rw [writes]
      have dead : v = .dead := by
        rcases written_cases writes with ⟨-,free,-⟩ | ⟨-,here,-⟩ | ⟨-,here,-⟩ | ⟨-,-,-,dead⟩
        · rcases resting with ⟨sleeping,-⟩ | dead
          · cases free.symm.trans sleeping
          · cases free.symm.trans dead
        · exact absurd here.symm apart
        · exact absurd here.symm apart
        · exact dead
      simp [dead]
    · push Not at hit
      rw [wakeTick_enter hit]
      cases writes : written s op with
      | none => exact resting
      | some write =>
        have other : x ≠ write.1 := by
          rintro rfl
          exact hit write.2 writes
        dsimp only
        rw [if_neg other]
        exact resting
  by_cases calls : Calls s op
  · rw [step_of_calls calls]
    exact schedule_resting sym entered early user
  · rw [step_of_quiet calls]
    refine ⟨by simp,entered,?_⟩
    rw [currentTask_enter]
    exact apart

theorem run_resting {past : List (State × Op)} (run : Run (Step sym) s past t)
    (resting : Resting w s x) (apart : s.currentTask ≠ x) (user : x ≠ 0)
    (early : s.tickCount.toNat + ticks past < w.toNat) :
    Resting w t x ∧ t.currentTask ≠ x := by
  induction run with
  | nil => exact ⟨resting,apart⟩
  | @snoc past state next op prior moved ih =>
    obtain rfl := moved
    have count := run_tickCount (prior.snoc rfl : Run (Step sym) s _ (step sym state op).1)
    rw [step_tickCount] at count
    have below : (enter sym state op).tickCount < w := by
      rw [BitVec.lt_def,count]
      exact Nat.lt_of_le_of_lt (Nat.mod_le _ _) early
    rw [ticks_snoc] at early
    obtain ⟨before,current⟩ := ih (by omega)
    exact (step_resting before current below user).2

theorem sleep_enter (sym : Symbols) (s : State) (n : Word) :
    (enter sym s (.sleepTicks n)).status s.currentTask = .sleeping ∧
      (enter sym s (.sleepTicks n)).wakeTick s.currentTask = s.tickCount + n :=
  ⟨status_enter.trans (if_pos rfl),State.wakeTick_setTask.trans (if_pos rfl)⟩

theorem sleepsLong_of_noWrap {seconds : Word} (user : s.currentTask ≠ 0)
    (noWrap : s.tickCount.toNat + 100 * seconds.toNat < 2^32) : SleepsLong sym s seconds := by
  intro past t op run first dispatched
  by_contra short
  have wake : (s.tickCount + seconds * 100).toNat = s.tickCount.toNat + 100 * seconds.toNat := by
    rw [BitVec.toNat_add,BitVec.toNat_mul]
    simp
    omega
  have asleep : Resting (s.tickCount + seconds * 100) (enter sym s (.sleepTicks (seconds * 100)))
      s.currentTask := .inl (sleep_enter sym s (seconds * 100))
  have calls : Calls s (.sleepTicks (seconds * 100)) := trivial
  have sameTick : (enter sym s (.sleepTicks (seconds * 100))).tickCount = s.tickCount :=
    tickCount_enter
  have early : (enter sym s (.sleepTicks (seconds * 100))).tickCount < s.tickCount + seconds * 100 := by
    rw [sameTick,BitVec.lt_def,wake]
    omega
  have atOnce := schedule_resting sym asleep early user
  rw [← step_of_calls calls] at atOnce
  cases past with
  | nil =>
    obtain ⟨rfl,rfl⟩ := Prod.mk.inj (Option.some.inj first)
    exact atOnce.1 dispatched
  | cons entry past =>
    obtain rfl := Option.some.inj first
    obtain ⟨-,next,rfl,rest⟩ := Run.split (show Run _ s ([] ++ _) t from run)
    have start : (step sym s (.sleepTicks (seconds * 100))).1.tickCount = s.tickCount :=
      step_tickCount.trans sameTick
    rw [List.cons_append,ticks_sleep] at short
    have last := run_tickCount (rest.snoc (rfl : Step sym t op _))
    rw [start,step_tickCount] at last
    rw [ticks_snoc] at short
    have before : (step sym s (.sleepTicks (seconds * 100))).1.tickCount.toNat + ticks past <
        (s.tickCount + seconds * 100).toNat := by
      rw [start,wake]
      omega
    obtain ⟨resting,current⟩ := run_resting rest atOnce.2.1 atOnce.2.2 user before
    refine (step_resting resting current ?_ user).1 dispatched
    rw [BitVec.lt_def,last,wake,ticks_snoc]
    omega

/-! An early dispatch when the wake time wraps. -/

/-- Ready, or asleep with wake time `w`. -/
def Waking (w : Word) (s : State) (x : Fin 16) : Prop :=
  s.status x = .ready ∨ s.status x = .sleeping ∧ s.wakeTick x = w

/-- Some run dispatches `x` after at most `n` ticks. -/
def CanDispatch (sym : Symbols) (x : Fin 16) (n : Nat) (s : State) : Prop :=
  ∃ past t op, Run (Step sym) s past t ∧ (step sym t op).2 = some x ∧ ticks (past ++ [(t,op)]) ≤ n

theorem canDispatch_cons {n : Nat} (op : Op) (later : CanDispatch sym x n (step sym s op).1) :
    CanDispatch sym x (n + if op.isTimer then 1 else 0) s := by
  obtain ⟨past,t,last,run,dispatched,count⟩ := later
  refine ⟨(s,op) :: past,t,last,Run.cons rfl run,dispatched,?_⟩
  simp only [ticks,List.cons_append,List.countP_cons] at count ⊢
  omega

theorem canDispatch_ready (m : Nat) (near : gap s.currentTask x ≤ m) (ready : s.status x = .ready) :
    CanDispatch sym x 0 s := by
  induction m generalizing s with
  | zero =>
    have : 0 < gap s.currentTask x := gap_pos
    omega
  | succ m ih =>
    obtain ⟨next,picked,current,rfl | ⟨nearer,still⟩⟩ := schedule_runnable sym (.inl ready)
    · exact ⟨[],s,.yield,.nil,picked,Nat.le_refl 0⟩
    · refine canDispatch_cons .yield (ih ?_ still)
      change gap (taskSchedule sym s).1.currentTask x ≤ m
      rw [current]
      omega

theorem canDispatch_runnable (runnable : Runnable s x) : CanDispatch sym x 0 s := by
  obtain ⟨next,picked,-,rfl | ⟨-,ready⟩⟩ := schedule_runnable sym runnable
  · exact ⟨[],s,.yield,.nil,picked,Nat.le_refl 0⟩
  · exact canDispatch_cons .yield (canDispatch_ready _ (Nat.le_refl _) ready)

theorem schedule_waking (sym : Symbols) (waking : Waking w s x) :
    (taskSchedule sym s).2 = some x ∨ Waking w (taskSchedule sym s).1 x := by
  rcases schedule_cases sym s with ⟨-,stayed⟩ | ⟨next,picked,switched⟩
  · right
    rwa [Waking,stayed.status,stayed.wakeTick]
  · by_cases here : x = next
    · left
      rw [picked,here]
    · right
      rw [Waking,switched.status,switched.wakeTick,if_neg here]
      split_ifs
      · exact .inl rfl
      · exact waking

theorem canDispatch_mono {m n : Nat} (le : m ≤ n) (can : CanDispatch sym x m s) :
    CanDispatch sym x n s := by
  obtain ⟨past,t,op,run,dispatched,count⟩ := can
  exact ⟨past,t,op,run,dispatched,Nat.le_trans count le⟩

theorem canDispatch_due (waking : Waking w s x) (due : w.toNat ≤ s.tickCount.toNat) :
    CanDispatch sym x 0 s := by
  refine canDispatch_runnable (waking.imp_right fun ⟨sleeping,wake⟩ => ⟨sleeping,?_⟩)
  rw [ge_iff_le,BitVec.le_def,wake]
  exact due

/-- First the missing ticks, then turns. -/
theorem canDispatch_waking (d : Nat) (waking : Waking w s x)
    (enough : w.toNat ≤ s.tickCount.toNat + d) : CanDispatch sym x d s := by
  induction d generalizing s with
  | zero => exact canDispatch_due waking enough
  | succ d ih =>
    by_cases due : w.toNat ≤ s.tickCount.toNat
    · exact canDispatch_mono (Nat.zero_le _) (canDispatch_due waking due)
    have later (waking : Waking w (step sym s .timer).1 x) : CanDispatch sym x (d + 1) s := by
      refine canDispatch_cons .timer (ih waking ?_)
      have high := w.isLt
      have one : (1 : Word).toNat = 1 := rfl
      rw [step_tickCount,tickCount_enter]
      simp only [Op.isTimer,if_true,BitVec.toNat_add]
      omega
    have entered : Waking w (enter sym s .timer) x := waking
    by_cases calls : Calls s .timer
    · rw [step_of_calls calls] at later
      rcases schedule_waking sym entered with picked | waking
      · refine ⟨[],s,.timer,.nil,?_,?_⟩
        · rwa [step_of_calls calls]
        · simp [ticks,Op.isTimer]
      · exact later waking
    · apply later
      rw [step_of_quiet calls]
      exact entered

theorem noWrap_of_sleepsLong {seconds : Word} (long : SleepsLong sym s seconds) :
    s.tickCount.toNat + 100 * seconds.toNat < 2^32 := by
  by_contra wraps
  have low := s.tickCount.isLt
  have wake : (s.tickCount + seconds * 100).toNat =
      (s.tickCount.toNat + 100 * seconds.toNat) % 2^32 := by
    rw [BitVec.toNat_add,BitVec.toNat_mul]
    simp
    omega
  have entered := sleep_enter sym s (seconds * 100)
  have waking : Waking (s.tickCount + seconds * 100) (enter sym s (.sleepTicks (seconds * 100)))
      s.currentTask := .inr entered
  have calls : Calls s (.sleepTicks (seconds * 100)) := trivial
  have sameTick : (step sym s (.sleepTicks (seconds * 100))).1.tickCount = s.tickCount :=
    step_tickCount.trans tickCount_enter
  have after := schedule_waking sym waking
  rw [← step_of_calls calls] at after
  rcases after with atOnce | waking
  · have late := long [] s _ .nil rfl atOnce
    simp [ticks,Op.isTimer] at late
    omega
  · have can : CanDispatch sym s.currentTask
        ((s.tickCount + seconds * 100).toNat - s.tickCount.toNat)
        (step sym s (.sleepTicks (seconds * 100))).1 := by
      apply canDispatch_waking _ waking
      rw [sameTick]
      omega
    obtain ⟨past,t,op,run,dispatched,count⟩ := can
    have late := long ((s,.sleepTicks (seconds * 100)) :: past) t op (Run.cons rfl run) rfl dispatched
    rw [List.cons_append,ticks_sleep] at late
    omega

/-- A sleep lasts long enough exactly when its wake time does not wrap. -/
theorem sleepsLong_iff (sym : Symbols) (s : State) (seconds : Word) (user : s.currentTask ≠ 0) :
    SleepsLong sym s seconds ↔ s.tickCount.toNat + 100 * seconds.toNat < 2^32 :=
  ⟨noWrap_of_sleepsLong,sleepsLong_of_noWrap user⟩

/-- Slot 1 has just been switched to for the first time. -/
def freshTask : State :=
  [Op.create kernelName 0,.yield].foldl (fun s op => (step default s op).1) (taskInit default)

theorem sleepsLong_freshTask : SleepsLong default freshTask 5 :=
  (sleepsLong_iff default freshTask 5 (by decide +kernel)).mpr (by decide +kernel)

/-- 42949673 seconds are four ticks. -/
theorem long_sleep_short : ¬∀ (sym : Symbols) (s : State) (seconds : Word),
    s.currentTask ≠ 0 → SleepsLong sym s seconds := by
  intro claim
  have long := claim default freshTask 42949673 (by decide +kernel)
  exact absurd (noWrap_of_sleepsLong long) (by decide +kernel)

end

end NimrodOS.Tasks
