import Mathlib.Data.List.Induction

/-! Finite runs of a labelled transition relation. A run keeps every label with the
state it was taken in, so a statement about all steps of a run is a statement about
the members of one list. -/
namespace Transition

variable {σ α : Type}

inductive Run (step : σ → α → σ → Prop) (start : σ) : List (σ × α) → σ → Prop where
  | nil : Run step start [] start
  | snoc {past : List (σ × α)} {state next : σ} {label : α} :
      Run step start past state → step state label next →
      Run step start (past ++ [(state,label)]) next

variable {step : σ → α → σ → Prop} {start middle last : σ} {past future : List (σ × α)}

theorem Run.single {label : α} (moved : step start label last) :
    Run step start [(start,label)] last := by
  simpa using Run.nil.snoc moved

theorem Run.trans (first : Run step start past middle) (second : Run step middle future last) :
    Run step start (past ++ future) last := by
  induction second with
  | nil => simpa using first
  | snoc _ moved ih => simpa using ih.snoc moved

theorem Run.cons {label : α} (moved : step start label middle)
    (rest : Run step middle future last) : Run step start ((start,label) :: future) last :=
  (Run.single moved).trans rest

/-- A recorded step splits the run into what led to it and what followed it. -/
theorem Run.split {state : σ} {label : α}
    (run : Run step start (past ++ (state,label) :: future) last) :
    Run step start past state ∧ ∃ next, step state label next ∧ Run step next future last := by
  generalize whole : past ++ (state,label) :: future = steps at run
  induction run generalizing future with
  | nil => simp at whole
  | @snoc before other next taken prior moved ih =>
    rcases List.eq_nil_or_concat future with rfl | ⟨inner,final,rfl⟩
    · obtain ⟨rfl,same⟩ := List.append_inj' whole rfl
      simp only [List.cons.injEq,Prod.mk.injEq,and_true] at same
      obtain ⟨rfl,rfl⟩ := same
      exact ⟨prior,next,moved,.nil⟩
    · rw [List.concat_eq_append,← List.cons_append,← List.append_assoc] at whole
      obtain ⟨init,same⟩ := List.append_inj' whole rfl
      obtain rfl : final = (other,taken) := by simpa using same
      obtain ⟨lead,between,taken,rest⟩ := ih init
      exact ⟨lead,between,taken,by simpa using rest.snoc moved⟩

/-- The same run by another relation that has its steps. -/
theorem Run.mono {spec : σ → α → σ → Prop} (run : Run step start past last)
    (has : ∀ s a t, (s,a) ∈ past → step s a t → spec s a t) : Run spec start past last := by
  induction run with
  | nil => exact .nil
  | snoc _ moved ih =>
    refine (ih fun s a t member => has s a t (List.mem_append_left _ member)).snoc ?_
    exact has _ _ _ (by simp) moved

/-- A run begins in its first recorded state, or in the last state when it is empty. -/
theorem Run.start_mem (run : Run step start past last) : start ∈ past.map Prod.fst ++ [last] := by
  induction run with
  | nil => simp
  | snoc _ _ ih =>
    rw [List.map_append]
    exact List.mem_append_left _ ih

section Invariants

variable {inv : σ → Prop}

theorem Run.invariant (run : Run step start past last) (initial : inv start)
    (kept : ∀ s a t, inv s → step s a t → inv t) : inv last := by
  induction run with
  | nil => exact initial
  | snoc _ moved ih => exact kept _ _ _ ih moved

/-- Where the invariant lets every step be taken, any sequence of labels is a run. -/
theorem Run.total (initial : inv start) (advance : ∀ s a, inv s → ∃ t, step s a t ∧ inv t)
    (labels : List α) :
    ∃ past last, past.map Prod.snd = labels ∧ Run step start past last ∧ inv last := by
  induction labels using List.reverseRecOn with
  | nil => exact ⟨[],start,rfl,.nil,initial⟩
  | append_singleton labels a ih =>
    obtain ⟨past,last,rfl,run,reached⟩ := ih
    obtain ⟨next,moved,reached'⟩ := advance last a reached
    exact ⟨_,next,by simp,run.snoc moved,reached'⟩

variable {good cond : σ → α → Prop}

/-- An invariant that only steps meeting `cond` keep. -/
theorem Run.invariant_under (run : Run step start past last) (initial : inv start)
    (kept : ∀ s a t, inv s → cond s a → step s a t → inv t)
    (met : ∀ entry ∈ past, cond entry.1 entry.2) : inv last := by
  induction run with
  | nil => exact initial
  | @snoc _ state _ label _ moved ih =>
    have before := ih fun entry member => met entry (List.mem_append_left _ member)
    exact kept _ _ _ before (met (state,label) (by simp)) moved

/-- So every state of the run satisfies it. -/
theorem Run.invariant_throughout (run : Run step start past last) (initial : inv start)
    (kept : ∀ s a t, inv s → cond s a → step s a t → inv t)
    (met : ∀ entry ∈ past, cond entry.1 entry.2) : ∀ t ∈ past.map Prod.fst ++ [last], inv t := by
  induction run with
  | nil => simpa using initial
  | @snoc past state _ label prior moved ih =>
    have before := fun entry member => met entry (List.mem_append_left _ member)
    have states := ih before
    have here := states state (by simp)
    have after := kept _ _ _ here (met (state,label) (by simp)) moved
    simp only [List.forall_mem_append,List.map_append,List.map_cons,List.map_nil,
      List.forall_mem_singleton] at states ⊢
    exact ⟨states,after⟩

/-- The rule for an exact condition: where the invariant holds, a step is good just
when it meets the condition, and steps that meet it keep the invariant. -/
theorem Run.exact (run : Run step start past last) (initial : inv start)
    (kept : ∀ s a t, inv s → cond s a → step s a t → inv t)
    (agree : ∀ s a, inv s → (good s a ↔ cond s a)) :
    (∀ entry ∈ past, good entry.1 entry.2) ↔ ∀ entry ∈ past, cond entry.1 entry.2 := by
  induction run with
  | nil => simp
  | @snoc before state _ label prior _ ih =>
    simp only [List.forall_mem_append,List.forall_mem_singleton,ih]
    refine and_congr_right fun met => agree _ _ ?_
    exact prior.invariant_under initial kept met

/-- The same for a property of states: where the invariant holds, a step from a good
state leads to a good state just when it meets the condition. The invariant has to last
over steps that meet it only. -/
theorem Run.exact_states_under {good : σ → Prop} (run : Run step start past last)
    (initial : inv start) (first : good start)
    (kept : ∀ s a t, inv s → cond s a → step s a t → inv t)
    (agree : ∀ s a t, inv s → good s → step s a t → (good t ↔ cond s a)) :
    (∀ t ∈ past.map Prod.fst ++ [last], good t) ↔ ∀ entry ∈ past, cond entry.1 entry.2 := by
  induction run with
  | nil => simpa using first
  | @snoc before state next label prior moved ih =>
    simp only [List.map_append,List.map_cons,List.map_nil,List.forall_mem_append,
      List.forall_mem_singleton] at ih ⊢
    rw [← ih]
    apply and_congr_right
    intro states
    exact agree _ _ _ (prior.invariant_under initial kept (ih.mp states)) states.2 moved

/-- The invariant may last over all steps. -/
theorem Run.exact_states {good : σ → Prop} (run : Run step start past last) (initial : inv start)
    (first : good start) (kept : ∀ s a t, inv s → step s a t → inv t)
    (agree : ∀ s a t, inv s → good s → step s a t → (good t ↔ cond s a)) :
    (∀ t ∈ past.map Prod.fst ++ [last], good t) ↔ ∀ entry ∈ past, cond entry.1 entry.2 :=
  run.exact_states_under initial first (fun s a t before _ => kept s a t before) agree

/-- What comes in and has not gone out again is what the state holds. -/
theorem Run.balance {held : σ → Nat} {comes goes : σ × α → Bool} (run : Run step start past last)
    (initial : inv start) (kept : ∀ s a t, inv s → step s a t → inv t)
    (pays : ∀ s a t, inv s → step s a t →
      held t + (goes (s,a)).toNat = held s + (comes (s,a)).toNat) :
    held last + past.countP goes = held start + past.countP comes := by
  induction run with
  | nil => rfl
  | @snoc past state next label prior moved ih =>
    have paid := pays state label next (prior.invariant initial kept) moved
    have count (p : σ × α → Bool) : [(state,label)].countP p = (p (state,label)).toNat := by
      cases held : p (state,label) <;> simp [held]
    rw [List.countP_append,List.countP_append,count,count]
    omega

/-- The rule for a budget: when every step pays what it costs, the whole run does. -/
theorem Run.spends {budget : σ → Nat} {costs : σ × α → Bool} (run : Run step start past last)
    (initial : inv start)
    (pays : ∀ s a t, inv s → cond s a → step s a t → inv t ∧ (costs (s,a)).toNat + budget t ≤ budget s)
    (met : ∀ entry ∈ past, cond entry.1 entry.2) : past.countP costs + budget last ≤ budget start := by
  induction run with
  | nil => exact Nat.le_of_eq (Nat.zero_add _)
  | @snoc past state next label prior moved ih =>
    rw [List.forall_mem_append,List.forall_mem_singleton] at met
    have here := prior.invariant_under initial (fun s a t before met moved => (pays s a t before met moved).1) met.1
    have paid := (pays state label next here met.2 moved).2
    have earlier := ih met.1
    have count : [(state,label)].countP costs = (costs (state,label)).toNat := by
      cases costly : costs (state,label) <;> simp [costly]
    rw [List.countP_append,count]
    omega

end Invariants

/-! Two systems with the same labels, driven by inputs. -/

section Simulation

variable {τ ι : Type} {spec : τ → α → τ → Prop} {origin : τ} {related : σ → τ → Prop}
  {input : α → ι} {permitted : ι → Prop}

/-- When related states can take every permitted input with one label, both systems take
any sequence of permitted inputs, with the same labels throughout. -/
theorem simulation (initial : related start origin)
    (advance : ∀ s m i, related s m → permitted i → ∃ a t m', input a = i ∧ step s a t ∧
      spec m a m' ∧ related t m')
    (inputs : List ι) (allowed : ∀ i ∈ inputs, permitted i) :
    ∃ past last past' last', past.map (fun entry => input entry.2) = inputs ∧
      Run step start past last ∧ Run spec origin past' last' ∧
      past'.map Prod.snd = past.map Prod.snd ∧ related last last' := by
  induction inputs using List.reverseRecOn with
  | nil => exact ⟨[],start,[],origin,rfl,.nil,.nil,rfl,initial⟩
  | append_singleton inputs i ih =>
    rw [List.forall_mem_append,List.forall_mem_singleton] at allowed
    obtain ⟨past,last,past',last',taken,run,run',labels,together⟩ := ih allowed.1
    obtain ⟨a,t,m',rfl,moved,moved',together'⟩ := advance last last' i together allowed.2
    refine ⟨_,t,_,m',?_,run.snoc moved,run'.snoc moved',?_,together'⟩
    · simp [taken]
    · simp [labels]

end Simulation

/-! Deterministic systems, where the labels alone fix the run. -/

section Deterministic

variable (next : σ → α → σ)

def trace (start : σ) : List α → List (σ × α)
  | [] => []
  | label :: labels => (start,label) :: trace (next start label) labels

theorem run_trace (start : σ) (labels : List α) : Run (fun s a t => next s a = t) start
    (trace next start labels) (labels.foldl next start) := by
  induction labels generalizing start with
  | nil => exact .nil
  | cons label labels ih => exact Run.cons rfl (ih (next start label))

theorem trace_mem {next : σ → α → σ} {labels : List α} {entry : σ × α} (member : entry ∈ trace next start labels) :
    entry.2 ∈ labels := by
  induction labels generalizing start with
  | nil => cases member
  | cons label labels ih =>
    rcases List.mem_cons.mp member with rfl | later
    · exact List.mem_cons_self
    · exact List.mem_cons_of_mem _ (ih later)

/-- The same where a step may fail. -/
theorem run_foldlM {ε : Type} {next : σ → α → Except ε σ} {labels : List α} {start last : σ}
    (done : labels.foldlM next start = .ok last) :
    ∃ past, past.map Prod.snd = labels ∧ Run (fun s a t => next s a = .ok t) start past last := by
  induction labels generalizing start with
  | nil =>
    obtain rfl := Except.ok.inj done
    exact ⟨[],rfl,.nil⟩
  | cons label labels ih =>
    rw [List.foldlM_cons] at done
    cases moved : next start label with
    | error e =>
      rw [moved] at done
      cases done
    | ok middle =>
      rw [moved] at done
      obtain ⟨past,rfl,run⟩ := ih done
      exact ⟨_,rfl,Run.cons moved run⟩

end Deterministic

end Transition
