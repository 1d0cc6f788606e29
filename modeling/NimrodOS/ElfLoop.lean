import NimrodOS.ElfSegments

/-! How the loop over the program headers ends, and all that it does on its way. The file
lies below program memory, so no segment that is placed changes it. -/
namespace NimrodOS.Elf

open ByteMemory Wire Logged

/-- The memory that header `i` finds when all headers before it pass. -/
def before (m : Memory) (buf : Word) : Nat → Memory
  | 0 => m
  | i + 1 => afterHeader (before m buf i) buf (phdrAddr m buf i)

def PassesAt (m : Memory) (buf : Word) (i : Nat) : Prop :=
  Passes (before m buf i) buf (phdrAddr m buf i)

def StopsAt (m : Memory) (buf : Word) (i : Nat) : Prop :=
  Stops (before m buf i) (phdrAddr m buf i)

/-- The loop comes to header `i`. -/
structure Reaches (m : Memory) (buf : Word) (i : Nat) : Prop where
  listed : i < (ePhnum (pointee m buf)).toNat
  earlier : ∀ j < i, PassesAt m buf j

theorem reaches_first {m : Memory} {buf : Word} (listed : 0 < (ePhnum (pointee m buf)).toNat) :
    Reaches m buf 0 := ⟨listed,fun j below => absurd below (Nat.not_lt_zero j)⟩

inductive LoopEnds (m : Memory) (buf : Word) : Except Halt Progress → Prop where
  | loaded (all : ∀ j < (ePhnum (pointee m buf)).toNat, PassesAt m buf j) :
      LoopEnds m buf (.ok (.loaded (before m buf (ePhnum (pointee m buf)).toNat)))
  | overlaps {j : Nat} (reached : Reaches m buf j) (stops : StopsAt m buf j) :
      LoopEnds m buf (.ok (.overlaps (before m buf j)))
  | halts {j : Nat} (reached : Reaches m buf j) (passes : ¬PassesAt m buf j)
      (stops : ¬StopsAt m buf j) (e : Halt) : LoopEnds m buf (.error e)

section Frame

variable {m m' : Memory} {buf phdr a : Word} {i k n : Nat}

theorem copyBytes_program {dest src : Word} (inside : InProgram dest n) :
    AgreeOutside m (copyBytes n m dest src) programStart ramEnd := by
  rcases inside with rfl | ⟨low,high⟩
  · exact AgreeOutside.refl m
  · have noWrap : dest.toNat + n ≤ 2^32 := Nat.le_trans high (by simp [ramEnd])
    exact (copyBytes_outside noWrap).mono low high

theorem fillBytes_program {dest : Word} {v : Byte} (inside : InProgram dest n) :
    AgreeOutside m (fillBytes v n m dest) programStart ramEnd := by
  rcases inside with rfl | ⟨low,high⟩
  · exact AgreeOutside.refl m
  · have noWrap : dest.toNat + n ≤ 2^32 := Nat.le_trans high (by simp [ramEnd])
    exact (fillBytes_outside v noWrap).mono low high

theorem passes_keep (passes : Passes m buf phdr) :
    AgreeOutside m (afterHeader m buf phdr) programStart ramEnd := by
  rcases passes with skips | ⟨comes,copy,fill⟩
  · simp only [afterHeader,if_neg skips.2]
    exact AgreeOutside.refl m
  · simp only [afterHeader,if_pos comes.1.2]
    apply (copyBytes_program copy.dest).trans
    unfold filled
    split
    · rename_i larger
      exact fillBytes_program (fill.dest larger)
    · exact AgreeOutside.refl _

theorem before_keep (earlier : ∀ j < i, PassesAt m buf j) :
    AgreeOutside m (before m buf i) programStart ramEnd := by
  induction i with
  | zero => exact AgreeOutside.refl m
  | succ i ih =>
    apply (ih fun j below => earlier j (by omega)).trans
    exact passes_keep (earlier i (Nat.lt_succ_self i))

theorem pointee_keep (same : AgreeOutside m m' programStart ramEnd)
    (small : a.toNat + k < programStart) : pointee m' a k = pointee m a k := by
  apply (same _ _).symm
  left
  have low : programStart < 2^32 := by simp [programStart]
  rwa [offset_toNat (by omega)]

theorem header_keep (same : AgreeOutside m m' programStart ramEnd)
    (small : buf.toNat + 52 ≤ programStart) :
    ePhnum (pointee m' buf) = ePhnum (pointee m buf) ∧
      ePhoff (pointee m' buf) = ePhoff (pointee m buf) ∧
      ePhentsize (pointee m' buf) = ePhentsize (pointee m buf) ∧
      eEntry (pointee m' buf) = eEntry (pointee m buf) := by
  have kept (k : Nat) (inside : k < 52) : pointee m' buf k = pointee m buf k :=
    pointee_keep same (by omega)
  simp only [ePhnum,ePhoff,ePhentsize,eEntry,load16,Wire.load32,kept,Nat.reduceAdd,Nat.reduceLT,
    and_self]

theorem phdrOffset_keep (same : AgreeOutside m m' programStart ramEnd)
    (small : buf.toNat + 52 ≤ programStart) :
    phdrOffset (pointee m' buf) i = phdrOffset (pointee m buf) i := by
  obtain ⟨-,phoff,phentsize,-⟩ := header_keep same small
  simp only [phdrOffset,phoff,phentsize]

theorem phdrAddr_keep (same : AgreeOutside m m' programStart ramEnd)
    (small : buf.toNat + 52 ≤ programStart) : phdrAddr m' buf i = phdrAddr m buf i := by
  obtain ⟨-,phoff,phentsize,-⟩ := header_keep same small
  simp only [phdrAddr,phoff,phentsize]

end Frame

section Loop

variable {m : Memory} {buf : Word} {i j rounds : Nat} {p : Access → Prop}

theorem PassesAt.not_stopsAt (passes : PassesAt m buf i) : ¬StopsAt m buf i :=
  not_stops_of_passes passes

theorem phnum_bound (f : Nat → Byte) : (ePhnum f).toNat < 65536 := (ePhnum f).isLt

theorem passes_through (earlier : ∀ j < i, PassesAt m buf j) (passes : PassesAt m buf i) :
    ∀ j < i + 1, PassesAt m buf j := by
  intro j below
  rcases Nat.lt_succ_iff_lt_or_eq.mp below with less | rfl
  · exact earlier j less
  · exact passes

/-- No header is reached after one that does not pass. -/
theorem Reaches.last (reached : Reaches m buf j) (after : i ≤ j) (ends : ¬PassesAt m buf i) : j = i := by
  rcases Nat.eq_or_lt_of_le after with same | beyond
  · exact same.symm
  · exact absurd (reached.earlier i beyond) ends

/-- Only one header ends the loop. -/
theorem Reaches.last_unique (here : Reaches m buf i) (ends : ¬PassesAt m buf i)
    (there : Reaches m buf j) (ends' : ¬PassesAt m buf j) : i = j := by
  rcases Nat.le_total i j with less | more
  · exact (there.last less ends).symm
  · exact here.last more ends'

/-- What a round at header `i` gives. -/
theorem round_result (small : buf.toNat + 52 ≤ programStart) (earlier : ∀ j < i, PassesAt m buf j) :
    (PassesAt m buf i → (loadSegment (before m buf i) buf i).result =
        .ok (.loaded (before m buf (i + 1)))) ∧
      (StopsAt m buf i → (loadSegment (before m buf i) buf i).result =
        .ok (.overlaps (before m buf i))) ∧
      (¬PassesAt m buf i → ¬StopsAt m buf i →
        ∃ e, (loadSegment (before m buf i) buf i).result = .error e) := by
  have addr := phdrAddr_keep (i := i) (before_keep earlier) small
  refine ⟨fun passes => ?_,fun stops => ?_,fun passes stops => ?_⟩
  · simp only [before,← addr]
    exact loadSegment_passes (by rwa [addr])
  · rw [loadSegment_stops (by rwa [addr])]
  · apply loadSegment_error
    · rwa [addr]
    · rwa [addr]

/-- A round that does not pass never goes on to the next header. -/
theorem round_ends (small : buf.toNat + 52 ≤ programStart) (earlier : ∀ j < i, PassesAt m buf j)
    (ends : ¬PassesAt m buf i) {r : Progress}
    (ended : (loadSegment (before m buf i) buf i).result = .ok r) : ∃ m', r = .overlaps m' := by
  obtain ⟨-,stopping,failing⟩ := round_result small earlier
  by_cases stops : StopsAt m buf i
  · exact ⟨_,Except.ok.inj (ended.symm.trans (stopping stops))⟩
  · obtain ⟨e,failed⟩ := failing ends stops
    cases failed.symm.trans ended

theorem all_round (small : buf.toNat + 52 ≤ programStart) (earlier : ∀ j < i, PassesAt m buf j) :
    (loadSegment (before m buf i) buf i).All p ↔
      AllAt p (before m buf i) buf (phdrAddr m buf i) (phdrOffset (pointee m buf) i) := by
  rw [all_loadSegment,phdrAddr_keep (before_keep earlier) small,
    phdrOffset_keep (before_keep earlier) small]

theorem segmentsLoop_listed (small : buf.toNat + 52 ≤ programStart)
    (earlier : ∀ j < i, PassesAt m buf j) (listed : i < (ePhnum (pointee m buf)).toNat) :
    segmentsLoop buf (rounds + 1) i (before m buf i) =
      loadSegment (before m buf i) buf i >>= fun
        | .overlaps m => pure (.overlaps m)
        | .loaded m => segmentsLoop buf rounds (i + 1) m := by
  obtain ⟨phnum,-⟩ := header_keep (before_keep earlier) small
  exact if_pos (phnum.symm ▸ listed)

theorem segmentsLoop_unlisted (small : buf.toNat + 52 ≤ programStart)
    (earlier : ∀ j < i, PassesAt m buf j) (unlisted : ¬i < (ePhnum (pointee m buf)).toNat) :
    segmentsLoop buf rounds i (before m buf i) = pure (.loaded (before m buf i)) := by
  obtain ⟨phnum,-⟩ := header_keep (before_keep earlier) small
  cases rounds with
  | zero => rfl
  | succ rounds => exact if_neg (phnum.symm ▸ unlisted)

theorem segmentsLoop_ends (small : buf.toNat + 52 ≤ programStart) (count : rounds + i = 65535)
    (earlier : ∀ j < i, PassesAt m buf j) (due : i ≤ (ePhnum (pointee m buf)).toNat) :
    LoopEnds m buf (segmentsLoop buf rounds i (before m buf i)).result := by
  have most := phnum_bound (pointee m buf)
  induction rounds generalizing i with
  | zero =>
    obtain rfl : i = (ePhnum (pointee m buf)).toNat := by omega
    exact .loaded earlier
  | succ rounds ih =>
    by_cases listed : i < (ePhnum (pointee m buf)).toNat
    · obtain ⟨passing,stopping,failing⟩ := round_result small earlier
      rw [segmentsLoop_listed small earlier listed]
      by_cases passes : PassesAt m buf i
      · rw [bind_of_ok (passing passes)]
        exact ih (by omega) (passes_through earlier passes) listed
      by_cases stops : StopsAt m buf i
      · rw [bind_of_ok (stopping stops)]
        exact .overlaps ⟨listed,earlier⟩ stops
      · obtain ⟨e,failed⟩ := failing passes stops
        rw [bind_of_error failed]
        exact .halts ⟨listed,earlier⟩ passes stops e
    · obtain rfl : i = (ePhnum (pointee m buf)).toNat := by omega
      rw [segmentsLoop_unlisted small earlier listed]
      exact .loaded earlier

/-- Whatever holds of all that the loop does holds at every header that it comes to. -/
theorem all_segmentsLoop (small : buf.toNat + 52 ≤ programStart) (count : rounds + i = 65535)
    (earlier : ∀ j < i, PassesAt m buf j) :
    (segmentsLoop buf rounds i (before m buf i)).All p ↔ ∀ j, i ≤ j → Reaches m buf j →
      AllAt p (before m buf j) buf (phdrAddr m buf j) (phdrOffset (pointee m buf) j) := by
  have most := phnum_bound (pointee m buf)
  induction rounds generalizing i with
  | zero =>
    refine iff_of_true (all_pure _) fun j after reached => ?_
    have listed := reached.listed
    omega
  | succ rounds ih =>
    by_cases listed : i < (ePhnum (pointee m buf)).toNat
    · have here : Reaches m buf i := ⟨listed,earlier⟩
      rw [segmentsLoop_listed small earlier listed,all_bind,all_round small earlier]
      by_cases passes : PassesAt m buf i
      · have passing := (round_result small earlier).1 passes
        simp only [passing,Except.ok.injEq,forall_eq',ih (by omega) (passes_through earlier passes)]
        constructor
        · rintro ⟨first,rest⟩ j after reached
          rcases Nat.eq_or_lt_of_le after with rfl | beyond
          · exact first
          · exact rest j beyond reached
        · intro all
          exact ⟨all i (Nat.le_refl i) here,fun j after => all j (Nat.le_of_succ_le after)⟩
      · constructor
        · rintro ⟨first,-⟩ j after reached
          obtain rfl := reached.last after passes
          exact first
        · intro all
          refine ⟨all i (Nat.le_refl i) here,fun r ended => ?_⟩
          obtain ⟨m',rfl⟩ := round_ends small earlier passes ended
          exact all_pure _
    · rw [segmentsLoop_unlisted small earlier listed]
      refine iff_of_true (all_pure _) fun j after reached => ?_
      have within := reached.listed
      omega

end Loop

end NimrodOS.Elf
