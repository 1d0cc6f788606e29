import NimrodOS.Lib.FirstFit

/-! What the used blocks say about the free ones. Where free neighbours are merged, the
positions of the used blocks fix all the others: each free block is a gap between them,
and an allocation takes the first gap that is large enough. -/
namespace FirstFit

variable {hdr slack n start x i j : Nat} {b c : Block} {bs cs front back : List Block}

/-! The used blocks fix the list. -/

theorem Separated.used_behind (apart : Separated (b :: c :: bs)) (free : b.free = true) :
    c.free = false := by
  have first := (List.isChain_cons_cons.mp apart).1
  simpa [free] using first

theorem used_of_free (free : b.free = true) : used hdr start (b :: bs) = used hdr (b.stop hdr start) bs := by
  simp [used,free]

theorem used_of_used (taken : b.free = false) :
    used hdr start (b :: bs) = (start + hdr,b.size) :: used hdr (b.stop hdr start) bs := by
  simp [used,taken]

/-- A used block at the head is the first payload, which no list behind it has. -/
theorem used_ne_of_head (positive : 0 < hdr) (taken : b.free = false) (free : c.free = true) :
    used hdr start (b :: bs) ≠ used hdr start (c :: cs) := by
  intro same
  rw [used_of_used taken,used_of_free free] at same
  have member : (start + hdr,b.size) ∈ used hdr (c.stop hdr start) cs := same ▸ List.mem_cons_self
  have above := (used_above positive member).1
  simp only [Block.stop] at above
  omega

/-- A free block ends where the next used one begins, or where the list ends. -/
theorem size_of_used (left : Separated (b :: bs)) (right : Separated (c :: cs)) (bFree : b.free = true)
    (cFree : c.free = true) (same : used hdr start (b :: bs) = used hdr start (c :: cs))
    (spans : span hdr (b :: bs) = span hdr (c :: cs)) : b.size = c.size := by
  rw [used_of_free bFree,used_of_free cFree] at same
  cases bs with
  | nil =>
    cases cs with
    | nil => simpa [span] using spans
    | cons e es =>
      rw [used_of_used (right.used_behind cFree)] at same
      cases same
  | cons d ds =>
    rw [used_of_used (left.used_behind bFree)] at same
    cases cs with
    | nil => cases same
    | cons e es =>
      rw [used_of_used (right.used_behind cFree)] at same
      have heads := congrArg Prod.fst (List.cons.inj same).1
      simp only [Block.stop] at heads
      omega

theorem eq_of_used (positive : 0 < hdr) (left : Separated bs) (right : Separated cs)
    (same : used hdr start bs = used hdr start cs) (spans : span hdr bs = span hdr cs) : bs = cs := by
  induction bs generalizing cs start with
  | nil =>
    cases cs with
    | nil => rfl
    | cons c cs =>
      simp only [span] at spans
      omega
  | cons b bs ih =>
    cases cs with
    | nil =>
      simp only [span] at spans
      omega
    | cons c cs =>
      have head : b = c ∧ used hdr (b.stop hdr start) bs = used hdr (b.stop hdr start) cs := by
        obtain ⟨size,free⟩ := b
        obtain ⟨size',free'⟩ := c
        cases free <;> cases free'
        · obtain ⟨first,rest⟩ := List.cons.inj ((used_of_used rfl).symm.trans (same.trans (used_of_used rfl)))
          obtain rfl : size = size' := congrArg Prod.snd first
          exact ⟨rfl,rest⟩
        · exact absurd same (used_ne_of_head positive rfl rfl)
        · exact absurd same.symm (used_ne_of_head positive rfl rfl)
        · obtain rfl : size = size' := size_of_used left right rfl rfl same spans
          exact ⟨rfl,(used_of_free rfl).symm.trans (same.trans (used_of_free rfl))⟩
      obtain ⟨rfl,rest⟩ := head
      have spans' : span hdr bs = span hdr cs := by
        simp only [span] at spans
        omega
      have tails : bs = cs := ih left.tail right.tail rest spans'
      rw [tails]

theorem Arena.eq_of_used {grain total : Nat} (positive : 0 < hdr) {left right : Arena hdr grain total}
    (same : used hdr start left.blocks = used hdr start right.blocks) : left = right := by
  apply Arena.blocks_injective
  exact FirstFit.eq_of_used positive left.separated right.separated same
    (left.filled.trans right.filled.symm)

/-! Gaps. -/

/-- A longest run of positions of `lo` to `hi` that are not taken. -/
structure Gap (taken : Nat → Prop) (lo hi i j : Nat) : Prop where
  nonempty : i < j
  low : lo ≤ i
  high : j ≤ hi
  clear : ∀ x, i ≤ x → x < j → ¬taken x
  left : i = lo ∨ taken (i - 1)
  right : j = hi ∨ taken j

/-- The position belongs to a used block, header or payload. -/
def Covered (hdr start : Nat) (bs : List Block) (x : Nat) : Prop :=
  ∃ entry ∈ used hdr start bs, entry.1 ≤ x + hdr ∧ x < entry.1 + entry.2

theorem Covered.inside (positive : 0 < hdr) (covered : Covered hdr start bs x) :
    start ≤ x ∧ x < start + span hdr bs := by
  obtain ⟨entry,member,low,high⟩ := covered
  have bounds := used_above positive member
  omega

theorem covered_of_free (free : b.free = true) :
    Covered hdr start (b :: bs) x ↔ Covered hdr (b.stop hdr start) bs x := by
  rw [Covered,used_of_free free]
  rfl

theorem covered_of_used (taken : b.free = false) : Covered hdr start (b :: bs) x ↔
    start ≤ x ∧ x < b.stop hdr start ∨ Covered hdr (b.stop hdr start) bs x := by
  rw [Covered,used_of_used taken,List.exists_mem_cons_iff]
  refine or_congr_left ?_
  simp only [Block.stop]
  omega

theorem covered_append : Covered hdr start (bs ++ cs) x ↔
    Covered hdr start bs x ∨ Covered hdr (start + span hdr bs) cs x := by
  simp only [Covered,used_append,List.mem_append,or_and_right,exists_or]

/-- Behind a used block the gaps are those of the rest. -/
theorem gap_behind_used (positive : 0 < hdr) (taken : b.free = false) :
    Gap (Covered hdr start (b :: bs)) start (start + span hdr (b :: bs)) i j ↔
      Gap (Covered hdr (b.stop hdr start) bs) (b.stop hdr start) (b.stop hdr start + span hdr bs) i j := by
  have ends : start + span hdr (b :: bs) = b.stop hdr start + span hdr bs := by
    simp only [span,Block.stop]
    omega
  have covers {x : Nat} : Covered hdr start (b :: bs) x ↔ _ := covered_of_used (x := x) taken
  have beyond : start < b.stop hdr start := by
    simp only [Block.stop]
    omega
  rw [ends]
  constructor
  · rintro ⟨nonempty,low,high,clear,left,right⟩
    have low' : b.stop hdr start ≤ i := by
      by_contra before
      exact clear i (Nat.le_refl _) nonempty (covers.mpr (.inl ⟨low,by omega⟩))
    refine ⟨nonempty,low',high,fun x above below covered => clear x above below (covers.mpr (.inr covered)),?_,?_⟩
    · rcases left with first | before
      · omega
      · rcases covers.mp before with inside | rest
        · exact .inl (by omega)
        · exact .inr rest
    · refine right.imp_right fun behind => (covers.mp behind).resolve_left ?_
      omega
  · rintro ⟨nonempty,low,high,clear,left,right⟩
    refine ⟨nonempty,by omega,high,fun x above below covered => ?_,?_,right.imp_right fun behind =>
      covers.mpr (.inr behind)⟩
    · rcases covers.mp covered with inside | rest
      · omega
      · exact clear x above below rest
    · refine .inr (covers.mpr ?_)
      rcases left with first | before
      · exact .inl (by omega)
      · exact .inr before

/-- A free block is a gap, and the others are those of the rest. -/
theorem gap_at_free (positive : 0 < hdr) (apart : Separated (b :: bs)) (free : b.free = true) :
    Gap (Covered hdr start (b :: bs)) start (start + span hdr (b :: bs)) i j ↔
      i = start ∧ j = b.stop hdr start ∨
      Gap (Covered hdr (b.stop hdr start) bs) (b.stop hdr start) (b.stop hdr start + span hdr bs) i j := by
  have ends : start + span hdr (b :: bs) = b.stop hdr start + span hdr bs := by
    simp only [span,Block.stop]
    omega
  have covers {x : Nat} : Covered hdr start (b :: bs) x ↔ _ := covered_of_free (x := x) free
  have beyond : start < b.stop hdr start := by
    simp only [Block.stop]
    omega
  -- the list ends behind the block, or a used block follows
  have next : span hdr bs = 0 ∨ Covered hdr (b.stop hdr start) bs (b.stop hdr start) := by
    cases bs with
    | nil => exact .inl rfl
    | cons c bs =>
      refine .inr ((covered_of_used (apart.used_behind free)).mpr (.inl ⟨Nat.le_refl _,?_⟩))
      simp only [Block.stop]
      omega
  rw [ends]
  constructor
  · rintro ⟨nonempty,low,high,clear,left,right⟩
    by_cases here : i < b.stop hdr start
    · left
      have first : i = start := left.resolve_right fun before => by
        have := (covers.mp before).inside positive
        omega
      refine ⟨first,?_⟩
      have whole : ¬b.stop hdr start < j := by
        intro longer
        rcases next with nothing | used
        · omega
        · exact clear _ (by omega) longer (covers.mpr used)
      rcases right with last | behind
      · omega
      · have := (covers.mp behind).inside positive
        omega
    · right
      refine ⟨nonempty,by omega,high,fun x above below covered => clear x above below (covers.mpr covered),?_,
        right.imp_right covers.mp⟩
      exact .inr (covers.mp (left.resolve_left (by omega)))
  · rintro (⟨rfl,rfl⟩ | ⟨nonempty,low,high,clear,left,right⟩)
    · refine ⟨beyond,Nat.le_refl _,Nat.le_add_right _ _,fun x above below covered => ?_,.inl rfl,?_⟩
      · have := (covers.mp covered).inside positive
        omega
      · rcases next with nothing | used
        · exact .inl (by omega)
        · exact .inr (covers.mpr used)
    · refine ⟨nonempty,by omega,high,fun x above below covered => clear x above below (covers.mp covered),?_,
        right.imp_right covers.mpr⟩
      refine .inr (covers.mpr (left.resolve_left ?_))
      rintro rfl
      rcases next with nothing | used
      · omega
      · exact clear _ (Nat.le_refl _) nonempty used

/-- The gaps between the used blocks are the free blocks. -/
theorem gap_iff (positive : 0 < hdr) (apart : Separated bs) :
    Gap (Covered hdr start bs) start (start + span hdr bs) i j ↔
      ∃ b, (i,b) ∈ placed hdr start bs ∧ b.free = true ∧ j = b.stop hdr i := by
  induction bs generalizing start with
  | nil =>
    constructor
    · rintro ⟨nonempty,low,high,-⟩
      simp only [span] at high
      omega
    · rintro ⟨b,member,-⟩
      cases member
  | cons b bs ih =>
    have rest := @ih (b.stop hdr start) apart.tail
    cases free : b.free with
    | false =>
      rw [gap_behind_used positive free,rest]
      constructor
      · rintro ⟨c,member,isFree,rfl⟩
        exact ⟨c,List.mem_cons_of_mem _ member,isFree,rfl⟩
      · rintro ⟨c,member,isFree,rfl⟩
        rcases List.mem_cons.mp member with same | later
        · obtain ⟨rfl,rfl⟩ := Prod.mk.inj same
          rw [free] at isFree
          cases isFree
        · exact ⟨c,later,isFree,rfl⟩
    | true =>
      rw [gap_at_free positive apart free,rest]
      constructor
      · rintro (⟨rfl,rfl⟩ | ⟨c,member,isFree,rfl⟩)
        · exact ⟨b,List.mem_cons_self,free,rfl⟩
        · exact ⟨c,List.mem_cons_of_mem _ member,isFree,rfl⟩
      · rintro ⟨c,member,isFree,rfl⟩
        rcases List.mem_cons.mp member with same | later
        · obtain ⟨rfl,rfl⟩ := Prod.mk.inj same
          exact .inl ⟨rfl,rfl⟩
        · exact .inr ⟨c,later,isFree,rfl⟩

/-! Which gap an allocation takes. -/

theorem placed_append : placed hdr start (bs ++ cs) =
    placed hdr start bs ++ placed hdr (start + span hdr bs) cs := by
  induction bs generalizing start with
  | nil => rfl
  | cons b bs ih =>
    have shift : b.stop hdr start + span hdr bs = start + span hdr (b :: bs) := by
      simp only [Block.stop,span]
      omega
    rw [List.cons_append,placed,ih,shift]
    rfl

theorem block_of_placed {entry : Nat × Block} (member : entry ∈ placed hdr start bs) : entry.2 ∈ bs := by
  induction bs generalizing start with
  | nil => cases member
  | cons b bs ih =>
    rcases List.mem_cons.mp member with rfl | later
    · exact List.mem_cons_self
    · exact List.mem_cons_of_mem _ (ih later)

/-- What an allocation cuts up, and that every block in front is too small or in use. -/
theorem allocate_splits {r : Nat × List Block} (h : allocate hdr slack n start bs = some r) :
    ∃ front b back, bs = front ++ b :: back ∧ b.free = true ∧ n ≤ b.size ∧
      (∀ c ∈ front, ¬(c.free = true ∧ n ≤ c.size)) ∧
      r = (start + span hdr front + hdr,front ++ (carve hdr slack n b ++ back)) := by
  induction bs generalizing start r with
  | nil => simp [allocate] at h
  | cons b bs ih =>
    obtain ⟨free,room,rfl⟩ | ⟨small,tail,found,rfl⟩ := allocate_cons h
    · exact ⟨[],b,bs,rfl,free,room,fun _ member => absurd member List.not_mem_nil,rfl⟩
    · obtain ⟨front,c,back,rfl,free,room,before,rfl⟩ := ih found
      refine ⟨b :: front,c,back,rfl,free,room,List.forall_mem_cons.mpr ⟨small,before⟩,?_⟩
      have shift : b.stop hdr start + span hdr front = start + span hdr (b :: front) := by
        simp only [Block.stop,span]
        omega
      rw [shift]
      rfl

/-- The payload lies at the front of the first free block that is large enough. -/
theorem allocate_first {r : Nat × List Block} (h : allocate hdr slack n start bs = some r) :
    ∃ i b, (i,b) ∈ placed hdr start bs ∧ b.free = true ∧ n ≤ b.size ∧ r.1 = i + hdr ∧
      (∀ entry ∈ placed hdr start bs, entry.2.free = true → n ≤ entry.2.size → i ≤ entry.1) ∧
      ∃ size, n ≤ size ∧ size ≤ b.size ∧
        ∀ x, Covered hdr start r.2 x ↔ Covered hdr start bs x ∨ i ≤ x ∧ x < i + hdr + size := by
  obtain ⟨front,b,back,rfl,free,room,before,rfl⟩ := allocate_splits h
  refine ⟨start + span hdr front,b,?_,free,room,rfl,?_,?_⟩
  · rw [placed_append]
    exact List.mem_append_right _ List.mem_cons_self
  · intro entry member isFree enough
    rw [placed_append] at member
    rcases List.mem_append.mp member with early | late
    · exact absurd ⟨isFree,enough⟩ (before _ (block_of_placed early))
    · exact (placed_within late).1
  · obtain ⟨size,enough,small,carved⟩ := used_carve hdr slack (start + span hdr front) room
    refine ⟨size,enough,small,fun x => ?_⟩
    have taken : Covered hdr (start + span hdr front) (carve hdr slack n b) x ↔
        start + span hdr front ≤ x ∧ x < start + span hdr front + hdr + size := by
      simp [Covered,carved]
    have behind : start + span hdr front + (hdr + b.size) = b.stop hdr (start + span hdr front) := by
      simp only [Block.stop]
      omega
    rw [covered_append,covered_append,covered_append,covered_of_free free,taken,span_carve,behind]
    exact (or_congr_right or_comm).trans or_assoc.symm

end FirstFit
