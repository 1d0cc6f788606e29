import Mathlib.Data.List.Chain
import Mathlib.Algebra.Group.Nat.Defs
import Mathlib.Tactic.Common

/-! First-fit allocation over blocks that tile one region, each behind a header of
`hdr` bytes. A block list has no addresses of its own: the block at the head starts
where the list starts, and each other one where its predecessor ends. -/
namespace FirstFit

structure Block where
  size : Nat
  free : Bool
  deriving DecidableEq, Repr

variable (hdr slack : Nat)

/-- Where a block that starts at `start` ends. -/
def Block.stop (start : Nat) (b : Block) : Nat := start + hdr + b.size

/-- All bytes of a block list, headers included. -/
def span : List Block → Nat
  | [] => 0
  | b :: bs => hdr + b.size + span bs

/-- Header positions with their blocks. -/
def placed (start : Nat) : List Block → List (Nat × Block)
  | [] => []
  | b :: bs => (start,b) :: placed (b.stop hdr start) bs

/-- Payload position and size of each used block. -/
def used (start : Nat) : List Block → List (Nat × Nat)
  | [] => []
  | b :: bs =>
    let rest := used (b.stop hdr start) bs
    if b.free then rest else (start + hdr,b.size) :: rest

/-- Neighbouring free blocks have been merged. -/
def Separated (bs : List Block) : Prop :=
  bs.IsChain fun a b => ¬(a.free = true ∧ b.free = true)

/-- Use a block for `n` bytes, giving the rest back when it can hold a header and
more than `slack` bytes. -/
def carve (n : Nat) (b : Block) : List Block :=
  if n + hdr + slack < b.size then [⟨n,false⟩,⟨b.size - n - hdr,true⟩] else [⟨b.size,false⟩]

/-- The payload position and the new blocks, for the first free block that is large enough. -/
def allocate (n : Nat) : Nat → List Block → Option (Nat × List Block)
  | _, [] => none
  | start, b :: bs =>
    if b.free = true ∧ n ≤ b.size then some (start + hdr,carve hdr slack n b ++ bs)
    else (allocate n (b.stop hdr start) bs).map fun r => (r.1,b :: r.2)

def markFree (p : Nat) : Nat → List Block → List Block
  | _, [] => []
  | start, b :: bs =>
    if start + hdr = p then ⟨b.size,true⟩ :: bs else b :: markFree p (b.stop hdr start) bs

/-- One pass of merging from `current` on. -/
def sweep (current : Block) : List Block → List Block
  | [] => [current]
  | b :: bs =>
    if current.free = true ∧ b.free = true then sweep ⟨current.size + hdr + b.size,true⟩ bs
    else current :: sweep b bs

def coalesce : List Block → List Block
  | [] => []
  | b :: bs => sweep hdr b bs

def release (p start : Nat) (bs : List Block) : List Block := coalesce hdr (markFree hdr p start bs)

variable {hdr slack} {n p start : Nat} {b : Block} {bs cs : List Block}

/-- An allocation fails just when every free block is too small. -/
theorem allocate_eq_none_iff : allocate hdr slack n start bs = none ↔
    ∀ b ∈ bs, ¬(b.free = true ∧ n ≤ b.size) := by
  induction bs generalizing start with
  | nil => simp [allocate]
  | cons b bs ih =>
    rw [allocate,List.forall_mem_cons]
    split
    · rename_i fits
      simp [fits]
    · rename_i small
      rw [Option.map_eq_none_iff,ih]
      exact (and_iff_right small).symm

/-- An allocation takes the block at the head or one of those behind it. -/
theorem allocate_cons {r : Nat × List Block} (h : allocate hdr slack n start (b :: bs) = some r) :
    (b.free = true ∧ n ≤ b.size ∧ r = (start + hdr,carve hdr slack n b ++ bs)) ∨
      ¬(b.free = true ∧ n ≤ b.size) ∧ ∃ tail,
        allocate hdr slack n (b.stop hdr start) bs = some tail ∧ r = (tail.1,b :: tail.2) := by
  rw [allocate] at h
  split at h
  · rename_i fits
    exact .inl ⟨fits.1,fits.2,(Option.some.inj h).symm⟩
  · rename_i small
    obtain ⟨tail,found,same⟩ := Option.map_eq_some_iff.mp h
    exact .inr ⟨small,tail,found,same.symm⟩

theorem span_append : span hdr (bs ++ cs) = span hdr bs + span hdr cs := by
  induction bs with
  | nil => simp [span]
  | cons b bs ih => simp only [List.cons_append,span,ih]; omega

theorem span_carve : span hdr (carve hdr slack n b) = hdr + b.size := by
  unfold carve
  split <;> simp only [span] <;> omega

theorem span_allocate {r : Nat × List Block}
    (h : allocate hdr slack n start bs = some r) : span hdr r.2 = span hdr bs := by
  induction bs generalizing start r with
  | nil => simp [allocate] at h
  | cons b bs ih =>
    obtain ⟨-,-,rfl⟩ | ⟨-,tail,found,rfl⟩ := allocate_cons h
    · rw [span_append,span_carve,span]
    · simp only [span,ih found]

theorem markFree_eq_nil : markFree hdr p start bs = [] ↔ bs = [] := by
  cases bs with
  | nil => simp [markFree]
  | cons b bs => simp only [markFree]; split <;> simp

theorem span_markFree (hdr p start : Nat) (bs : List Block) :
    span hdr (markFree hdr p start bs) = span hdr bs := by
  induction bs generalizing start with
  | nil => rfl
  | cons b bs ih =>
    simp only [markFree]
    split
    · rfl
    · simp only [span,ih]

theorem span_sweep : span hdr (sweep hdr b bs) = span hdr (b :: bs) := by
  induction bs generalizing b with
  | nil => rfl
  | cons c bs ih =>
    simp only [sweep]
    split
    · rw [ih]; simp only [span]; omega
    · simp only [span,ih]

theorem span_release : span hdr (release hdr p start bs) = span hdr bs := by
  rw [release,← span_markFree hdr p start bs]
  cases markFree hdr p start bs with
  | nil => rfl
  | cons b bs => exact span_sweep

/-! Block sizes stay multiples of the grain of the requests and of the header. -/

section Grain

variable {grain : Nat}

def Grained (grain : Nat) (bs : List Block) : Prop := ∀ b ∈ bs, grain ∣ b.size

theorem carve_grained (header : grain ∣ hdr) (request : grain ∣ n) (size : grain ∣ b.size) :
    Grained grain (carve hdr slack n b) := by
  unfold carve
  split
  · simp only [Grained,List.forall_mem_cons,List.not_mem_nil,false_imp_iff,implies_true,and_true]
    exact ⟨request,Nat.dvd_sub (Nat.dvd_sub size request) header⟩
  · simpa [Grained] using size

theorem allocate_grained (header : grain ∣ hdr) (request : grain ∣ n)
    (before : Grained grain bs) {r : Nat × List Block}
    (h : allocate hdr slack n start bs = some r) : Grained grain r.2 := by
  induction bs generalizing start r with
  | nil => simp [allocate] at h
  | cons b bs ih =>
    obtain ⟨first,rest⟩ := List.forall_mem_cons.mp before
    obtain ⟨-,-,rfl⟩ | ⟨-,tail,found,rfl⟩ := allocate_cons h
    · exact List.forall_mem_append.mpr ⟨carve_grained header request first,rest⟩
    · exact List.forall_mem_cons.mpr ⟨first,ih rest found⟩

theorem markFree_grained (before : Grained grain bs) : Grained grain (markFree hdr p start bs) := by
  induction bs generalizing start with
  | nil => simpa [markFree] using before
  | cons b bs ih =>
    obtain ⟨first,rest⟩ := List.forall_mem_cons.mp before
    simp only [markFree]
    split
    · exact List.forall_mem_cons.mpr ⟨first,rest⟩
    · exact List.forall_mem_cons.mpr ⟨first,ih rest⟩

theorem sweep_grained (header : grain ∣ hdr) (before : Grained grain (b :: bs)) :
    Grained grain (sweep hdr b bs) := by
  induction bs generalizing b with
  | nil => exact before
  | cons c bs ih =>
    simp only [Grained,List.forall_mem_cons] at before
    obtain ⟨first,second,rest⟩ := before
    simp only [sweep]
    split
    · have merged : grain ∣ b.size + hdr + c.size := Nat.dvd_add (Nat.dvd_add first header) second
      exact ih (List.forall_mem_cons.mpr ⟨merged,rest⟩)
    · exact List.forall_mem_cons.mpr ⟨first,ih (List.forall_mem_cons.mpr ⟨second,rest⟩)⟩

theorem release_grained (header : grain ∣ hdr) (before : Grained grain bs) :
    Grained grain (release hdr p start bs) := by
  have marked : Grained grain (markFree hdr p start bs) := markFree_grained before
  unfold release
  cases h : markFree hdr p start bs with
  | nil => simp [Grained,coalesce]
  | cons b bs => exact sweep_grained header (h ▸ marked)

end Grain

/-! No two neighbours are free. -/

theorem carve_head (hdr slack n : Nat) (b : Block) : ∃ size rest, carve hdr slack n b = ⟨size,false⟩ :: rest := by
  unfold carve
  split
  · exact ⟨_,_,rfl⟩
  · exact ⟨_,_,rfl⟩

/-- The rest of a carved block is free, so it needs a used successor: a neighbour of
the free block that was carved. -/
theorem carve_separated (h : Separated (b :: bs)) (was : b.free = true) :
    Separated (carve hdr slack n b ++ bs) := by
  unfold carve
  cases bs with
  | nil => split <;> simp [Separated]
  | cons c bs =>
    obtain ⟨apart,rest⟩ := List.isChain_cons_cons.mp h
    have taken : c.free = false := by simpa [was] using apart
    split
    · refine List.isChain_cons_cons.mpr ⟨by simp,?_⟩
      exact List.isChain_cons_cons.mpr ⟨by simp [taken],rest⟩
    · exact List.isChain_cons_cons.mpr ⟨by simp,rest⟩

theorem allocate_nonempty {r : Nat × List Block}
    (h : allocate hdr slack n start bs = some r) : bs ≠ [] ∧ r.2 ≠ [] := by
  cases bs with
  | nil => simp [allocate] at h
  | cons b bs =>
    refine ⟨by simp,?_⟩
    obtain ⟨-,-,rfl⟩ | ⟨-,tail,-,rfl⟩ := allocate_cons h
    · obtain ⟨size,rest,carved⟩ := carve_head hdr slack n b
      simp [carved]
    · simp

theorem allocate_separated (before : Separated bs) {r : Nat × List Block}
    (h : allocate hdr slack n start bs = some r) : Separated r.2 := by
  induction bs generalizing start r with
  | nil => simp [allocate] at h
  | cons b bs ih =>
    obtain ⟨free,-,rfl⟩ | ⟨-,tail,found,rfl⟩ := allocate_cons h
    · exact carve_separated before free
    · have rest := ih (List.IsChain.tail before) found
      -- the block after `b` either stays or is the carved one, which is used
      cases bs with
      | nil => simp [allocate] at found
      | cons c bs =>
        obtain ⟨apart,-⟩ := List.isChain_cons_cons.mp before
        obtain ⟨-,-,rfl⟩ | ⟨-,inner,-,rfl⟩ := allocate_cons found
        · obtain ⟨size,more,carved⟩ := carve_head hdr slack n c
          simp only [carved,List.cons_append] at rest ⊢
          exact List.isChain_cons_cons.mpr ⟨by simp,rest⟩
        · exact List.isChain_cons_cons.mpr ⟨apart,rest⟩

theorem sweep_head (hdr : Nat) (b : Block) (bs : List Block) :
    ∃ first rest, sweep hdr b bs = first :: rest ∧ first.free = b.free := by
  induction bs generalizing b with
  | nil => exact ⟨b,[],rfl,rfl⟩
  | cons c bs ih =>
    simp only [sweep]
    split
    · rename_i both
      obtain ⟨first,rest,eq,same⟩ := ih ⟨b.size + hdr + c.size,true⟩
      exact ⟨first,rest,eq,same.trans both.1.symm⟩
    · exact ⟨b,_,rfl,rfl⟩

theorem sweep_separated (b : Block) (bs : List Block) : Separated (sweep hdr b bs) := by
  induction bs generalizing b with
  | nil => simp [sweep,Separated]
  | cons c bs ih =>
    simp only [sweep]
    split
    · exact ih _
    · rename_i apart
      obtain ⟨first,rest,eq,same⟩ := sweep_head hdr c bs
      have tail := ih c
      rw [eq] at tail ⊢
      exact List.isChain_cons_cons.mpr ⟨by rwa [same],tail⟩

theorem release_separated : Separated (release hdr p start bs) := by
  unfold release
  cases markFree hdr p start bs with
  | nil => simp [coalesce,Separated]
  | cons b bs => exact sweep_separated b bs

/-! Giving a block back right after it was taken. -/

theorem sweep_of_separated (apart : Separated (b :: bs)) : sweep hdr b bs = b :: bs := by
  induction bs generalizing b with
  | nil => rfl
  | cons c bs ih =>
    obtain ⟨first,rest⟩ := List.isChain_cons_cons.mp apart
    rw [sweep,if_neg first,ih rest]

theorem allocate_above {r : Nat × List Block} (h : allocate hdr slack n start bs = some r) :
    start + hdr ≤ r.1 := by
  induction bs generalizing start r with
  | nil => simp [allocate] at h
  | cons b bs ih =>
    obtain ⟨-,-,rfl⟩ | ⟨-,tail,found,rfl⟩ := allocate_cons h
    · exact Nat.le_refl _
    · have inner := ih found
      simp only [Block.stop] at inner ⊢
      omega

/-- The front of a free block and the rest of it merge again. -/
theorem release_carve (was : b.free = true) (apart : Separated (b :: bs)) :
    release hdr (start + hdr) start (carve hdr slack n b ++ bs) = b :: bs := by
  obtain ⟨size,free⟩ := b
  obtain rfl : free = true := was
  unfold carve release
  split
  · rename_i wide
    have whole : n + hdr + (size - n - hdr) = size := by
      simp only at wide
      omega
    simp only [List.cons_append,List.nil_append,markFree,if_true,coalesce,sweep,and_self,whole]
    exact sweep_of_separated apart
  · simp only [List.cons_append,List.nil_append,markFree,if_true,coalesce]
    exact sweep_of_separated apart

/-- The list is what it was. -/
theorem release_allocate (positive : 0 < hdr) (apart : Separated bs) {r : Nat × List Block}
    (h : allocate hdr slack n start bs = some r) : release hdr r.1 start r.2 = bs := by
  induction bs generalizing start r with
  | nil => simp [allocate] at h
  | cons b bs ih =>
    obtain ⟨free,-,rfl⟩ | ⟨-,tail,found,rfl⟩ := allocate_cons h
    · exact release_carve free apart
    · have restored := ih (List.IsChain.tail apart) found
      have beyond := allocate_above found
      have other : start + hdr ≠ tail.1 := by
        simp only [Block.stop] at beyond
        omega
      simp only [release] at restored ⊢
      rw [markFree,if_neg other]
      cases marked : markFree hdr tail.1 (b.stop hdr start) tail.2 with
      | nil => exact absurd (markFree_eq_nil.mp marked) (allocate_nonempty found).2
      | cons c cs =>
        rw [marked] at restored
        simp only [coalesce] at restored ⊢
        -- merging keeps the flag of the first block, so `b` merges with none
        obtain ⟨first,rest,swept,same⟩ := sweep_head hdr c cs
        rw [swept] at restored
        rw [← restored] at apart
        obtain ⟨alone,-⟩ := List.isChain_cons_cons.mp apart
        rw [same] at alone
        rw [sweep,if_neg alone,swept,restored]

/-! The used blocks change by exactly the block that was taken or given back. -/

theorem used_append : used hdr start (bs ++ cs) =
    used hdr start bs ++ used hdr (start + span hdr bs) cs := by
  induction bs generalizing start with
  | nil => simp [used,span]
  | cons b bs ih =>
    have shift : b.stop hdr start + span hdr bs = start + span hdr (b :: bs) := by
      simp only [Block.stop,span]; omega
    simp only [List.cons_append,used,ih,shift]
    split <;> simp

theorem used_carve (hdr slack start : Nat) (room : n ≤ b.size) :
    ∃ size, n ≤ size ∧ size ≤ b.size ∧ used hdr start (carve hdr slack n b) = [(start + hdr,size)] := by
  unfold carve
  split
  · exact ⟨n,Nat.le_refl _,room,by simp [used]⟩
  · exact ⟨b.size,room,Nat.le_refl _,by simp [used]⟩

theorem used_allocate {r : Nat × List Block} (h : allocate hdr slack n start bs = some r) :
    ∃ size before after, n ≤ size ∧ used hdr start bs = before ++ after ∧
      used hdr start r.2 = before ++ (r.1,size) :: after := by
  induction bs generalizing start r with
  | nil => simp [allocate] at h
  | cons b bs ih =>
    obtain ⟨free,room,rfl⟩ | ⟨-,tail,found,rfl⟩ := allocate_cons h
    · obtain ⟨size,enough,-,carved⟩ := used_carve hdr slack start room
      refine ⟨size,[],used hdr (b.stop hdr start) bs,enough,by simp [used,free],?_⟩
      rw [used_append,carved,span_carve]
      simp [Block.stop,Nat.add_assoc]
    · obtain ⟨size,before,after,enough,old,new⟩ := ih found
      by_cases free : b.free = true
      · exact ⟨size,before,after,enough,by simp [used,free,old],by simp [used,free,new]⟩
      · exact ⟨size,(start + hdr,b.size) :: before,after,enough,
          by simp [used,free,old],by simp [used,free,new]⟩

theorem used_above (positive : 0 < hdr) {entry : Nat × Nat} (member : entry ∈ used hdr start bs) :
    start + hdr ≤ entry.1 ∧ entry.1 + entry.2 ≤ start + span hdr bs := by
  induction bs generalizing start with
  | nil => simp [used] at member
  | cons b bs ih =>
    have rest (inner : entry ∈ used hdr (b.stop hdr start) bs) :
        start + hdr ≤ entry.1 ∧ entry.1 + entry.2 ≤ start + span hdr (b :: bs) := by
      have := ih inner
      simp only [Block.stop,span] at this ⊢
      omega
    simp only [used] at member
    split at member
    · exact rest member
    · rcases List.mem_cons.mp member with rfl | inner
      · simp only [span]; omega
      · exact rest inner

theorem used_markFree (positive : 0 < hdr) : used hdr start (markFree hdr p start bs) =
    (used hdr start bs).filter (·.1 ≠ p) := by
  induction bs generalizing start with
  | nil => simp [markFree,used]
  | cons b bs ih =>
    simp only [markFree]
    split
    · rename_i here
      -- every later payload lies beyond this one
      have others : (used hdr (b.stop hdr start) bs).filter (·.1 ≠ p) =
          used hdr (b.stop hdr start) bs := by
        apply List.filter_eq_self.mpr
        intro entry member
        have := (used_above positive member).1
        simp only [Block.stop] at this
        simp only [ne_eq,decide_eq_true_eq]
        omega
      by_cases free : b.free = true
      · simp only [used,free,if_true,Block.stop] at others ⊢
        exact others.symm
      · simp only [used,free,Block.stop,if_true,Bool.false_eq_true,if_false] at others ⊢
        rw [List.filter_cons_of_neg (by simp [here]),others]
    · rename_i elsewhere
      simp only [used]
      split <;> simp [ih,elsewhere]

theorem used_sweep : used hdr start (sweep hdr b bs) = used hdr start (b :: bs) := by
  induction bs generalizing b start with
  | nil => rfl
  | cons c bs ih =>
    simp only [sweep]
    split
    · rename_i both
      rw [ih]
      simp [used,both,Block.stop,Nat.add_assoc]
    · simp only [used,ih]

theorem used_release (positive : 0 < hdr) : used hdr start (release hdr p start bs) =
    (used hdr start bs).filter (·.1 ≠ p) := by
  rw [release,← used_markFree positive]
  cases markFree hdr p start bs with
  | nil => rfl
  | cons b bs => exact used_sweep

/-! Each byte of the region belongs to a header, a used payload or a free one. -/

/-- Payload bytes of the blocks with the given flag. -/
def bytes (free : Bool) : List Block → Nat
  | [] => 0
  | b :: bs => (if b.free = free then b.size else 0) + bytes free bs

theorem bytes_total (hdr : Nat) (bs : List Block) :
    bytes false bs + bytes true bs + hdr * bs.length = span hdr bs := by
  induction bs with
  | nil => rfl
  | cons b bs ih =>
    simp only [bytes,span,List.length_cons,Nat.mul_add,Nat.mul_one]
    cases b.free <;> simp <;> omega

theorem length_le_span (hdr : Nat) (bs : List Block) : hdr * bs.length ≤ span hdr bs := by
  rw [← bytes_total hdr bs]
  exact Nat.le_add_left _ _

/-! Used payloads stay clear of each other and of every header. -/

/-- Later payloads start a header behind the end of earlier ones. -/
theorem used_ordered (positive : 0 < hdr) (start : Nat) (bs : List Block) :
    (used hdr start bs).Pairwise fun a b => a.1 + a.2 + hdr ≤ b.1 := by
  induction bs generalizing start with
  | nil => exact .nil
  | cons b bs ih =>
    simp only [used]
    split
    · exact ih _
    · refine List.pairwise_cons.mpr ⟨fun entry member => ?_,ih _⟩
      have := (used_above positive member).1
      simp only [Block.stop] at this ⊢
      omega

theorem used_nodup (positive : 0 < hdr) (start : Nat) (bs : List Block) :
    ((used hdr start bs).map (·.1)).Nodup := by
  refine List.pairwise_map.mpr ((used_ordered positive start bs).imp ?_)
  intro a b ordered same
  omega

theorem used_apart (positive : 0 < hdr) {a entry : Nat × Nat} {before after : List (Nat × Nat)}
    (eq : used hdr start bs = before ++ entry :: after) (member : a ∈ before ++ after) :
    entry.1 + entry.2 ≤ a.1 ∨ a.1 + a.2 ≤ entry.1 := by
  have ordered := used_ordered positive start bs
  rw [eq,List.pairwise_append] at ordered
  obtain ⟨-,behind,across⟩ := ordered
  rcases List.mem_append.mp member with left | right
  · have := across a left entry List.mem_cons_self
    omega
  · have := (List.pairwise_cons.mp behind).1 a right
    omega

theorem placed_within {entry : Nat × Block} (member : entry ∈ placed hdr start bs) :
    start ≤ entry.1 ∧ entry.2.stop hdr entry.1 ≤ start + span hdr bs := by
  induction bs generalizing start with
  | nil => simp [placed] at member
  | cons b bs ih =>
    simp only [placed,List.mem_cons] at member
    rcases member with rfl | later
    · simp only [Block.stop,span]; omega
    · have := ih later
      simp only [Block.stop,span] at this ⊢
      omega

theorem used_clear_of_headers (positive : 0 < hdr) {a : Nat × Nat} {header : Nat × Block}
    (left : a ∈ used hdr start bs) (right : header ∈ placed hdr start bs) :
    a.1 + a.2 ≤ header.1 ∨ header.1 + hdr ≤ a.1 := by
  induction bs generalizing start with
  | nil => simp [used] at left
  | cons b bs ih =>
    have above := (used_above positive left).1
    rcases List.mem_cons.mp right with rfl | later
    · exact .inr above
    · simp only [used] at left
      split at left
      · exact ih left later
      · rcases List.mem_cons.mp left with rfl | inner
        · have := (placed_within later).1
          simp only [Block.stop] at this
          exact .inl this
        · exact ih inner later

/-- A tiled region: the blocks fill it, sizes are multiples of the grain and free
neighbours are merged. -/
structure Arena (hdr grain total : Nat) where
  blocks : List Block
  filled : span hdr blocks = total
  grained : Grained grain blocks
  separated : Separated blocks

namespace Arena

variable {grain total : Nat}

/-- The region as one free block. -/
def whole (room : hdr ≤ total) (even : grain ∣ total - hdr) : Arena hdr grain total where
  blocks := [⟨total - hdr,true⟩]
  filled := by simp only [span]; omega
  grained := by simpa [Grained] using even
  separated := by simp [Separated]

def allocate (arena : Arena hdr grain total) (slack start n : Nat) (header : grain ∣ hdr)
    (request : grain ∣ n) : Option (Nat × Arena hdr grain total) :=
  match h : FirstFit.allocate hdr slack n start arena.blocks with
  | none => none
  | some r => some (r.1,⟨r.2,(span_allocate h).trans arena.filled,
      allocate_grained header request arena.grained h,allocate_separated arena.separated h⟩)

def release (arena : Arena hdr grain total) (start p : Nat) (header : grain ∣ hdr) :
    Arena hdr grain total where
  blocks := FirstFit.release hdr p start arena.blocks
  filled := span_release.trans arena.filled
  grained := release_grained header arena.grained
  separated := release_separated

theorem allocate_eq_none {arena : Arena hdr grain total} {header : grain ∣ hdr}
    {request : grain ∣ n} : arena.allocate slack start n header request = none ↔
      FirstFit.allocate hdr slack n start arena.blocks = none := by
  unfold Arena.allocate
  split <;> simp_all

theorem allocate_eq_some {arena next : Arena hdr grain total} {header : grain ∣ hdr}
    {request : grain ∣ n} (h : arena.allocate slack start n header request = some (p,next)) :
    FirstFit.allocate hdr slack n start arena.blocks = some (p,next.blocks) := by
  unfold Arena.allocate at h
  split at h
  · simp at h
  · rename_i r found
    simp only [Option.some.injEq,Prod.mk.injEq] at h
    obtain ⟨rfl,rfl⟩ := h
    exact found

theorem blocks_injective : Function.Injective (blocks : Arena hdr grain total → List Block) := by
  intro left right same
  cases left
  cases right
  congr

theorem release_allocate (positive : 0 < hdr) {arena next : Arena hdr grain total}
    {header : grain ∣ hdr} {request : grain ∣ n}
    (h : arena.allocate slack start n header request = some (p,next)) :
    next.release start p header = arena := by
  apply blocks_injective
  exact FirstFit.release_allocate positive arena.separated (allocate_eq_some h)

end Arena

end FirstFit
