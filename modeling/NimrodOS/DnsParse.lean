import NimrodOS.DnsMessages
import NimrodOS.NetHeaders

/-! How the loops of `handle_udp` move over names and answers. -/
namespace NimrodOS.Net.Dns

open Wire

variable {data : Nat → Byte} {stop ptr fuel : Nat} {n : Name} {labels : List Label}

/-! Names. -/

theorem label_at {l : Label} (stands : At data ptr (Label.wire l)) :
    data ptr ≠ 0 ∧ data ptr &&& 0xC0 ≠ 0xC0 ∧ ptr + 1 + (data ptr).toNat =
      ptr + (Label.wire l).length := by
  have first : data ptr = BitVec.ofNat 8 l.val.length := stands.1
  rw [first,length_byte,label_length]
  exact ⟨length_ne_zero l,length_not_pointer l,Nat.add_assoc _ _ _⟩

/-- A loop that goes on behind every label goes on behind all of them. -/
theorem skip_labels {skip : Nat → Nat → Nat}
    (turn : ∀ fuel ptr, ptr < stop → data ptr ≠ 0 → data ptr &&& 0xC0 ≠ 0xC0 →
      skip (fuel + 1) ptr = skip fuel (ptr + 1 + (data ptr).toNat))
    (stands : At data ptr (labelsWire labels))
    (inside : ptr + (labelsWire labels).length ≤ stop) (enough : labels.length ≤ fuel) :
    skip fuel ptr = skip (fuel - labels.length) (ptr + (labelsWire labels).length) := by
  induction labels generalizing ptr fuel with
  | nil => rfl
  | cons l labels ih =>
    rw [labelsWire_cons,at_append] at stands
    obtain ⟨first,rest⟩ := stands
    obtain ⟨nonzero,label,next⟩ := label_at first
    rw [labelsWire_cons,List.length_append] at inside ⊢
    have long := label_length l
    cases fuel with
    | zero => simp at enough
    | succ fuel =>
      have before : ptr < stop := by omega
      rw [turn fuel ptr before nonzero label,next,
        ih rest (by omega) (Nat.le_of_succ_le_succ enough),Nat.add_assoc]
      congr 1
      simp

theorem skipQuestion_labels (stands : At data ptr (labelsWire labels))
    (inside : ptr + (labelsWire labels).length ≤ stop) (enough : labels.length ≤ fuel) :
    skipQuestion data stop fuel ptr =
      skipQuestion data stop (fuel - labels.length) (ptr + (labelsWire labels).length) := by
  refine skip_labels (fun fuel ptr before nonzero label => ?_) stands inside enough
  rw [skipQuestion,if_pos ⟨before,nonzero⟩,if_neg label]

theorem skipLabels_labels (stands : At data ptr (labelsWire labels))
    (inside : ptr + (labelsWire labels).length ≤ stop) (enough : labels.length ≤ fuel) :
    skipLabels data stop fuel ptr =
      skipLabels data stop (fuel - labels.length) (ptr + (labelsWire labels).length) := by
  refine skip_labels (fun fuel ptr before nonzero _ => ?_) stands inside enough
  rw [skipLabels,if_pos ⟨before,nonzero⟩]

theorem skipQuestion_end (zero : data ptr = 0) (fuel : Nat) :
    skipQuestion data stop fuel ptr = ptr + 1 + 4 := by
  cases fuel with
  | zero => rfl
  | succ fuel =>
    rw [skipQuestion,if_neg]
    exact fun both => both.2 zero

theorem skipLabels_end (zero : data ptr = 0) (fuel : Nat) :
    skipLabels data stop fuel ptr = ptr + 1 := by
  cases fuel with
  | zero => rfl
  | succ fuel =>
    rw [skipLabels,if_neg]
    exact fun both => both.2 zero

theorem name_at (stands : At data ptr n.wire) (inside : ptr + n.wire.length ≤ stop) :
    At data ptr (labelsWire n.labels) ∧
      At data (ptr + (labelsWire n.labels).length) n.ending.wire ∧
      ptr + (labelsWire n.labels).length + n.ending.wire.length ≤ stop ∧
      n.labels.length < stop - ptr := by
  have length := name_length n
  have count := labels_count n.labels
  have ending := ending_length n.ending
  rw [Name.wire,at_append] at stands
  exact ⟨stands.1,stands.2,by omega,by omega⟩

/-- Behind a zero byte the question's type and class are skipped as well. -/
theorem skipQuestion_zeroEnded (stands : At data ptr n.wire) (inside : ptr + n.wire.length ≤ stop)
    (zero : n.ZeroEnded) :
    skipQuestion data stop (stop - ptr) ptr = ptr + n.wire.length + 4 := by
  obtain ⟨labels,ending,room,enough⟩ := name_at stands inside
  rw [zero] at ending
  rw [skipQuestion_labels labels (by omega) (Nat.le_of_lt enough),skipQuestion_end ending.1,
    name_length,zero]
  simp [Ending.wire,Nat.add_assoc]

/-- Behind a pointer they are not. -/
theorem skipQuestion_pointer {high : {b : Byte // b &&& 0xC0 = 0xC0}} {low : Byte}
    (stands : At data ptr n.wire) (inside : ptr + n.wire.length ≤ stop)
    (pointer : n.ending = .pointer high low) :
    skipQuestion data stop (stop - ptr) ptr = ptr + n.wire.length := by
  obtain ⟨labels,ending,room,enough⟩ := name_at stands inside
  have length := name_length n
  rw [pointer] at ending length
  have first : data (ptr + (labelsWire n.labels).length) = high.val := ending.1
  have marked : data (ptr + (labelsWire n.labels).length) &&& 0xC0 = 0xC0 := by
    rw [first]
    exact high.property
  have nonzero : data (ptr + (labelsWire n.labels).length) ≠ 0 := by
    intro zero
    rw [zero] at marked
    exact absurd marked (by decide)
  have more : 0 < stop - ptr - n.labels.length := by omega
  have two : (Ending.pointer high low).wire.length = 2 := rfl
  rw [skipQuestion_labels labels (by omega) (Nat.le_of_lt enough),
    ← Nat.succ_pred_eq_of_pos more,skipQuestion,if_pos,if_pos marked]
  · omega
  · exact ⟨by omega,nonzero⟩

/-- A name without a pointer behind labels is skipped as a whole. -/
theorem skipName_plain (stands : At data ptr n.wire) (inside : ptr + n.wire.length ≤ stop)
    (plain : n.Plain) : skipName data stop ptr = ptr + n.wire.length := by
  obtain ⟨labels,ending,room,enough⟩ := name_at stands inside
  have length := name_length n
  rcases n with ⟨_ | ⟨l,ls⟩,_ | ⟨high,low⟩⟩
  · have zero : data ptr = 0 := ending.1
    rw [skipName,zero,if_neg (by decide),skipLabels_end zero]
    rfl
  · have first : data ptr = high.val := ending.1
    rw [skipName,first,if_pos high.property]
    rfl
  · have stands' := labels
    rw [labelsWire_cons,at_append] at stands'
    rw [skipName,if_neg (label_at stands'.1).2.1,
      skipLabels_labels labels (by omega) (Nat.le_of_lt enough),skipLabels_end ending.1,length]
    rfl
  · rcases plain with zero | none
    · cases zero
    · cases none

/-- A pointer behind labels is taken for the length of one more label. -/
theorem skipName_mixed {high : {b : Byte // b &&& 0xC0 = 0xC0}} {low : Byte}
    (stands : At data ptr n.wire) (inside : ptr + n.wire.length ≤ stop)
    (labelled : n.labels ≠ []) (pointer : n.ending = .pointer high low) : ∃ fuel,
    stop - ptr - n.wire.length ≤ fuel ∧ skipName data stop ptr =
      skipLabels data stop fuel (ptr + (labelsWire n.labels).length + 1 + high.val.toNat) := by
  obtain ⟨labels,ending,room,enough⟩ := name_at stands inside
  have length := name_length n
  have count := labels_count n.labels
  rw [pointer] at ending length
  have two : (Ending.pointer high low).wire.length = 2 := rfl
  have first : data (ptr + (labelsWire n.labels).length) = high.val := ending.1
  have nonzero : data (ptr + (labelsWire n.labels).length) ≠ 0 := by
    intro zero
    have marked := high.property
    rw [← first,zero] at marked
    exact absurd marked (by decide)
  have more : 0 < stop - ptr - n.labels.length := by omega
  have label : data ptr &&& 0xC0 ≠ 0xC0 := by
    obtain ⟨l,ls,named⟩ := List.exists_cons_of_ne_nil labelled
    rw [named,labelsWire_cons,at_append] at labels
    exact (label_at labels.1).2.1
  refine ⟨stop - ptr - n.labels.length - 1,by omega,?_⟩
  rw [skipName,if_neg label,skipLabels_labels labels (by omega) (Nat.le_of_lt enough),
    ← Nat.succ_pred_eq_of_pos more,skipLabels,if_pos]
  · rw [first]
    rfl
  · exact ⟨by omega,nonzero⟩

/-! Answers. -/

section

variable {a : Record} {answers : List Record} {k : Nat}

theorem fields_at (stands : At data ptr a.fields) :
    big16 data ptr = a.type ∧ big16 data (ptr + 8) = BitVec.ofNat 16 a.rdata.length := by
  simp only [Record.fields,at_append] at stands
  exact ⟨big16_at stands.1.1.1,big16_at stands.2⟩

theorem address_at (stands : At data ptr a.rdata) (four : a.rdata.length = 4) :
    big32 data ptr = a.address := by
  have same : ∀ j, j < 4 → data (ptr + j) = a.rdata.getD j 0 := by
    intro j inside
    rw [stands.get (by omega)]
    simp [four,inside]
  have first : data ptr = a.rdata.getD 0 0 := same 0 (by decide)
  rw [Record.address,big32,big32,first,same 1 (by decide),same 2 (by decide),same 3 (by decide)]

theorem isAddress_iff : a.type = 1 ∧ BitVec.ofNat 16 a.rdata.length = (4 : Half) ↔ a.IsAddress := by
  have short := a.short
  rw [Record.IsAddress,← BitVec.toNat_inj (y := (4 : Half)),BitVec.toNat_ofNat,Nat.mod_eq_of_lt short]
  rfl

/-- One round of the loop, from the end of the name on. -/
theorem answerLoop_fields {ptr' : Nat} (room : ptr + 12 ≤ stop) (named : skipName data stop ptr = ptr')
    (fields : At data ptr' a.fields) (rdata : At data (ptr' + 10) a.rdata)
    (inside : ptr' + 10 + a.rdata.length ≤ stop) :
    answerLoop data stop (k + 1) ptr = if a.IsAddress then some a.address
      else answerLoop data stop k (ptr' + 10 + a.rdata.length) := by
  obtain ⟨type,length⟩ := fields_at fields
  have width : (BitVec.ofNat 16 a.rdata.length).toNat = a.rdata.length := Nat.mod_eq_of_lt a.short
  have kept : ¬ptr' + 10 > stop := by omega
  rw [answerLoop,if_pos room]
  simp only [named,if_neg kept,type,length,width]
  by_cases address : a.IsAddress
  · have four := address.2
    rw [if_pos address,if_pos,address_at rdata four]
    exact ⟨address.1,(isAddress_iff.mpr address).2,by omega⟩
  · rw [if_neg address,if_neg]
    exact fun both => address (isAddress_iff.mp ⟨both.1,both.2.1⟩)

theorem answerLoop_plain (stands : At data ptr a.wire) (inside : ptr + a.wire.length ≤ stop)
    (room : ptr + 12 ≤ stop) (plain : a.name.Plain) :
    answerLoop data stop (k + 1) ptr = if a.IsAddress then some a.address
      else answerLoop data stop k (ptr + a.wire.length) := by
  have length := record_length a
  rw [Record.wire,at_append,at_append,List.length_append,fields_length,← Nat.add_assoc] at stands
  obtain ⟨⟨name,fields⟩,rdata⟩ := stands
  have named : skipName data stop ptr = ptr + a.name.wire.length :=
    skipName_plain name (by omega) plain
  rw [answerLoop_fields room named fields rdata (by omega),length]
  congr 2
  omega

theorem name_positive (n : Name) : 1 ≤ n.wire.length := by
  have length := name_length n
  have ending := ending_length n.ending
  omega

/-- Only an answer without data is too short for the loop's condition. -/
theorem firstAddress_of_short (inside : ptr + (answersWire answers).length ≤ stop)
    (short : stop < ptr + 12) : firstAddress answers = none := by
  rcases answers with _ | ⟨a,_ | ⟨b,answers⟩⟩
  · rfl
  · have length := record_length a
    have name := name_positive a.name
    rw [answersWire_cons,List.length_append] at inside
    have other : ¬a.IsAddress := by
      intro address
      have := address.2
      omega
    rw [firstAddress,if_neg other]
    rfl
  · have first := record_length a
    have second := record_length b
    have name := name_positive a.name
    have name' := name_positive b.name
    rw [answersWire_cons,answersWire_cons,List.length_append,List.length_append] at inside
    omega

/-- Answers with plain names are gone through record by record. -/
theorem answerLoop_answers (stands : At data ptr (answersWire answers))
    (inside : ptr + (answersWire answers).length ≤ stop) (plain : PlainAnswers answers) :
    answerLoop data stop answers.length ptr = firstAddress answers := by
  induction answers generalizing ptr with
  | nil => rfl
  | cons a answers ih =>
    rcases Nat.lt_or_ge stop (ptr + 12) with short | room
    · rw [firstAddress_of_short inside short,List.length_cons,answerLoop,
        if_neg (Nat.not_le.mpr short)]
    · rw [answersWire_cons,List.length_append] at inside
      rw [answersWire_cons,at_append] at stands
      rw [List.length_cons,answerLoop_plain stands.1 (by omega) room plain.1,firstAddress]
      split_ifs with address
      · rfl
      · exact ih stands.2 (by omega) (plain.2.resolve_left address)

/-- Answers before the last ones that hold no address are passed over. -/
theorem answerLoop_append {later : List Record} (stands : At data ptr (answersWire answers))
    (room : ptr + (answersWire answers).length + 12 ≤ stop)
    (plain : ∀ a ∈ answers, a.name.Plain ∧ ¬a.IsAddress) :
    answerLoop data stop (answers ++ later).length ptr =
      answerLoop data stop later.length (ptr + (answersWire answers).length) := by
  induction answers generalizing ptr with
  | nil => rfl
  | cons a answers ih =>
    rw [List.forall_mem_cons] at plain
    rw [answersWire_cons,List.length_append] at room
    rw [answersWire_cons,at_append] at stands
    rw [List.cons_append,List.length_cons,answerLoop_plain stands.1 (by omega) (by omega) plain.1.1,
      if_neg plain.1.2,ih stands.2 (by omega) plain.2,answersWire_cons,List.length_append]
    congr 1
    omega

end

end NimrodOS.Net.Dns
