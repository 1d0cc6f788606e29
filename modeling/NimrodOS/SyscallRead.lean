import NimrodOS.SyscallTable

/-! What a read takes from its source. -/
namespace NimrodOS.Syscall

open Libc Ramfs Transition

/-- The bytes behind a descriptor: the key buffer, the receiver or an open file that still
exists. -/
def available (s : System) (fd : Word) : Option (List Byte) :=
  if fd = 0 then some ((List.ofFn s.keys.keyBuffer).take s.keys.keyBufferLen.toNat)
  else if fd = 3 then some s.received.toList
  else
    match fdToName s.table fd with
    | none => none
    | some name => (findFile s.files name).map fun i => (fileContents (s.files i)).val

/-- The result is -1, or it counts the bytes that were taken from the front of the source
and stored in the buffer. -/
def Respects (s : System) (fd : Word) (dst : Nat → Byte) (len : Word) : Prop :=
  ∃ s' r dst', sysReadHandler s fd dst len = .ok (s',r,dst') ∧
    ((r = -1 ∧ dst' = dst) ∨ ∃ bytes n, available s fd = some bytes ∧ r = (n : Nat) ∧
      n ≤ len.toNat ∧ n ≤ bytes.length ∧ dst' = overlay dst (bytes.take n))

/-- The read takes as many bytes as there are, up to the length, and fails where there is no
source. -/
def TakesAll (s : System) (fd : Word) (dst : Nat → Byte) (len : Word) : Prop :=
  ∃ s', sysReadHandler s fd dst len = .ok (s',
    match available s fd with
    | none => (-1,dst)
    | some bytes => ((min len.toNat bytes.length : Nat),overlay dst (bytes.take len.toNat)))

variable {s : System} {d : Descriptors} {fd len : Word} {dst : Nat → Byte}

theorem TakesAll.respects (all : TakesAll s fd dst len) : Respects s fd dst len := by
  obtain ⟨s',result⟩ := all
  refine ⟨s',_,_,result,?_⟩
  cases source : available s fd with
  | none => exact .inl ⟨rfl,rfl⟩
  | some bytes =>
    refine .inr ⟨bytes,min len.toNat bytes.length,rfl,rfl,min_le_left ..,min_le_right ..,?_⟩
    rw [← List.take_eq_take_min]

/-! The three sources. -/

theorem takes_keys (positive : 0 ≤ len.toInt) : TakesAll s 0 dst len := by
  have bounds := s.keys.bounds
  have size : min s.keys.keyBufferLen len.toNat =
      (min len.toNat (min s.keys.keyBufferLen.toNat 256) : Nat) := by
    omega
  refine ⟨s,?_⟩
  simp only [sysReadHandler,available,if_true,readKeys_eq positive,Except.map,List.take_take,
    List.length_take,List.length_ofFn,size,min_comm len.toNat s.keys.keyBufferLen.toNat]

theorem overlay_nil (dst : Nat → Byte) : overlay dst [] = dst := rfl

theorem overlay_one (dst : Nat → Byte) (b : Byte) :
    overlay dst [b] = fun i => if i = 0 then b else dst i := by
  funext i
  cases i <;> rfl

theorem takes_serial : TakesAll s 3 dst len := by
  have other : (3 : Word) ≠ 0 := by decide
  simp only [TakesAll,sysReadHandler,available,other,if_false,if_true,readSerial]
  cases s.received with
  | none =>
    have zero : min len.toNat ([] : List Byte).length = 0 := Nat.min_zero _
    exact ⟨_,by simp only [Option.toList,List.take_nil,overlay_nil,zero]; rfl⟩
  | some b =>
    by_cases some' : 0 < len
    · have positive : 0 < len.toNat := some'
      have one : [b].take len.toNat = [b] := List.take_of_length_le positive
      have count : min len.toNat [b].length = 1 := min_eq_right positive
      exact ⟨_,by simp only [some',if_true,Option.toList,one,count,overlay_one]; rfl⟩
    · have zero : len.toNat = 0 := Nat.eq_zero_of_not_pos some'
      exact ⟨_,by simp only [some',if_false,Option.toList,zero,Nat.zero_min,List.take_zero,
        overlay_nil]; rfl⟩

theorem takes_file (sound : Sound d s) (keyboard : fd ≠ 0) (serial : fd ≠ 3) :
    TakesAll s fd dst len := by
  refine ⟨s,?_⟩
  simp only [sysReadHandler,available,keyboard,serial,if_false]
  cases fdToName s.table fd with
  | none => rfl
  | some name =>
    cases found : findFile s.files name with
    | none => simp only [ramfsRead,found,Except.map,Option.map_none]
    | some i =>
      have bound := sound.fit i
      obtain ⟨toRead,size,read⟩ := read_eq found bound dst len
      have whole : (fileContents (s.files i)).val.length = (s.files i).size.toNat := by
        simp only [fileContents,List.length_take,List.length_ofFn]
        omega
      have returned : toRead.toInt = (min len.toNat (s.files i).size.toNat : Nat) := by
        rw [toInt_small (by omega),size,min_comm]
      have front : (fileContents (s.files i)).val.take len.toNat =
          (List.ofFn (s.files i).data).take toRead.toNat := by
        rw [fileContents,List.take_take,size,min_comm]
      simp only [found,read,Except.map,Option.map_some,whole,returned,front]

/-- Every read respects its source, unless its length for the key buffer is negative as an
`int`: that is compared as smaller than what the buffer holds and copied as a size. -/
theorem read_respects_iff {past : List (System × Event)} {t : OpenTable} {keys : KeyInput}
    (run : Run Step (bootSystem t keys) past s) (fd : Word) (dst : Nat → Byte) (len : Word) :
    (Respects s fd dst len ↔ (fd = 0 → len.toNat < 2^31)) ∧
      ((fd = 0 → len.toNat < 2^31) → TakesAll s fd dst len) := by
  have sound := Sound.run run
  have takes : (fd = 0 → len.toNat < 2^31) → TakesAll s fd dst len := by
    intro small
    by_cases keyboard : fd = 0
    · subst keyboard
      have bound := small rfl
      apply takes_keys
      rw [BitVec.toInt_eq_toNat_cond]
      split_ifs <;> omega
    · by_cases serial : fd = 3
      · subst serial
        exact takes_serial
      · exact takes_file sound keyboard serial
  refine ⟨⟨?_,fun small => (takes small).respects⟩,takes⟩
  rintro ⟨s',r,dst',result,-⟩ rfl
  have returns := (sound.read_returns 0 dst len).mp ⟨s',r,dst',result⟩
  by_contra large
  apply returns
  refine ⟨rfl,?_⟩
  rw [BitVec.toInt_eq_toNat_cond]
  have bound := len.isLt
  split_ifs <;> omega

/-- A file is created and opened, -/
def openedNote : System := (sysOpenHandler withNote noteName).1

/-- three bytes are written to it, -/
def writtenNote : System :=
  match sysWriteHandler openedNote 4 (fun i => BitVec.ofNat 8 (97 + i)) 3 with
  | .ok (s,_) => s
  | .error _ => openedNote

theorem writtenNote_available : available writtenNote 4 = some [97,98,99] := by
  decide +kernel

/-- and are read back by a call with the longest length. -/
theorem read_respects_note : ∃ past, Run Step (bootSystem plainTable noKeys) past writtenNote ∧
    available writtenNote 4 = some [97,98,99] ∧ Respects writtenNote 4 (fun _ => 0) 0xffffffff := by
  have made : Step (bootSystem plainTable noKeys) (.syscall (.create noteName)
      (.code (sysCreateHandler (bootSystem plainTable noKeys) noteName).2)) withNote := rfl
  have opens : Step withNote (.syscall (.open noteName) (.code (sysOpenHandler withNote noteName).2))
      openedNote := rfl
  have run := Run.cons made (Run.single opens)
  obtain ⟨s,r,wrote⟩ := (Sound.run run).write_returns 4 (fun i => BitVec.ofNat 8 (97 + i)) 3
  have writes : Step openedNote (.syscall (.write 4 (fun i => BitVec.ofNat 8 (97 + i)) 3) (.code r)) writtenNote := by
    simp only [Step,syscallHandler,writtenNote,wrote,Except.map]
  have whole := run.snoc writes
  exact ⟨_,whole,writtenNote_available,(read_respects_iff whole 4 (fun _ => 0) 0xffffffff).1.mpr (by decide)⟩

/-- Nothing was typed and everything is asked for. -/
theorem read_all_keys : ¬Respects (bootSystem plainTable noKeys) 0 (fun _ => 0) 0xffffffff := by
  rintro ⟨s',r,dst',result,-⟩
  have sound : Sound (fun _ => none) (bootSystem plainTable noKeys) := Sound.boot plainTable noKeys
  have returns := (sound.read_returns 0 (fun _ => 0) 0xffffffff).mp ⟨s',r,dst',result⟩
  exact returns (by decide)

end NimrodOS.Syscall
