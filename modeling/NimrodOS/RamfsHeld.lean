import NimrodOS.RamfsReach

/-! What is held under each name. Two slots may have the same name here; the first one counts. -/
namespace NimrodOS.Ramfs

open Libc

/-- The bytes of the file that is found under a name. -/
def held (files : Files) (name : CString) : Option (List Byte) :=
  (findFile files name).map fun i => (fileContents (files i)).val

/-- A file of this name can be written: it is there, or a slot is free for it. -/
def Room (files : Files) (name : CString) : Prop := held files name ≠ none ∨ findFreeSlot files ≠ none

variable {files : Files} {name other : CString} {i : Fin 64} {f : RamfsFile} {bytes : List Byte}
  {data buf : Nat → Byte} {size : Word}

theorem held_none : held files name = none ↔ findFile files name = none := Option.map_eq_none_iff

theorem held_found (found : findFile files name = some i) :
    held files name = some (fileContents (files i)).val := by rw [held,found,Option.map_some]

theorem held_slot (held' : held files name = some bytes) :
    ∃ i, findFile files name = some i ∧ (fileContents (files i)).val = bytes := Option.map_eq_some_iff.mp held'

theorem held_length (held' : held files name = some bytes) : bytes.length ≤ 4096 := by
  obtain ⟨i,-,rfl⟩ := held_slot held'
  exact (fileContents (files i)).property

theorem exists_iff : ramfsExists files name = 0 ↔ held files name = none := by
  rw [ramfsExists,held_none]
  split_ifs with found
  · exact iff_of_false one_ne_zero found
  · exact iff_of_true rfl (not_not.mp found)

/-! Slots. -/

/-- A file changes in its slot. -/
theorem held_setFile (found : findFile files name = some i) (used : f.used = (files i).used)
    (named : f.name = (files i).name) :
    held (setFile files i f) = Function.update (held files) name (some (fileContents f).val) := by
  funext other
  rw [held,findFile_setFile used named,Function.update_apply]
  by_cases same : other = name
  · subst same
    rw [found,if_pos rfl,Option.map_some,setFile,if_pos rfl]
  · rw [if_neg same,held]
    cases found' : findFile files other with
    | none => rfl
    | some j =>
      have apart : j ≠ i := by
        rintro rfl
        exact same ((findFile_some found').2.symm.trans (findFile_some found).2)
      rw [Option.map_some,Option.map_some,setFile_of_ne apart]

/-- A new file has the only slot with its name. -/
theorem findFile_created (missing : findFile files name = none) (free : findFreeSlot files = some i)
    (short : Short name) : findFile (setFile files i (createdFile (files i) name)) other =
      if other = name then some i else findFile files other := by
  have named : fileName (createdFile (files i) name) = cut name := fileName_created
  rw [cut_of_short short] at named
  have here : setFile files i (createdFile (files i) name) i = createdFile (files i) name := if_pos rfl
  by_cases same : other = name
  · subst same
    rw [if_pos rfl]
    cases found : findFile (setFile files i (createdFile (files i) other)) other with
    | none => exact absurd (by rw [here,named]) (findFile_none found (here ▸ createdFile_used))
    | some j =>
      obtain ⟨used,named'⟩ := findFile_some found
      by_cases apart : j = i
      · rw [apart]
      · rw [setFile_of_ne apart] at used named'
        exact absurd named' (findFile_none missing used)
  · rw [if_neg same]
    have unused := findFreeSlot_some free
    unfold findFile
    congr 1
    funext j
    by_cases apart : j = i
    · subst apart
      rw [here,unused]
      have differs : ¬strcmp (contents (createdFile (files j) name).name) other.val = 0 := fun equal =>
        same (Subtype.ext ((strcmp_eq_zero (contents_noNul _) other.property).mp equal).symm |>.trans named)
      simp [differs]
    · rw [setFile_of_ne apart]

theorem held_created (missing : findFile files name = none) (free : findFreeSlot files = some i)
    (short : Short name) : held (setFile files i (createdFile (files i) name)) =
      Function.update (held files) name (some []) := by
  funext other
  rw [held,findFile_created missing free short,Function.update_apply]
  by_cases same : other = name
  · rw [if_pos same,if_pos same,Option.map_some,setFile,if_pos rfl,fileContents_created]
    rfl
  · rw [if_neg same,if_neg same,held]
    cases found : findFile files other with
    | none => rfl
    | some j =>
      have apart : j ≠ i := by
        rintro rfl
        exact (findFile_some found).1 (findFreeSlot_some free)
      rw [Option.map_some,Option.map_some,setFile_of_ne apart]

/-! Calls. -/

theorem writeFile_held (fit : SizesFit files) (found : findFile files name = some i) (data : Nat → Byte)
    (size : Word) : ∃ files', writeFile files i data size = .ok (files',(min size.toNat 4096 : Nat)) ∧
      SizesFit files' ∧
      held files' = Function.update (held files) name (some ((bytesAt data size.toNat).take 4096)) := by
  obtain ⟨f,result,used,named,small,contents⟩ := writeFile_puts files i data size
  refine ⟨_,result,setFile_fits fit small,?_⟩
  rw [held_setFile found used named,contents]
  rfl

theorem write_held (fit : SizesFit files) (short : Short name) (room : Room files name)
    (data : Nat → Byte) (size : Word) :
    ∃ files', ramfsWrite files name data size = .ok (files',(min size.toNat 4096 : Nat)) ∧
      SizesFit files' ∧
      held files' = Function.update (held files) name (some ((bytesAt data size.toNat).take 4096)) := by
  cases found : findFile files name with
  | some i =>
    obtain ⟨files',result,fit',holds⟩ := writeFile_held fit found data size
    refine ⟨files',?_,fit',holds⟩
    rw [ramfsWrite,found]
    exact result
  | none =>
    obtain ⟨i,free⟩ : ∃ i, findFreeSlot files = some i := by
      rcases room with present | free
      · exact absurd (held_none.mpr found) present
      · exact Option.ne_none_iff_exists'.mp free
    have again : findFile (setFile files i (createdFile (files i) name)) name = some i :=
      (findFile_created found free short).trans (if_pos rfl)
    obtain ⟨files',result,fit',holds⟩ := writeFile_held
      (setFile_fits (i := i) (f := createdFile (files i) name) fit (Nat.zero_le _)) again data size
    refine ⟨files',?_,fit',?_⟩
    · rcases create_cases files name with ⟨present,-⟩ | ⟨-,⟨full,-⟩ | ⟨j,free',made⟩⟩
      · exact absurd found present
      · rw [free] at full
        cases full
      · obtain rfl := Option.some.inj (free.symm.trans free')
        rw [ramfsWrite,found,made]
        simp only [again]
        exact result
    · rw [holds,held_created found free short,Function.update_idem]

/-- Without room the write is refused. -/
theorem write_refused (full : ¬Room files name) (data : Nat → Byte) (size : Word) :
    ramfsWrite files name data size = .ok (files,-1) := by
  obtain ⟨absent,full⟩ := not_or.mp full
  have missing := held_none.mp (not_not.mp absent)
  simp [ramfsWrite,ramfsCreate,missing,not_not.mp full]

theorem append_held (fit : SizesFit files) (held' : held files name = some bytes) (data : Nat → Byte)
    (size : Word) : ∃ files' n, ramfsAppend files name data size = .ok (files',n) ∧ 0 ≤ n ∧
      SizesFit files' ∧ held files' =
        Function.update (held files) name (some ((bytes ++ bytesAt data size.toNat).take 4096)) := by
  obtain ⟨i,found,rfl⟩ := held_slot held'
  obtain ⟨f,result,used,named,small,contents⟩ := append_puts found (fit i) data size
  refine ⟨_,_,result,Int.natCast_nonneg _,setFile_fits fit small,?_⟩
  rw [held_setFile found used named,contents]
  rfl

theorem append_refused (absent : held files name = none) (data : Nat → Byte) (size : Word) :
    ramfsAppend files name data size = .ok (files,-1) := by
  rw [ramfsAppend,held_none.mp absent]

theorem read_held (fit : SizesFit files) (held' : held files name = some bytes) (buf : Nat → Byte)
    (bufSize : Word) : ramfsRead files name buf bufSize =
      .ok ((min bytes.length bufSize.toNat : Nat),overlay buf (bytes.take bufSize.toNat)) := by
  obtain ⟨i,found,rfl⟩ := held_slot held'
  have length := fileContents_length (fit i)
  have bound := fit i
  obtain ⟨toRead,shorter,result⟩ := read_eq found bound buf bufSize
  rw [result,toInt_small (by omega),shorter,length]
  refine congrArg (fun bytes => Except.ok (_,overlay buf bytes)) ?_
  rw [fileContents,List.take_take,Nat.min_comm]

end NimrodOS.Ramfs
