import NimrodOS.RamfsCalls

/-! Every call answers as the map does, as long as names fit in their slots. -/
namespace NimrodOS.Ramfs

open Libc

structure Refines (files : Files) (m : FileMap) : Prop where
  represents : SlotMap.Represents (table files) m.files
  fit : SizesFit files

variable {files : Files} {m : FileMap} {i j : Fin 64} {f : RamfsFile} {name : CString}

namespace Refines

theorem found (ref : Refines files m) (at' : findFile files name = some i) :
    m.files.lookup name = some (fileContents (files i)) := by
  obtain ⟨used,same⟩ := findFile_some at'
  exact ref.represents.lookup_of_slot (table_eq_some.mpr ⟨used,same,rfl⟩)

theorem found_mem (ref : Refines files m) (at' : findFile files name = some i) :
    name ∈ m.files :=
  Finmap.mem_of_lookup_eq_some (ref.found at')

theorem missing (ref : Refines files m) (absent : findFile files name = none) :
    m.files.lookup name = none := by
  refine ref.represents.lookup_none fun i a here => ?_
  obtain ⟨used,same,-⟩ := table_eq_some.mp here
  exact same ▸ findFile_none absent used

theorem missing_notMem (ref : Refines files m) (absent : findFile files name = none) :
    name ∉ m.files :=
  Finmap.lookup_eq_none.mp (ref.missing absent)

theorem contents_length (ref : Refines files m) (i : Fin 64) :
    (fileContents (files i)).val.length = (files i).size.toNat := fileContents_length (ref.fit i)

/-- There is no free slot just when the map has 64 files. -/
theorem full_iff (ref : Refines files m) :
    findFreeSlot files = none ↔ m.files.keys.card = 64 := by
  rw [← ref.represents.full_iff]
  constructor
  · intro full i
    rw [table,if_neg (findFreeSlot_none full)]
    simp
  · intro full
    by_contra free
    obtain ⟨i,at'⟩ := Option.ne_none_iff_exists'.mp free
    exact full i (if_pos (findFreeSlot_some at'))

/-- Storing a file in its own slot, or in a free one when it is new. -/
theorem store (ref : Refines files m) (used : f.used ≠ 0) (bound : f.size.toNat ≤ 4096)
    (slot : findFile files (fileName f) = some i ∨
      findFile files (fileName f) = none ∧ (files i).used = 0) :
    ∃ m', m'.files = m.files.insert (fileName f) (fileContents f) ∧
      Refines (setFile files i f) m' := by
  have rep : SlotMap.Represents (table (setFile files i f))
      (m.files.insert (fileName f) (fileContents f)) := by
    rw [table_setFile_used used]
    rcases slot with found | ⟨absent,free⟩
    · obtain ⟨usedI,same⟩ := findFile_some found
      have here : table files i = some (fileName f,fileContents (files i)) :=
        table_eq_some.mpr ⟨usedI,same,rfl⟩
      refine ref.represents.insert (fun j a held key => ?_) fun a held => ?_
      · exact ref.represents.distinct j i a _ held here key
      · rw [Option.some.inj (held.symm.trans here)]
    · refine ref.represents.insert (fun j a held key => ?_) fun a held => ?_
      · obtain ⟨usedJ,same,-⟩ := table_eq_some.mp held
        exact absurd (same.trans key) (findFile_none absent usedJ)
      · exact absurd free (table_eq_some.mp held).1
  exact ⟨⟨_,rep.card_le⟩,rfl,rep,setFile_fits ref.fit bound⟩

theorem remove (ref : Refines files m) (at' : findFile files name = some i) :
    ∃ m', m'.files = m.files.erase name ∧ Refines (setFile files i (deletedFile (files i))) m' := by
  obtain ⟨used,same⟩ := findFile_some at'
  have here : table files i = some (name,fileContents (files i)) :=
    table_eq_some.mpr ⟨used,same,rfl⟩
  have rep := ref.represents.erase here
  have unused : (deletedFile (files i)).used = 0 := rfl
  rw [← table_setFile_unused unused] at rep
  exact ⟨⟨_,rep.card_le⟩,rfl,rep,setFile_fits ref.fit (Nat.zero_le _)⟩

end Refines

/-! The calls. -/

theorem writeFile_refines (ref : Refines files m) (at' : findFile files name = some i)
    (data : Nat → Byte) (size : Word) :
    ∃ files' m', writeFile files i data size = .ok (files',(min size.toNat 4096 : Nat)) ∧
      m'.files = m.files.insert name (clip (bytesAt data size.toNat)) ∧ Refines files' m' := by
  obtain ⟨f,result,marked,named,small,contents⟩ := writeFile_puts files i data size
  obtain ⟨used,same⟩ := findFile_some at'
  have same : fileName f = name := (Subtype.ext (congrArg Libc.contents named)).trans same
  obtain ⟨m',stored,ref'⟩ := ref.store (marked ▸ used) small (.inl (same.symm ▸ at'))
  exact ⟨_,m',result,by rw [stored,contents,same],ref'⟩

theorem create_refines (ref : Refines files m) (short : Short name) :
    ∃ m', Answers m (.create name) (.code (ramfsCreate files name).2) m' ∧
      Refines (ramfsCreate files name).1 m' := by
  rcases create_cases files name with ⟨present,made⟩ | ⟨absent,⟨full,made⟩ | ⟨i,free,made⟩⟩
  all_goals rw [made]
  · obtain ⟨i,at'⟩ := Option.ne_none_iff_exists'.mp present
    refine ⟨m,?_,ref⟩
    rw [Answers,if_pos (ref.found_mem at')]
    exact ⟨rfl,rfl⟩
  · refine ⟨m,?_,ref⟩
    rw [Answers,if_neg (ref.missing_notMem absent),if_pos (ref.full_iff.mp full)]
    exact ⟨rfl,rfl⟩
  · have room : m.files.keys.card ≠ 64 := by
      rw [Ne,← ref.full_iff,free]
      exact Option.some_ne_none i
    have named : fileName (createdFile (files i) name) = name :=
      fileName_created.trans (cut_of_short short)
    obtain ⟨m',stored,ref'⟩ := ref.store (f := createdFile (files i) name)
      createdFile_used (Nat.zero_le _) (.inr ⟨by rwa [named],findFreeSlot_some free⟩)
    rw [named,fileContents_created] at stored
    refine ⟨m',?_,ref'⟩
    rw [Answers,if_neg (ref.missing_notMem absent),if_neg room]
    exact ⟨rfl,stored⟩

theorem write_refines (ref : Refines files m) (short : Short name) (data : Nat → Byte)
    (size : Word) : ∃ files' r m', ramfsWrite files name data size = .ok (files',r) ∧
      Answers m (.write name data size) (.code r) m' ∧ Refines files' m' := by
  obtain ⟨made,answer,refMade⟩ := create_refines ref short
  rcases write_cases files name data size with
    ⟨i,at',result⟩ | ⟨at',⟨refused,result⟩ | ⟨success,outcome⟩⟩
  · obtain ⟨files',m',written,stored,ref'⟩ := writeFile_refines ref at' data size
    refine ⟨files',_,m',result.trans written,?_,ref'⟩
    rw [Answers,if_neg fun both => both.1 (ref.found_mem at')]
    exact ⟨rfl,stored⟩
  all_goals
    have absent := ref.missing_notMem at'
    rw [Answers,if_neg absent] at answer
    split_ifs at answer with full
  · obtain ⟨-,rfl⟩ := answer
    refine ⟨_,-1,made,result,?_,refMade⟩
    rw [Answers,if_pos ⟨absent,full⟩]
    exact ⟨rfl,rfl⟩
  · exact absurd answer.1 refused
  · exact absurd (answer.1.symm.trans success) (by decide)
  · have present : name ∈ made.files := by
      rw [answer.2,Finmap.mem_insert]
      exact .inl rfl
    rcases outcome with ⟨i,again,result⟩ | ⟨lost,-⟩
    · obtain ⟨files',m',written,stored,ref'⟩ := writeFile_refines refMade again data size
      refine ⟨files',_,m',result.trans written,?_,ref'⟩
      rw [Answers,if_neg fun both => full both.2]
      exact ⟨rfl,by rw [stored,answer.2,Finmap.insert_insert]⟩
    · exact absurd present (refMade.missing_notMem lost)

theorem append_refines (ref : Refines files m) (data : Nat → Byte)
    (size : Word) : ∃ files' r m', ramfsAppend files name data size = .ok (files',r) ∧
      Answers m (.append name data size) (.code r) m' ∧ Refines files' m' := by
  cases at' : findFile files name with
  | none =>
    refine ⟨files,-1,m,by simp [ramfsAppend,at'],?_,ref⟩
    rw [Answers,ref.missing at']
    exact ⟨rfl,rfl⟩
  | some i =>
    obtain ⟨used,same⟩ := findFile_some at'
    obtain ⟨f,result,marked,named,small,contents⟩ := append_puts at' (ref.fit i) data size
    have same : fileName f = name := (Subtype.ext (congrArg Libc.contents named)).trans same
    obtain ⟨m',stored,ref'⟩ := ref.store (marked ▸ used) small (.inl (same.symm ▸ at'))
    refine ⟨_,_,m',result,?_,ref'⟩
    have length := ref.contents_length i
    rw [Answers,ref.found at']
    exact ⟨by simp only [length],by rw [stored,contents,same]⟩

theorem read_refines (ref : Refines files m) (buf : Nat → Byte) (bufSize : Word) :
    ∃ r buf', ramfsRead files name buf bufSize = .ok (r,buf') ∧
      Answers m (.read name buf bufSize) (.buffer r buf') m := by
  cases at' : findFile files name with
  | none =>
    refine ⟨-1,buf,by simp [ramfsRead,at'],?_⟩
    rw [Answers,ref.missing at']
    exact ⟨rfl,rfl,rfl⟩
  | some i =>
    obtain ⟨used,same⟩ := findFile_some at'
    have bound := ref.fit i
    obtain ⟨toRead,shorter,result⟩ := read_eq at' bound buf bufSize
    refine ⟨_,_,result,?_⟩
    rw [Answers,ref.found at']
    refine ⟨rfl,?_,?_⟩
    · rw [toInt_small (by omega),shorter,ref.contents_length i]
    · rw [shorter,Nat.min_comm,← List.take_take]
      rfl

theorem delete_refines (ref : Refines files m) :
    ∃ m', Answers m (.delete name) (.code (ramfsDelete files name).2) m' ∧
      Refines (ramfsDelete files name).1 m' := by
  rcases delete_cases files name with ⟨absent,kept⟩ | ⟨i,at',gone⟩
  · rw [kept]
    refine ⟨m,?_,ref⟩
    rw [Answers,if_neg (ref.missing_notMem absent)]
    exact ⟨rfl,rfl⟩
  · rw [gone]
    obtain ⟨m',erased,ref'⟩ := ref.remove at'
    refine ⟨m',?_,ref'⟩
    rw [Answers,if_pos (ref.found_mem at')]
    exact ⟨rfl,erased⟩

theorem exists_refines (ref : Refines files m) :
    Answers m (.exists name) (.code (ramfsExists files name)) m := by
  refine ⟨rfl,?_⟩
  unfold ramfsExists
  cases at' : findFile files name with
  | none => simp [ref.missing_notMem at']
  | some i => simp [ref.found_mem at']

theorem size_refines (ref : Refines files m) :
    Answers m (.size name) (.size (ramfsSize files name)) m := by
  refine ⟨rfl,?_⟩
  unfold ramfsSize
  cases at' : findFile files name with
  | none => rw [ref.missing at']
  | some i =>
    rw [ref.found at']
    exact (ref.contents_length i).symm

/-! Counting and listing go through the slots in order. -/

def usedNames (files : Files) (is : List (Fin 64)) : List CString :=
  is.filterMap fun i => (table files i).map Prod.fst

theorem usedNames_cons (is : List (Fin 64)) : usedNames files (i :: is) =
    if (files i).used ≠ 0 then fileName (files i) :: usedNames files is else usedNames files is := by
  rw [usedNames,List.filterMap_cons,table]
  by_cases unused : (files i).used = 0
  · rw [if_pos unused,if_neg (not_not.mpr unused)]
    rfl
  · rw [if_neg unused,if_pos unused]
    rfl

theorem count_eq (is : List (Fin 64)) (count : Int) :
    is.foldl (fun count i => if (files i).used ≠ 0 then count + 1 else count) count =
      count + (usedNames files is).length := by
  induction is generalizing count with
  | nil => simp [usedNames]
  | cons i is ih =>
    rw [List.foldl_cons,ih,usedNames_cons]
    split_ifs
    · rw [List.length_cons]
      omega
    · rfl

/-- The rows after the loop: those that were there and the first names that still fit. -/
theorem listLoop_eq (max : Int) (is : List (Fin 64)) (names : List (List Byte)) :
    listLoop files max is names = names ++
      ((usedNames files is).take (max.toNat - names.length)).map Subtype.val := by
  induction is generalizing names with
  | nil => simp [listLoop,usedNames]
  | cons i is ih =>
    rw [listLoop]
    split_ifs with more used
    · have left : max.toNat - names.length = (max.toNat - (names.length + 1)) + 1 := by omega
      rw [ih,usedNames_cons,if_pos used,left,List.length_append,List.take_succ_cons,List.map_cons,
        List.append_assoc]
      rfl
    · rw [ih,usedNames_cons,if_neg used]
    · have none : max.toNat - names.length = 0 := by omega
      rw [none,List.take_zero,List.map_nil,List.append_nil]

theorem list_refines (ref : Refines files m) (max : Int) :
    Answers m (.list max) (.names (ramfsList files max).1 (ramfsList files max).2) m := by
  have rows : (ramfsList files max).2 =
      ((SlotMap.keys (table files)).take max.toNat).map Subtype.val := listLoop_eq max _ []
  refine ⟨rfl,rfl,_,rows,?_,?_,?_⟩
  · exact ref.represents.keys_nodup.sublist (List.take_sublist _ _)
  · intro name member
    exact ref.represents.mem_keys.mp (List.mem_of_mem_take member)
  · rw [List.length_take,ref.represents.keys_length]

theorem fileCount_refines (ref : Refines files m) :
    Answers m .fileCount (.code (ramfsFileCount files)) m := by
  refine ⟨rfl,?_⟩
  rw [ramfsFileCount,count_eq,← ref.represents.keys_length,Int.zero_add]
  rfl

end NimrodOS.Ramfs
