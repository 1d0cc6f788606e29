import Mathlib.Logic.Function.Basic
import NimrodOS.Lib.Run
import NimrodOS.RamfsCalls

/-! Names of any length. A lookup compares the whole name, a slot keeps its first 31
characters. -/
namespace NimrodOS.Ramfs

open Libc Transition

/-- The name in a slot that is in use. -/
def stored (files : Files) (i : Fin 64) : Option CString := (table files i).map Prod.fst

/-- No two slots in use hold the same name. -/
def NamesUnique (files : Files) : Prop :=
  ∀ i j name, stored files i = some name → stored files j = some name → i = j

/-- The table after a call. Page 0 is mapped, so a write through the null pointer goes to
the bottom of memory and leaves the table as `ramfs_create` made it. -/
def Changes (files : Files) (op : Op) (files' : Files) : Prop :=
  (∃ reply, step files op = .ok (files',reply)) ∨
    step files op = .error .nullPointer ∧
      ∃ name data size, op = .write name data size ∧ files' = (ramfsCreate files name).1

def Op.creates : Op → Option CString
  | .create name | .write name _ _ => some name
  | _ => none

/-- A new file with a long name, of which a file in use has the first 31 characters. -/
def Collides (files : Files) (op : Op) : Prop :=
  ∃ name, op.creates = some name ∧ ¬Short name ∧ findFreeSlot files ≠ none ∧
    ∃ i, stored files i = some (cut name)

variable {files files' : Files} {op : Op} {name : CString} {i j : Fin 64} {f : RamfsFile}

theorem stored_eq_some : stored files i = some name ↔
    (files i).used ≠ 0 ∧ fileName (files i) = name := by
  simp only [stored,Option.map_eq_some_iff,Prod.exists,table_eq_some]
  constructor
  · rintro ⟨_,_,⟨used,same,-⟩,rfl⟩
    exact ⟨used,same⟩
  · rintro ⟨used,same⟩
    exact ⟨name,_,⟨used,same,rfl⟩,rfl⟩

theorem stored_setFile_used (used : f.used ≠ 0) :
    stored (setFile files i f) = Function.update (stored files) i (some (fileName f)) := by
  funext j
  rw [stored,table_setFile_used used,SlotMap.set,Function.update_apply]
  split_ifs <;> rfl

theorem stored_setFile_unused (unused : f.used = 0) :
    stored (setFile files i f) = Function.update (stored files) i none := by
  funext j
  rw [stored,table_setFile_unused unused,SlotMap.set,Function.update_apply]
  split_ifs <;> rfl

theorem stored_found (found : findFile files name = some i) : stored files i = some name :=
  stored_eq_some.mpr (findFile_some found)

theorem stored_free (free : findFreeSlot files = some i) : stored files i = none := by
  rw [stored,table,if_pos (findFreeSlot_some free)]
  rfl

/-- Writing to a file that is there keeps the names. -/
theorem stored_setFile_same (found : findFile files name = some i) (used : f.used = (files i).used)
    (named : f.name = (files i).name) : stored (setFile files i f) = stored files := by
  have before := stored_eq_some.mp (stored_found found)
  have same : fileName f = fileName (files i) := Subtype.ext (congrArg contents named)
  rw [stored_setFile_used (used ▸ before.1),same]
  exact Function.update_eq_self_iff.mpr (stored_eq_some.mpr ⟨before.1,rfl⟩).symm

/-! What a call does to the names. -/

/-- A file is made when its whole name is not found and there is room. -/
def Makes (files : Files) (name : CString) : Prop :=
  findFile files name = none ∧ findFreeSlot files ≠ none

theorem create_makes (makes : Makes files name) : ∃ i, stored files i = none ∧
    stored (ramfsCreate files name).1 = Function.update (stored files) i (some (cut name)) := by
  rcases create_cases files name with ⟨present,-⟩ | ⟨-,⟨full,-⟩ | ⟨i,free,made⟩⟩
  · exact absurd makes.1 present
  · exact absurd full makes.2
  · refine ⟨i,stored_free free,?_⟩
    rw [made,stored_setFile_used createdFile_used,fileName_created]

theorem create_keeps_all (makes : ¬Makes files name) : (ramfsCreate files name).1 = files := by
  rcases create_cases files name with ⟨-,made⟩ | ⟨absent,⟨-,made⟩ | ⟨i,free,made⟩⟩
  · rw [made]
  · rw [made]
  · have room : findFreeSlot files ≠ none := by simp [free]
    exact absurd ⟨absent,room⟩ makes

theorem writeFile_stored {data : Nat → Byte} {size : Word} {r : Int}
    (found : findFile files name = some i) (result : writeFile files i data size = .ok (files',r)) :
    stored files' = stored files := by
  obtain ⟨f,rfl,used,named⟩ := writeFile_served result
  exact stored_setFile_same found used named

/-- Apart from the file that it creates, a write changes no name. -/
theorem write_stored {data : Nat → Byte} {size : Word} {r : Int}
    (result : ramfsWrite files name data size = .ok (files',r)) :
    stored files' = stored (ramfsCreate files name).1 := by
  rcases write_cases files name data size with
    ⟨i,found,write⟩ | ⟨-,⟨-,write⟩ | ⟨-,⟨i,again,write⟩ | ⟨-,write⟩⟩⟩
  · have present : ¬Makes files name := fun makes => by simp [makes.1] at found
    rw [create_keeps_all present]
    exact writeFile_stored found (write.symm.trans result)
  · obtain ⟨rfl,-⟩ := Prod.mk.inj (Except.ok.inj (write.symm.trans result))
    rfl
  · exact writeFile_stored again (write.symm.trans result)
  · cases write.symm.trans result

theorem append_stored {data : Nat → Byte} {size : Word} {r : Int}
    (result : ramfsAppend files name data size = .ok (files',r)) :
    stored files' = stored files := by
  rcases append_served result with rfl | ⟨i,f,found,rfl,used,named⟩
  · rfl
  · exact stored_setFile_same found used named

theorem delete_stored {held : CString} (after : stored (ramfsDelete files name).1 i = some held) :
    stored files i = some held := by
  rcases delete_cases files name with ⟨-,kept⟩ | ⟨j,-,gone⟩
  · rwa [kept] at after
  · rw [gone,stored_setFile_unused rfl,Function.update_apply] at after
    split_ifs at after
    exact after

/-- Calls that may create a file change the names as `ramfs_create` does. -/
theorem changes_creates (moved : Changes files op files') (creates : op.creates = some name) :
    stored files' = stored (ramfsCreate files name).1 := by
  rcases moved with ⟨reply,served⟩ | ⟨-,written,data,size,rfl,rfl⟩
  · have leaves := step_leaves served
    cases op with
    | create written =>
      obtain rfl := Option.some.inj creates
      obtain rfl := leaves
      rfl
    | write written data size =>
      obtain rfl := Option.some.inj creates
      obtain ⟨r,result⟩ := leaves
      exact write_stored result
    | _ => cases creates
  · obtain rfl := Option.some.inj creates
    rfl

/-- The others add no name. -/
theorem changes_others {held : CString} (moved : Changes files op files')
    (creates : op.creates = none) (after : stored files' i = some held) :
    stored files i = some held := by
  rcases moved with ⟨reply,served⟩ | ⟨-,written,data,size,rfl,-⟩
  · have leaves := step_leaves served
    cases op with
    | create | write => cases creates
    | append name data size =>
      obtain ⟨r,result⟩ := leaves
      rwa [append_stored result] at after
    | delete name =>
      obtain rfl := leaves
      exact delete_stored after
    | _ =>
      obtain rfl := leaves
      exact after
  · cases creates

/-- A call stores one new name, or else it stores none. -/
theorem changes_cases (moved : Changes files op files') :
    (∃ name i, op.creates = some name ∧ Makes files name ∧ stored files i = none ∧
      stored files' = Function.update (stored files) i (some (cut name))) ∨
    (∀ name, op.creates = some name → ¬Makes files name) ∧
      ∀ i held, stored files' i = some held → stored files i = some held := by
  cases creates : op.creates with
  | none =>
    right
    constructor
    · intro name none
      cases none
    · intro i held
      exact changes_others moved creates
  | some name =>
    have names := changes_creates moved creates
    by_cases makes : Makes files name
    · obtain ⟨i,free,made⟩ := create_makes makes
      exact .inl ⟨name,i,rfl,makes,free,names.trans made⟩
    · rw [create_keeps_all makes] at names
      right
      constructor
      · rintro _ ⟨⟩
        exact makes
      · intro i held after
        exact names ▸ after

/-! Whole runs. -/

/-- Every stored name fits in its slot. -/
def NamesCut (files : Files) : Prop := ∀ i name, stored files i = some name → Short name

theorem changes_cut (namesCut : NamesCut files) (moved : Changes files op files') :
    NamesCut files' := by
  intro j held after
  rcases changes_cases moved with ⟨name,i,-,-,-,made⟩ | ⟨-,kept⟩
  · rw [made,Function.update_apply] at after
    split_ifs at after
    · obtain rfl := Option.some.inj after
      exact cut_short
    · exact namesCut j held after
  · exact namesCut j held (kept j held after)

/-- A file that is not found has no stored name, unless it was cut. -/
theorem cut_of_makes (makes : Makes files name) (held : stored files i = some (cut name)) :
    ¬Short name := by
  intro short
  rw [cut_of_short short,stored_eq_some] at held
  exact findFile_none makes.1 held.1 held.2

theorem makes_of_long (namesCut : NamesCut files) (long : ¬Short name)
    (room : findFreeSlot files ≠ none) : Makes files name := by
  refine ⟨?_,room⟩
  by_contra present
  obtain ⟨i,found⟩ := Option.ne_none_iff_exists'.mp present
  exact long (namesCut i name (stored_found found))

theorem changes_unique (namesCut : NamesCut files) (unique : NamesUnique files)
    (moved : Changes files op files') : NamesUnique files' ↔ ¬Collides files op := by
  rcases changes_cases moved with ⟨name,i,creates,makes,free,made⟩ | ⟨none,kept⟩
  · constructor
    · rintro unique' ⟨_,again,long,-,j,held⟩
      obtain rfl := Option.some.inj (creates.symm.trans again)
      have apart : j ≠ i := by
        rintro rfl
        cases free.symm.trans held
      apply apart
      apply unique' j i (cut name)
      · rw [made,Function.update_of_ne apart]
        exact held
      · rw [made,Function.update_self]
    · intro fine
      have fresh : ∀ j, stored files j ≠ some (cut name) := fun j held =>
        fine ⟨name,creates,cut_of_makes makes held,makes.2,j,held⟩
      intro j l held inJ inL
      rw [made,Function.update_apply] at inJ inL
      split_ifs at inJ inL with first second second
      · rw [first,second]
      · exact absurd (inL.trans inJ.symm) (fresh l)
      · exact absurd (inJ.trans inL.symm) (fresh j)
      · exact unique j l held inJ inL
  · constructor
    · rintro - ⟨name,creates,long,room,-⟩
      exact none name creates (makes_of_long namesCut long room)
    · intro _ j l held inJ inL
      exact unique j l held (kept j held inJ) (kept l held inL)

theorem namesCut_init : NamesCut ramfsInit := by
  intro i name held
  cases held

theorem namesUnique_init : NamesUnique ramfsInit := by
  intro i j name held
  cases held

/-! Copies stay inside of a slot, so runs never come to a stop. -/

theorem writeFile_fits (fit : SizesFit files) (i : Fin 64) (data : Nat → Byte) (size : Word) :
    ∃ files' r, writeFile files i data size = .ok (files',r) ∧ SizesFit files' := by
  obtain ⟨kept,written,clipped,-,result⟩ := writeFile_eq files i data size
  refine ⟨_,_,result,setFile_fits fit ?_⟩
  show kept.toNat ≤ 4096
  omega

theorem write_changes (fit : SizesFit files) (name : CString) (data : Nat → Byte) (size : Word) :
    ∃ files', Changes files (.write name data size) files' ∧ SizesFit files' := by
  have served {files' : Files} {r : Int} (result : ramfsWrite files name data size = .ok (files',r)) :
      Changes files (.write name data size) files' :=
    .inl ⟨.code r,by simp [step,result,Except.map]⟩
  have made : SizesFit (ramfsCreate files name).1 := create_fits fit
  rcases write_cases files name data size with
    ⟨i,-,write⟩ | ⟨-,⟨-,write⟩ | ⟨-,⟨i,-,write⟩ | ⟨-,write⟩⟩⟩
  · obtain ⟨files',r,result,fit'⟩ := writeFile_fits fit i data size
    exact ⟨files',served (write.trans result),fit'⟩
  · exact ⟨_,served write,made⟩
  · obtain ⟨files',r,result,fit'⟩ := writeFile_fits made i data size
    exact ⟨files',served (write.trans result),fit'⟩
  · exact ⟨_,.inr ⟨by simp [step,write,Except.map],name,data,size,rfl,rfl⟩,made⟩

theorem append_changes (fit : SizesFit files) (name : CString) (data : Nat → Byte) (size : Word) :
    ∃ files', Changes files (.append name data size) files' ∧ SizesFit files' := by
  have served {files' : Files} {r : Int}
      (result : ramfsAppend files name data size = .ok (files',r)) :
      Changes files (.append name data size) files' :=
    .inl ⟨.code r,by rw [step,result]; rfl⟩
  cases found : findFile files name with
  | none => exact ⟨files,served (r := -1) (by simp [ramfsAppend,found]),fit⟩
  | some i =>
    have bound := fit i
    obtain ⟨kept,written,clipped,sum,-,result⟩ := append_eq found bound data size
    refine ⟨_,served result,setFile_fits fit ?_⟩
    show ((files i).size + kept).toNat ≤ 4096
    omega

theorem read_changes (fit : SizesFit files) (name : CString) (buf : Nat → Byte) (bufSize : Word) :
    Changes files (.read name buf bufSize) files := by
  have served {r : Int} {buf' : Nat → Byte}
      (result : ramfsRead files name buf bufSize = .ok (r,buf')) :
      Changes files (.read name buf bufSize) files :=
    .inl ⟨.buffer r buf',by rw [step,result]; rfl⟩
  cases found : findFile files name with
  | none => exact served (r := -1) (by simp [ramfsRead,found]; rfl)
  | some i =>
    obtain ⟨toRead,-,result⟩ := read_eq found (fit i) buf bufSize
    exact served result

theorem changes_exists (fit : SizesFit files) (op : Op) :
    ∃ files', Changes files op files' ∧ SizesFit files' := by
  cases op with
  | create name => exact ⟨_,.inl ⟨_,rfl⟩,create_fits fit⟩
  | write name data size => exact write_changes fit name data size
  | append name data size => exact append_changes fit name data size
  | read name buf bufSize => exact ⟨files,read_changes fit name buf bufSize,fit⟩
  | delete name => exact ⟨_,.inl ⟨_,rfl⟩,delete_fits fit⟩
  | _ => exact ⟨files,.inl ⟨_,rfl⟩,fit⟩

/-- The table behind a call is fixed. -/
theorem changes_once {other : Files} (left : Changes files op files') (right : Changes files op other) :
    files' = other := by
  rcases left with ⟨reply,served⟩ | ⟨fault,name,data,size,rfl,rfl⟩
  · rcases right with ⟨reply',served'⟩ | ⟨fault',-⟩
    · exact (Prod.mk.inj (Except.ok.inj (served.symm.trans served'))).1
    · cases served.symm.trans fault'
  · rcases right with ⟨reply',served'⟩ | ⟨-,_,_,_,same,rfl⟩
    · cases fault.symm.trans served'
    · cases same
      rfl

theorem changes_fits (fit : SizesFit files) (moved : Changes files op files') : SizesFit files' := by
  obtain ⟨other,moved',fit'⟩ := changes_exists fit op
  exact changes_once moved' moved ▸ fit'

theorem run_fits {past : List (Files × Op)} (run : Run Changes ramfsInit past files) : SizesFit files :=
  run.invariant ramfsInit_fits fun _ _ _ fit moved => changes_fits fit moved

/-- Any sequence of calls is a run. -/
theorem calls_run (ops : List Op) :
    ∃ past files, past.map Prod.snd = ops ∧ Run Changes ramfsInit past files := by
  obtain ⟨past,files,calls,run,-⟩ := Run.total ramfsInit_fits (fun _ op fit => changes_exists fit op) ops
  exact ⟨past,files,calls,run⟩

/-- Names stay unique in a run just when no call of it collides. -/
theorem names_unique_iff {past : List (Files × Op)} (run : Run Changes ramfsInit past files) :
    (∀ t ∈ past.map Prod.fst ++ [files], NamesUnique t) ↔
      ∀ entry ∈ past, ¬Collides entry.1 entry.2 := by
  have exactly := run.exact_states namesCut_init namesUnique_init (fun _ _ _ => changes_cut)
    fun _ _ _ => changes_unique
  exact exactly

/-- A name of 32 characters. -/
def longName : CString := ⟨List.replicate 32 97,by decide⟩

def createTwice : List Op := [.create longName,.create longName]

/-- The table after calls of which none goes through the null pointer. -/
def tableAfter (files : Files) (op : Op) : Files :=
  match step files op with
  | .ok (files',_) => files'
  | .error _ => files

theorem createTwice_run : Run Changes ramfsInit (trace tableAfter ramfsInit createTwice)
    (createTwice.foldl tableAfter ramfsInit) := by
  apply Run.cons (.inl ⟨_,rfl⟩)
  apply Run.cons (.inl ⟨_,rfl⟩)
  exact .nil

theorem names_unique_createTwice :
    (∀ t ∈ (trace tableAfter ramfsInit createTwice).map Prod.fst ++
      [createTwice.foldl tableAfter ramfsInit], NamesUnique t) ↔
      ∀ entry ∈ trace tableAfter ramfsInit createTwice, ¬Collides entry.1 entry.2 :=
  names_unique_iff createTwice_run

/-- Creating a file of that name twice leaves two files of the same name. -/
theorem long_name_twice : ¬∀ past files, Run Changes ramfsInit past files →
    ∀ t ∈ past.map Prod.fst ++ [files], NamesUnique t := by
  intro claim
  have unique := claim _ _ createTwice_run (createTwice.foldl tableAfter ramfsInit) (by simp)
  have first : stored (createTwice.foldl tableAfter ramfsInit) 0 = some (cut longName) := by
    decide +kernel
  have second : stored (createTwice.foldl tableAfter ramfsInit) 1 = some (cut longName) := by
    decide +kernel
  exact absurd (unique 0 1 _ first second) (by decide)

end NimrodOS.Ramfs
