import NimrodOS.Lib.Run
import NimrodOS.RamfsRefines

/-! Sequences of calls. -/
namespace NimrodOS.Ramfs

open Libc Transition

/-- The file that a call is about. -/
def Op.name : Op → Option CString
  | .create name | .write name _ _ | .append name _ _ | .read name _ _ => some name
  | .delete name | .exists name | .size name => some name
  | .list _ | .fileCount => none

def Op.Short (op : Op) : Prop := ∀ name ∈ op.name, Ramfs.Short name

instance : DecidablePred Op.Short :=
  fun op => inferInstanceAs (Decidable (∀ name ∈ op.name, Ramfs.Short name))

/-- A call of the code, with its reply. -/
def Serves (files : Files) (call : Op × Reply) (files' : Files) : Prop :=
  step files call.1 = .ok (files',call.2)

/-- The same for the map. -/
def MapServes (m : FileMap) (call : Op × Reply) (m' : FileMap) : Prop := Answers m call.1 call.2 m'

/-- The slots of all other files are as they were. -/
def OthersKept (files : Files) (op : Op) (files' : Files) : Prop :=
  ∀ i, (files i).used ≠ 0 → op.name ≠ some (fileName (files i)) → files' i = files i

variable {files files' : Files} {m : FileMap} {op : Op} {call : Op × Reply} {name : CString}

theorem refines_init : Refines ramfsInit FileMap.empty :=
  ⟨SlotMap.represents_empty,ramfsInit_fits⟩

theorem step_refines (ref : Refines files m) (short : op.Short) :
    ∃ call files' m', call.1 = op ∧ Serves files call files' ∧ MapServes m call m' ∧
      Refines files' m' := by
  cases op with
  | create name =>
    obtain ⟨m',answer,ref'⟩ := create_refines ref (short name rfl)
    exact ⟨(_,_),_,m',rfl,rfl,answer,ref'⟩
  | write name data size =>
    obtain ⟨files',r,m',result,answer,ref'⟩ := write_refines ref (short name rfl) data size
    exact ⟨(_,.code r),files',m',rfl,by simp [Serves,step,result,Except.map],answer,ref'⟩
  | append name data size =>
    obtain ⟨files',r,m',result,answer,ref'⟩ := append_refines ref data size
    exact ⟨(_,.code r),files',m',rfl,by simp [Serves,step,result,Except.map],answer,ref'⟩
  | read name buf bufSize =>
    obtain ⟨r,buf',result,answer⟩ := read_refines ref buf bufSize
    exact ⟨(_,.buffer r buf'),files,m,rfl,by simp [Serves,step,result,Except.map],answer,ref⟩
  | delete name =>
    obtain ⟨m',answer,ref'⟩ := delete_refines ref
    exact ⟨(_,_),_,m',rfl,rfl,answer,ref'⟩
  | «exists» name => exact ⟨(_,_),_,m,rfl,rfl,exists_refines ref,ref⟩
  | size name => exact ⟨(_,_),_,m,rfl,rfl,size_refines ref,ref⟩
  | list max => exact ⟨(_,_),_,m,rfl,rfl,list_refines ref max,ref⟩
  | fileCount => exact ⟨(_,_),_,m,rfl,rfl,fileCount_refines ref,ref⟩

/-! What a call leaves alone. -/

theorem found_apart {i j : Fin 64} (at' : findFile files name = some i)
    (other : some name ≠ some (fileName (files j))) : j ≠ i := by
  rintro rfl
  exact other (congrArg some (findFile_some at').2.symm)

theorem create_keeps : OthersKept files (.create name) (ramfsCreate files name).1 := by
  intro j used other
  rcases create_cases files name with ⟨-,made⟩ | ⟨-,⟨-,made⟩ | ⟨i,free,made⟩⟩
  all_goals rw [made]
  apply setFile_of_ne
  rintro rfl
  exact used (findFreeSlot_some free)

theorem write_keeps {data : Nat → Byte} {size : Word} {r : Int}
    (result : ramfsWrite files name data size = .ok (files',r)) :
    OthersKept files (.write name data size) files' := by
  intro j used other
  -- a file that is made first keeps the other slots by itself
  have created : (ramfsCreate files name).1 j = files j := create_keeps j used other
  rcases write_cases files name data size with
    ⟨i,at',write⟩ | ⟨-,⟨-,write⟩ | ⟨-,⟨i,again,write⟩ | ⟨-,write⟩⟩⟩
  · obtain ⟨f,rfl,-⟩ := writeFile_served (write.symm.trans result)
    exact setFile_of_ne (found_apart at' other)
  · obtain ⟨rfl,-⟩ := Prod.mk.inj (Except.ok.inj (write.symm.trans result))
    exact created
  · obtain ⟨f,rfl,-⟩ := writeFile_served (write.symm.trans result)
    rw [← created] at other
    rw [setFile_of_ne (found_apart again other),created]
  · cases write.symm.trans result

theorem append_keeps {data : Nat → Byte} {size : Word} {r : Int}
    (result : ramfsAppend files name data size = .ok (files',r)) :
    OthersKept files (.append name data size) files' := by
  intro j used other
  rcases append_served result with rfl | ⟨i,f,at',rfl,-⟩
  · rfl
  · exact setFile_of_ne (found_apart at' other)

theorem delete_keeps : OthersKept files (.delete name) (ramfsDelete files name).1 := by
  intro j used other
  rcases delete_cases files name with ⟨-,kept⟩ | ⟨i,at',gone⟩
  · rw [kept]
  · rw [gone]
    exact setFile_of_ne (found_apart at' other)

theorem step_keeps (served : Serves files call files') : OthersKept files call.1 files' := by
  obtain ⟨op,reply⟩ := call
  have leaves := step_leaves served
  cases op with
  | create name =>
    obtain rfl := leaves
    exact create_keeps
  | write name data size =>
    obtain ⟨r,result⟩ := leaves
    exact write_keeps result
  | append name data size =>
    obtain ⟨r,result⟩ := leaves
    exact append_keeps result
  | delete name =>
    obtain rfl := leaves
    exact delete_keeps
  | _ =>
    obtain rfl := leaves
    intro _ _ _
    rfl

/-- Calls with short names never fault, and get the replies of the map, which the slots
represent at every moment. No call touches the file of another name. -/
theorem files_refine_map (ops : List Op) (short : ∀ op ∈ ops, op.Short) :
    (∃ past files answered m, past.map (fun entry => entry.2.1) = ops ∧
      Run Serves ramfsInit past files ∧ Run MapServes FileMap.empty answered m ∧
      answered.map Prod.snd = past.map Prod.snd ∧ Refines files m) ∧
    ∀ files call files', Serves files call files' → OthersKept files call.1 files' := by
  refine ⟨?_,fun _ _ _ => step_keeps⟩
  apply simulation refines_init
  · intro files m op ref short
    exact step_refines ref short
  · exact short

/-- A file that is filled beyond its room, listed and deleted. -/
def noteCalls : List Op :=
  let note : CString := ⟨[110],by decide⟩
  [.write note (fun _ => 65) 4000,.append note (fun _ => 66) 200,.list 64,.delete note]

theorem files_refine_map_notes :
    ∃ past files answered m, past.map (fun entry => entry.2.1) = noteCalls ∧
      Run Serves ramfsInit past files ∧ Run MapServes FileMap.empty answered m ∧
      answered.map Prod.snd = past.map Prod.snd ∧ Refines files m :=
  (files_refine_map noteCalls (by decide)).1

end NimrodOS.Ramfs
