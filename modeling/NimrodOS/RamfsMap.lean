import NimrodOS.Lib.SlotMap
import NimrodOS.Ramfs

/-! What the file system is for: a finite map from names to contents with room for 64
files of at most 4096 bytes each. -/
namespace NimrodOS.Ramfs

open Libc

abbrev Contents := {bytes : List Byte // bytes.length ≤ 4096}

/-- The part that fits in a file. -/
def clip (bytes : List Byte) : Contents := ⟨bytes.take 4096,by simp⟩

structure FileMap where
  files : Finmap fun _ : CString => Contents
  room : files.keys.card ≤ 64

def FileMap.empty : FileMap := ⟨∅,by simp⟩

/-- The bytes that a pointer and a size stand for. -/
def bytesAt (data : Nat → Byte) (size : Nat) : List Byte := (List.range size).map data

/-- A buffer with its front overwritten. -/
def overlay (buf : Nat → Byte) (bytes : List Byte) : Nat → Byte := fun i => bytes.getD i (buf i)

/-- The reply that a call gets from the map, and the map afterwards. -/
def Answers (m : FileMap) : Op → Reply → FileMap → Prop
  | .create name,.code r,m' =>
    if name ∈ m.files then r = -1 ∧ m' = m
    else if m.files.keys.card = 64 then r = -2 ∧ m' = m
    else r = 0 ∧ m'.files = m.files.insert name (clip [])
  | .write name data size,.code r,m' =>
    if name ∉ m.files ∧ m.files.keys.card = 64 then r = -1 ∧ m' = m
    else r = min size.toNat 4096 ∧ m'.files = m.files.insert name (clip (bytesAt data size.toNat))
  | .append name data size,.code r,m' =>
    match m.files.lookup name with
    | none => r = -1 ∧ m' = m
    | some old => r = min size.toNat (4096 - old.val.length) ∧
        m'.files = m.files.insert name (clip (old.val ++ bytesAt data size.toNat))
  | .read name buf bufSize,.buffer r buf',m' => m' = m ∧
    match m.files.lookup name with
    | none => r = -1 ∧ buf' = buf
    | some held => r = min held.val.length bufSize.toNat ∧
        buf' = overlay buf (held.val.take bufSize.toNat)
  | .delete name,.code r,m' =>
    if name ∈ m.files then r = 0 ∧ m'.files = m.files.erase name else r = -1 ∧ m' = m
  | .exists name,.code r,m' => m' = m ∧ r = if name ∈ m.files then 1 else 0
  | .size name,.size r,m' => m' = m ∧
    match m.files.lookup name with
    | none => r = 0
    | some held => r.toNat = held.val.length
  | .list max,.names r rows,m' => m' = m ∧ r = rows.length ∧
    ∃ names : List CString, rows = names.map Subtype.val ∧ names.Nodup ∧
      (∀ name ∈ names, name ∈ m.files) ∧ names.length = min max.toNat m.files.keys.card
  | .fileCount,.code r,m' => m' = m ∧ r = m.files.keys.card
  | _,_,_ => False

/-! The table as a map. -/

def fileName (f : RamfsFile) : CString := ⟨contents f.name,contents_noNul f.name⟩

def fileContents (f : RamfsFile) : Contents :=
  ⟨(List.ofFn f.data).take f.size.toNat,(List.length_take_le' ..).trans_eq (List.length_ofFn)⟩

def table (files : Files) : SlotMap.Table 64 CString Contents :=
  fun i => if (files i).used = 0 then none else some (fileName (files i),fileContents (files i))

section

variable {files : Files} {m : FileMap} {i j : Fin 64} {f : RamfsFile} {name : CString}

theorem table_setFile_used (used : f.used ≠ 0) : table (setFile files i f) =
    SlotMap.set (table files) i (some (fileName f,fileContents f)) := by
  funext j
  by_cases here : j = i
  · simp only [table,setFile,SlotMap.set,here,if_true,if_neg used]
  · simp only [table,setFile,SlotMap.set,here,if_false]

theorem table_setFile_unused (unused : f.used = 0) : table (setFile files i f) =
    SlotMap.set (table files) i none := by
  funext j
  by_cases here : j = i
  · simp only [table,setFile,SlotMap.set,here,if_true,if_pos unused]
  · simp only [table,setFile,SlotMap.set,here,if_false]

theorem table_eq_some {k : CString} {v : Contents} : table files i = some (k,v) ↔
    (files i).used ≠ 0 ∧ fileName (files i) = k ∧ fileContents (files i) = v := by
  unfold table
  split
  · rename_i unused
    simp [unused]
  · rename_i used
    rw [Option.some.injEq,Prod.mk.injEq]
    exact (and_iff_right used).symm

theorem findFile_some (found : findFile files name = some i) :
    (files i).used ≠ 0 ∧ fileName (files i) = name := by
  unfold findFile at found
  have matched := of_decide_eq_true (Fin.find?_eq_some_iff.mp found).1
  exact ⟨matched.1,Subtype.ext ((strcmp_eq_zero (contents_noNul _) name.property).mp matched.2)⟩

theorem findFile_none (missing : findFile files name = none) (used : (files i).used ≠ 0) :
    fileName (files i) ≠ name := by
  unfold findFile at missing
  have differs := of_decide_eq_false (Fin.find?_eq_none_iff.mp missing i)
  rintro rfl
  exact differs ⟨used,(strcmp_eq_zero (contents_noNul _) (contents_noNul _)).mpr rfl⟩

theorem findFreeSlot_some (found : findFreeSlot files = some i) : (files i).used = 0 := by
  unfold findFreeSlot at found
  exact of_decide_eq_true (Fin.find?_eq_some_iff.mp found).1

theorem findFreeSlot_none (full : findFreeSlot files = none) : (files i).used ≠ 0 := by
  unfold findFreeSlot at full
  exact of_decide_eq_false (Fin.find?_eq_none_iff.mp full i)

end

end NimrodOS.Ramfs
