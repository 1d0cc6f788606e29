import NimrodOS.RamfsMap

/-! What each call of `ramfs.c` does to the table. -/
namespace NimrodOS.Ramfs

open Libc

/-- The name keeps all of its characters in a slot. -/
def Short (name : CString) : Prop := name.val.length ≤ 31

instance : DecidablePred Short := fun name => inferInstanceAs (Decidable (name.val.length ≤ 31))

/-- The characters that a slot keeps. -/
def cut (name : CString) : CString :=
  ⟨name.val.take 31,fun member => name.property (List.mem_of_mem_take member)⟩

theorem cut_of_short {name : CString} (short : Short name) : cut name = name := by
  apply Subtype.ext
  exact List.take_of_length_le short

theorem cut_short {name : CString} : Short (cut name) := List.length_take_le ..

section Bytes

variable {data : Nat → Byte} {n size : Nat}

theorem bytesAt_length : (bytesAt data n).length = n := by
  simp [bytesAt]

theorem take_bytesAt : (bytesAt data size).take n = bytesAt data (min n size) := by
  simp [bytesAt,← List.map_take,List.take_range]

/-- What an array begins with after bytes were copied behind its first `offset` ones. -/
theorem memcpy_take {dest written : Fin len → Byte} {offset : Nat}
    (copied : memcpy dest offset data n = .ok written) :
    (List.ofFn written).take (offset + n) = (List.ofFn dest).take offset ++ bytesAt data n := by
  unfold memcpy at copied
  split_ifs at copied with fits
  obtain rfl := Except.ok.inj copied
  apply List.ext_getElem
  · simp [bytesAt_length]
    omega
  · intro i left right
    simp only [List.length_take,List.length_ofFn] at left
    have inside : i < offset + n := by omega
    simp only [List.getElem_take,List.getElem_ofFn,List.getElem_append,List.length_take,
      List.length_ofFn,inside,and_true]
    by_cases before : i < offset
    · rw [if_neg (by omega),dif_pos (by omega)]
    · have start : min offset len = offset := by omega
      simp only [not_lt.mp before,if_true,start,before,dif_neg,not_false_eq_true,bytesAt,
        List.getElem_map,List.getElem_range]

theorem memcpy_ok (dest : Fin len → Byte) {offset : Nat} (fits : offset + n ≤ len) :
    ∃ written, memcpy dest offset data n = .ok written := ⟨_,if_pos fits⟩

/-- The buffer after the front of an array was copied to it. -/
theorem memcpyOut_eq {buf : Nat → Byte} {src : Fin len → Byte} (fits : n ≤ len) :
    memcpyOut buf src n = .ok (overlay buf ((List.ofFn src).take n)) := by
  unfold memcpyOut
  rw [if_pos fits]
  congr 1
  funext i
  unfold overlay
  by_cases front : i < n
  · have inside : i < ((List.ofFn src).take n).length := by
      simp
      omega
    rw [dif_pos (by omega),if_pos front,List.getD_eq_getElem _ _ inside]
    simp
  · have outside : ((List.ofFn src).take n).length ≤ i := by
      simp
      omega
    rw [List.getD_eq_default _ _ outside]
    simp [front]

end Bytes

variable {files files' : Files} {i j : Fin 64} {f : RamfsFile} {name : CString}

theorem setFile_of_ne (apart : j ≠ i) : setFile files i f j = files j := if_neg apart

/-- No file is longer than its room. -/
def SizesFit (files : Files) : Prop := ∀ i, (files i).size.toNat ≤ 4096

theorem ramfsInit_fits : SizesFit ramfsInit := fun _ => Nat.zero_le _

theorem setFile_fits (fit : SizesFit files) (small : f.size.toNat ≤ 4096) :
    SizesFit (setFile files i f) := by
  intro j
  by_cases here : j = i
  · simpa only [setFile,here,if_true] using small
  · rw [setFile_of_ne here]
    exact fit j

/-! Creating. -/

/-- The name that `ramfs_create` leaves in a slot. -/
theorem contents_created (old : Fin 32 → Byte) (name : CString) :
    contents (fun j => if j = 31 then 0 else strncpy old name 31 j) = name.val.take 31 := by
  have ended : (fun j : Fin 32 => if j = 31 then (0 : Byte) else strncpy old name 31 j) =
      Function.update (strncpy old name 31) (Fin.last 31) 0 := by
    funext j
    exact (Function.update_apply ..).symm
  rw [ended]
  exact contents_strncpy (by decide) old name

/-- What `ramfs_create` makes of a free slot. -/
def createdFile (f : RamfsFile) (name : CString) : RamfsFile :=
  {f with name := fun j => if j = 31 then 0 else strncpy f.name name 31 j,size := 0,used := 1}

theorem createdFile_used : (createdFile f name).used ≠ 0 := by
  simp [createdFile]

theorem fileName_created : fileName (createdFile f name) = cut name := by
  apply Subtype.ext
  exact contents_created f.name name

theorem fileContents_created : fileContents (createdFile f name) = clip [] := by
  apply Subtype.ext
  exact List.take_zero (l := List.ofFn f.data)

theorem create_cases (files : Files) (name : CString) :
    (findFile files name ≠ none ∧ ramfsCreate files name = (files,-1)) ∨
    findFile files name = none ∧
      ((findFreeSlot files = none ∧ ramfsCreate files name = (files,-2)) ∨
      ∃ i, findFreeSlot files = some i ∧
        ramfsCreate files name = (setFile files i (createdFile (files i) name),0)) := by
  unfold ramfsCreate
  cases findFile files name with
  | some i => exact .inl ⟨Option.some_ne_none i,rfl⟩
  | none =>
    right
    refine ⟨rfl,?_⟩
    cases findFreeSlot files with
    | none => exact .inl ⟨rfl,rfl⟩
    | some i => exact .inr ⟨i,rfl,rfl⟩

theorem create_fits (fit : SizesFit files) : SizesFit (ramfsCreate files name).1 := by
  rcases create_cases files name with ⟨-,made⟩ | ⟨-,⟨-,made⟩ | ⟨i,-,made⟩⟩
  · rwa [made]
  · rwa [made]
  · rw [made]
    exact setFile_fits fit (Nat.zero_le _)

/-! Deleting. -/

def deletedFile (f : RamfsFile) : RamfsFile :=
  {f with used := 0,size := 0,name := fun j => if j = 0 then 0 else f.name j}

theorem delete_cases (files : Files) (name : CString) :
    (findFile files name = none ∧ ramfsDelete files name = (files,-1)) ∨
    ∃ i, findFile files name = some i ∧
      ramfsDelete files name = (setFile files i (deletedFile (files i)),0) := by
  unfold ramfsDelete
  cases findFile files name with
  | none => exact .inl ⟨rfl,rfl⟩
  | some i => exact .inr ⟨i,rfl,rfl⟩

theorem delete_fits (fit : SizesFit files) : SizesFit (ramfsDelete files name).1 := by
  rcases delete_cases files name with ⟨-,kept⟩ | ⟨i,-,gone⟩
  · rwa [kept]
  · rw [gone]
    exact setFile_fits fit (Nat.zero_le _)

/-! Copying. -/

theorem clipped_size (size : Word) :
    (if size > 4096 then 4096 else size).toNat = min size.toNat 4096 := by
  have limit : (4096 : Word).toNat = 4096 := rfl
  split_ifs with large
  · have beyond : 4096 < size.toNat := large
    omega
  · have within : size.toNat ≤ 4096 := not_lt.mp large
    omega

theorem toInt_small {size : Word} (small : size.toNat ≤ 4096) : size.toInt = size.toNat := by
  rw [BitVec.toInt_eq_toNat_cond,if_pos (by omega)]

/-- A file never holds more than its room, so the subtraction does not wrap. -/
theorem appended_size {held : Word} (size : Word) (bound : held.toNat ≤ 4096) :
    (if size > 4096 - held then 4096 - held else size).toNat =
      min size.toNat (4096 - held.toNat) := by
  have limit : (4096 : Word).toNat = 4096 := rfl
  have space : (4096 - held).toNat = 4096 - held.toNat := by
    rw [BitVec.toNat_sub]
    omega
  split_ifs with large
  · have beyond : (4096 - held).toNat < size.toNat := large
    omega
  · have within : size.toNat ≤ (4096 - held).toNat := not_lt.mp large
    omega

/-- Writing to a file that is there. -/
theorem writeFile_eq (files : Files) (i : Fin 64) (data : Nat → Byte) (size : Word) :
    ∃ kept written, kept.toNat = min size.toNat 4096 ∧
      memcpy (files i).data 0 data kept.toNat = .ok written ∧
      writeFile files i data size =
        .ok (setFile files i {files i with data := written,size := kept},kept.toInt) := by
  have clipped := clipped_size size
  unfold writeFile
  generalize (if size > 4096 then 4096 else size) = kept at clipped ⊢
  obtain ⟨written,copied⟩ : ∃ written, memcpy (files i).data 0 data kept.toNat = .ok written := by
    apply memcpy_ok
    omega
  refine ⟨kept,written,clipped,copied,?_⟩
  simp only [copied,bind,Except.bind,pure,Except.pure]

/-- Appending to a file that is not longer than its room. -/
theorem append_eq (at' : findFile files name = some i) (bound : (files i).size.toNat ≤ 4096)
    (data : Nat → Byte) (size : Word) :
    ∃ kept written, kept.toNat = min size.toNat (4096 - (files i).size.toNat) ∧
      ((files i).size + kept).toNat = (files i).size.toNat + kept.toNat ∧
      memcpy (files i).data (files i).size.toNat data kept.toNat = .ok written ∧
      ramfsAppend files name data size = .ok
        (setFile files i {files i with data := written,size := (files i).size + kept},kept.toInt) := by
  have clipped := appended_size size bound
  unfold ramfsAppend
  generalize added : (if size > 4096 - (files i).size then 4096 - (files i).size else size) = kept
    at clipped
  obtain ⟨written,copied⟩ : ∃ written,
      memcpy (files i).data (files i).size.toNat data kept.toNat = .ok written := by
    apply memcpy_ok
    omega
  refine ⟨kept,written,clipped,?_,copied,?_⟩
  · rw [BitVec.toNat_add]
    omega
  · simp only [at',added,copied,bind,Except.bind,pure,Except.pure]

theorem fileContents_length (bound : f.size.toNat ≤ 4096) :
    (fileContents f).val.length = f.size.toNat := by
  simp only [fileContents,List.length_take,List.length_ofFn]
  omega

/-- What is in the slot afterwards. -/
theorem writeFile_puts (files : Files) (i : Fin 64) (data : Nat → Byte) (size : Word) :
    ∃ f, writeFile files i data size = .ok (setFile files i f,(min size.toNat 4096 : Nat)) ∧
      f.used = (files i).used ∧ f.name = (files i).name ∧ f.size.toNat ≤ 4096 ∧
      fileContents f = clip (bytesAt data size.toNat) := by
  obtain ⟨kept,written,clipped,copied,result⟩ := writeFile_eq files i data size
  have small : kept.toNat ≤ 4096 := by omega
  refine ⟨{files i with data := written,size := kept},?_,rfl,rfl,small,Subtype.ext ?_⟩
  · rw [result,toInt_small small,clipped]
  · have front := memcpy_take copied
    rw [Nat.zero_add,List.take_zero,List.nil_append] at front
    calc (List.ofFn written).take kept.toNat = bytesAt data kept.toNat := front
      _ = bytesAt data (min 4096 size.toNat) := by rw [clipped,Nat.min_comm]
      _ = (bytesAt data size.toNat).take 4096 := take_bytesAt.symm

theorem append_puts (at' : findFile files name = some i) (bound : (files i).size.toNat ≤ 4096)
    (data : Nat → Byte) (size : Word) :
    ∃ f, ramfsAppend files name data size =
        .ok (setFile files i f,(min size.toNat (4096 - (files i).size.toNat) : Nat)) ∧
      f.used = (files i).used ∧ f.name = (files i).name ∧ f.size.toNat ≤ 4096 ∧
      fileContents f = clip ((fileContents (files i)).val ++ bytesAt data size.toNat) := by
  have length := fileContents_length bound
  obtain ⟨kept,written,clipped,sum,copied,result⟩ := append_eq at' bound data size
  refine ⟨{files i with data := written,size := (files i).size + kept},?_,rfl,rfl,?_,Subtype.ext ?_⟩
  · rw [result,toInt_small (by omega),clipped]
  · show ((files i).size + kept).toNat ≤ 4096
    omega
  · have front := memcpy_take copied
    rw [← sum] at front
    calc (List.ofFn written).take ((files i).size + kept).toNat
      _ = (fileContents (files i)).val ++ bytesAt data kept.toNat := front
      _ = ((fileContents (files i)).val ++ bytesAt data size.toNat).take 4096 := by
        rw [List.take_append,List.take_of_length_le (by omega),length,take_bytesAt,clipped,
          Nat.min_comm]

/-- Reading such a file. -/
theorem read_eq (at' : findFile files name = some i) (bound : (files i).size.toNat ≤ 4096)
    (buf : Nat → Byte) (bufSize : Word) :
    ∃ toRead : Word, toRead.toNat = min (files i).size.toNat bufSize.toNat ∧
      ramfsRead files name buf bufSize =
        .ok (toRead.toInt,overlay buf ((List.ofFn (files i).data).take toRead.toNat)) := by
  have shorter : (if (files i).size < bufSize then (files i).size else bufSize).toNat =
      min (files i).size.toNat bufSize.toNat := by
    split_ifs with less
    · have less : (files i).size.toNat < bufSize.toNat := less
      omega
    · have least : bufSize.toNat ≤ (files i).size.toNat := not_lt.mp less
      omega
  unfold ramfsRead
  generalize taken : (if (files i).size < bufSize then (files i).size else bufSize) = toRead
    at shorter
  have copied : memcpyOut buf (files i).data toRead.toNat =
      .ok (overlay buf ((List.ofFn (files i).data).take toRead.toNat)) := by
    apply memcpyOut_eq
    omega
  refine ⟨toRead,shorter,?_⟩
  simp only [at',taken,copied,bind,Except.bind,pure,Except.pure]

/-- A write finds the file, fails to make it, writes to the file it made or, when the slot
does not keep the whole name, does not find that file again. -/
theorem write_cases (files : Files) (name : CString) (data : Nat → Byte) (size : Word) :
    (∃ i, findFile files name = some i ∧
      ramfsWrite files name data size = writeFile files i data size) ∨
    findFile files name = none ∧
      (((ramfsCreate files name).2 ≠ 0 ∧
        ramfsWrite files name data size = .ok ((ramfsCreate files name).1,-1)) ∨
      (ramfsCreate files name).2 = 0 ∧
        ((∃ i, findFile (ramfsCreate files name).1 name = some i ∧
          ramfsWrite files name data size = writeFile (ramfsCreate files name).1 i data size) ∨
        (findFile (ramfsCreate files name).1 name = none ∧
          ramfsWrite files name data size = .error .nullPointer))) := by
  unfold ramfsWrite
  cases at' : findFile files name with
  | some i => exact .inl ⟨i,rfl,rfl⟩
  | none =>
    refine .inr ⟨rfl,?_⟩
    by_cases refused : (ramfsCreate files name).2 ≠ 0
    · exact .inl ⟨refused,if_pos refused⟩
    · rw [not_not] at refused
      refine .inr ⟨refused,?_⟩
      cases again : findFile (ramfsCreate files name).1 name with
      | some i => exact .inl ⟨i,rfl,by simp [refused,again]⟩
      | none => exact .inr ⟨rfl,by simp [refused,again]⟩

/-! Calls that were served. -/

theorem writeFile_served {data : Nat → Byte} {size : Word} {r : Int}
    (result : writeFile files i data size = .ok (files',r)) :
    ∃ f, files' = setFile files i f ∧ f.used = (files i).used ∧ f.name = (files i).name := by
  obtain ⟨kept,written,-,-,stored⟩ := writeFile_eq files i data size
  obtain ⟨rfl,-⟩ := Prod.mk.inj (Except.ok.inj (stored.symm.trans result))
  exact ⟨_,rfl,rfl,rfl⟩

theorem append_served {data : Nat → Byte} {size : Word} {r : Int}
    (result : ramfsAppend files name data size = .ok (files',r)) :
    files' = files ∨ ∃ i f, findFile files name = some i ∧ files' = setFile files i f ∧
      f.used = (files i).used ∧ f.name = (files i).name := by
  unfold ramfsAppend at result
  split at result
  · obtain ⟨rfl,-⟩ := Prod.mk.inj (Except.ok.inj result)
    exact .inl rfl
  · next i found =>
    simp only [bind,Except.bind,pure,Except.pure] at result
    split at result
    · cases result
    · obtain ⟨rfl,-⟩ := Prod.mk.inj (Except.ok.inj result)
      exact .inr ⟨i,_,found,rfl,rfl,rfl⟩

/-- The table that a call leaves. -/
def Leaves (files files' : Files) : Op → Prop
  | .create name => files' = (ramfsCreate files name).1
  | .write name data size => ∃ r, ramfsWrite files name data size = .ok (files',r)
  | .append name data size => ∃ r, ramfsAppend files name data size = .ok (files',r)
  | .delete name => files' = (ramfsDelete files name).1
  | .read _ _ _ | .exists _ | .size _ | .list _ | .fileCount => files' = files

theorem map_ok {α β : Type} {x : Except Fault α} {g : α → β} {b : β}
    (mapped : x.map g = .ok b) : ∃ a, x = .ok a ∧ g a = b := by
  cases x with
  | error fault => cases mapped
  | ok a => exact ⟨a,rfl,Except.ok.inj mapped⟩

theorem step_leaves {op : Op} {reply : Reply} (served : step files op = .ok (files',reply)) :
    Leaves files files' op := by
  cases op with
  | write | append =>
    obtain ⟨⟨after,r⟩,result,same⟩ := map_ok served
    obtain ⟨rfl,-⟩ := Prod.mk.inj same
    exact ⟨r,result⟩
  | read =>
    obtain ⟨_,-,same⟩ := map_ok served
    exact (Prod.mk.inj same).1.symm
  | _ => exact (Prod.mk.inj (Except.ok.inj served)).1.symm

end NimrodOS.Ramfs
