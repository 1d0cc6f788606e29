import NimrodOS.RamfsNames

/-! Whether a file can be found again under the name it was made with. -/
namespace NimrodOS.Ramfs

open Libc Transition

variable {files files' : Files} {name : CString} {i : Fin 64} {data buf : Nat → Byte}
  {size bufSize : Word} {n : Int}

/-- A successful `ramfs_create` makes a file that is found. -/
def CreatedFound (files : Files) (name : CString) : Prop :=
  (ramfsCreate files name).2 = 0 → findFile (ramfsCreate files name).1 name ≠ none

/-- No write under the name goes through the null pointer. -/
def WritesSafely (files : Files) (name : CString) : Prop :=
  ∀ data size, ramfsWrite files name data size ≠ .error .nullPointer

/-- What a successful write reports as written is read back. -/
def ReadsBack (files : Files) (name : CString) : Prop :=
  ∀ data size files' n, ramfsWrite files name data size = .ok (files',n) → 0 ≤ n →
    ∀ buf bufSize, n ≤ bufSize.toNat →
      ramfsRead files' name buf bufSize = .ok (n,overlay buf (bytesAt data n.toNat))

/-! Reading back. -/

/-- The search looks at nothing but names and marks. -/
theorem findFile_congr (same : ∀ j, (files' j).used = (files j).used ∧
    (files' j).name = (files j).name) : findFile files' name = findFile files name := by
  unfold findFile
  congr 1
  funext j
  rw [(same j).1,(same j).2]

theorem findFile_setFile {f : RamfsFile} (used : f.used = (files i).used)
    (named : f.name = (files i).name) :
    findFile (setFile files i f) name = findFile files name := by
  apply findFile_congr
  intro j
  by_cases here : j = i
  · subst here
    rw [setFile,if_pos rfl]
    exact ⟨used,named⟩
  · rw [setFile_of_ne here]
    exact ⟨rfl,rfl⟩

theorem writeFile_readsBack (found : findFile files name = some i)
    (result : writeFile files i data size = .ok (files',n)) (fits : n ≤ bufSize.toNat) :
    ramfsRead files' name buf bufSize = .ok (n,overlay buf (bytesAt data n.toNat)) := by
  obtain ⟨kept,written,clipped,copied,stored⟩ := writeFile_eq files i data size
  obtain ⟨rfl,rfl⟩ := Prod.mk.inj (Except.ok.inj (stored.symm.trans result))
  have small : kept.toNat ≤ 4096 := by omega
  have again : findFile (setFile files i {files i with data := written,size := kept}) name =
      some i := by
    rw [findFile_setFile]
    · exact found
    · rfl
    · rfl
  have here : setFile files i {files i with data := written,size := kept} i =
      {files i with data := written,size := kept} := if_pos rfl
  obtain ⟨toRead,shorter,read⟩ := read_eq again (by rw [here]; exact small) buf bufSize
  rw [here] at shorter read
  have shorter : toRead.toNat = min kept.toNat bufSize.toNat := shorter
  rw [toInt_small small] at fits ⊢
  have all : toRead = kept := BitVec.eq_of_toNat_eq (by omega)
  have front := memcpy_take copied
  rw [Nat.zero_add,List.take_zero,List.nil_append] at front
  rw [read,all,toInt_small small,front]
  rfl

/-- Whatever the name, bytes that did reach a slot are read back. -/
theorem readsBack (files : Files) (name : CString) : ReadsBack files name := by
  intro data size files' n result written buf bufSize fits
  rcases write_cases files name data size with
    ⟨i,found,write⟩ | ⟨-,⟨-,write⟩ | ⟨-,⟨i,again,write⟩ | ⟨-,write⟩⟩⟩
  · exact writeFile_readsBack found (write.symm.trans result) fits
  · obtain ⟨-,rfl⟩ := Prod.mk.inj (Except.ok.inj (write.symm.trans result))
    exact absurd written (by decide)
  · exact writeFile_readsBack again (write.symm.trans result) fits
  · cases write.symm.trans result

/-! Finding again. -/

theorem create_succeeds : (ramfsCreate files name).2 = 0 ↔ Makes files name := by
  rcases create_cases files name with ⟨present,made⟩ | ⟨absent,⟨full,made⟩ | ⟨i,free,made⟩⟩
  · rw [made]
    exact iff_of_false (Int.negSucc_ne_zero 0) fun makes => present makes.1
  · rw [made]
    exact iff_of_false (Int.negSucc_ne_zero 1) fun makes => makes.2 full
  · rw [made]
    exact iff_of_true rfl ⟨absent,by simp [free]⟩

/-- The second search succeeds just when the slot kept the whole name. -/
theorem created_found (namesCut : NamesCut files) (makes : Makes files name) :
    findFile (ramfsCreate files name).1 name ≠ none ↔ Short name := by
  constructor
  · intro found
    obtain ⟨i,at'⟩ := Option.ne_none_iff_exists'.mp found
    have moved : Changes files (.create name) (ramfsCreate files name).1 := .inl ⟨_,rfl⟩
    exact changes_cut namesCut moved i name (stored_found at')
  · intro short absent
    obtain ⟨i,-,made⟩ := create_makes makes
    have held : stored (ramfsCreate files name).1 i = some name := by
      rw [made,Function.update_self,cut_of_short short]
    exact findFile_none absent (stored_eq_some.mp held).1 (stored_eq_some.mp held).2

theorem writesSafely (lasts : CreatedFound files name) : WritesSafely files name := by
  intro data size fault
  rcases write_cases files name data size with
    ⟨i,-,write⟩ | ⟨-,⟨-,write⟩ | ⟨made,⟨i,-,write⟩ | ⟨lost,-⟩⟩⟩
  · obtain ⟨_,_,-,-,stored⟩ := writeFile_eq files i data size
    cases (write.trans stored).symm.trans fault
  · cases write.symm.trans fault
  · obtain ⟨_,_,-,-,stored⟩ := writeFile_eq (ramfsCreate files name).1 i data size
    cases (write.trans stored).symm.trans fault
  · exact lasts made lost

/-- A file can be found again unless it was made under a name too long for its slot. -/
theorem created_reachable_iff {past : List (Files × Op)} (run : Run Changes ramfsInit past files)
    (name : CString) :
    (CreatedFound files name ∧ WritesSafely files name ∧ ReadsBack files name) ↔
      (Makes files name → Short name) := by
  have namesCut : NamesCut files := run.invariant namesCut_init fun _ _ _ => changes_cut
  constructor
  · rintro ⟨lasts,-,-⟩ makes
    exact (created_found namesCut makes).mp (lasts (create_succeeds.mpr makes))
  · intro short
    have lasts : CreatedFound files name := by
      intro success
      have makes := create_succeeds.mp success
      exact (created_found namesCut makes).mpr (short makes)
    exact ⟨lasts,writesSafely lasts,readsBack files name⟩

theorem created_reachable_note :
    let note : CString := ⟨[110],by decide⟩
    CreatedFound ramfsInit note ∧ WritesSafely ramfsInit note ∧ ReadsBack ramfsInit note :=
  (created_reachable_iff .nil _).mpr fun _ => by decide

/-- A name of 32 characters is lost as soon as it is stored. -/
theorem long_name_lost : ¬∀ past files, Run Changes ramfsInit past files →
    ∀ name, CreatedFound files name := by
  intro claim
  have lasts := claim [] ramfsInit .nil longName
  have makes : Makes ramfsInit longName := by
    have success : (ramfsCreate ramfsInit longName).2 = 0 := by decide +kernel
    exact create_succeeds.mp success
  have short := (created_found namesCut_init makes).mp (lasts (create_succeeds.mpr makes))
  exact absurd short (by decide)

end NimrodOS.Ramfs
