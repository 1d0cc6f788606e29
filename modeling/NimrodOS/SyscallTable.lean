import Mathlib.Data.Set.Card
import NimrodOS.RamfsNames
import NimrodOS.Syscall

/-! The table of open files is a map from descriptors to names. -/
namespace NimrodOS.Syscall

open Libc Ramfs Transition

/-- What each descriptor stands for. -/
abbrev Descriptors := Word → Option CString

/-- System calls, other uses of the file system, and keys and bytes that arrive. -/
inductive Event where
  | syscall (call : Call) (reply : Reply)
  | fileSystem (op : Op)
  | devices (keys : KeyInput) (received : Option Byte)

/-- A call that faults does not return. -/
def Step (s : System) : Event → System → Prop
  | .syscall call reply,s' => syscallHandler s call = .ok (s',reply)
  | .fileSystem op,s' => ∃ files, Changes s.files op files ∧ s' = {s with files := files}
  | .devices keys received,s' => s' = {s with keys := keys,received := received}

/-- An open that returns a descriptor adds it, a close takes away the one that it names. -/
def Descriptors.after (d : Descriptors) : Event → Descriptors
  | .syscall (.open name) (.code r) =>
    if r = -1 then d else Function.update d (BitVec.ofInt 32 r) (some name)
  | .syscall (.close fd) _ => Function.update d fd none
  | _ => d

/-- The descriptors that were returned and not closed since. -/
def opened (past : List (System × Event)) : Descriptors :=
  past.foldl (fun d entry => d.after entry.2) fun _ => none

def Descriptors.openSet (d : Descriptors) : Set Word := {fd | d fd ≠ none}

/-- No file is open and the file system is empty. -/
def bootSystem (t : OpenTable) (keys : KeyInput) : System :=
  ⟨syscallInit t,ramfsInit,keys,none,[],[]⟩

/-- A read of the key buffer whose length is negative as an `int`. -/
def Call.negative : Call → Prop
  | .read fd _ len => fd = 0 ∧ len.toInt < 0
  | _ => False

/-! The slot of a descriptor. -/

def descriptor (i : Fin 16) : Word := BitVec.ofNat 32 (i + 4)

variable {fd : Word} {i j : Fin 16} {t : OpenTable} {s s' : System} {name : CString} {r : Int}

theorem descriptor_toNat (i : Fin 16) : (descriptor i).toNat = i + 4 := by
  have bound := i.isLt
  simp only [descriptor,BitVec.toNat_ofNat]
  omega

theorem descriptor_injective : Function.Injective descriptor := by
  intro i j same
  have values := congrArg BitVec.toNat same
  rw [descriptor_toNat,descriptor_toNat] at values
  omega

theorem slotOf_eq_some : slotOf fd = some i ↔ fd = descriptor i := by
  have bound := i.isLt
  have value := descriptor_toNat i
  have difference : (fd - 4).toNat = (4294967292 + fd.toNat) % 4294967296 := BitVec.toNat_sub fd 4
  unfold slotOf
  simp only [BitVec.toInt_eq_toNat_cond]
  constructor
  · intro found
    split_ifs at found with inside
    all_goals
      have index := congrArg Fin.val (Option.some.inj found)
      apply BitVec.eq_of_toNat_eq
      simp only [] at index
      omega
  · rintro rfl
    rw [dif_pos (by omega)]
    congr 1
    apply Fin.ext
    show Int.toNat _ = _
    omega

theorem slotOf_descriptor (i : Fin 16) : slotOf (descriptor i) = some i := slotOf_eq_some.mpr rfl

theorem slotOf_outside (outside : ∀ i, fd ≠ descriptor i) : slotOf fd = none := by
  by_contra present
  obtain ⟨i,here⟩ := Option.ne_none_iff_exists'.mp present
  exact outside i (slotOf_eq_some.mp here)

/-! Resolving. -/

theorem fdToName_descriptor (t : OpenTable) (i : Fin 16) :
    fdToName t (descriptor i) = slotName t i := by
  simp only [fdToName,slotOf_descriptor]

theorem fdToName_outside (outside : ∀ i, fd ≠ descriptor i) : fdToName t fd = none := by
  simp only [fdToName,slotOf_outside outside]

/-- Only the descriptors 4 to 19 resolve. -/
theorem fdToName_range (held : fdToName t fd ≠ none) : ∃ i, fd = descriptor i := by
  by_contra outside
  exact held (fdToName_outside (not_exists.mp outside))

/-- Changing one slot changes what its descriptor resolves to. -/
theorem fdToName_set (t : OpenTable) (i : Fin 16) (row : Fin 32 → Byte) (used : Byte) :
    fdToName (t.set i row used) = Function.update (fdToName t) (descriptor i)
      (if used ≠ 0 then some ⟨contents row,contents_noNul row⟩ else none) := by
  funext fd
  by_cases inside : ∃ j, fd = descriptor j
  · obtain ⟨j,rfl⟩ := inside
    rw [fdToName_descriptor]
    by_cases here : j = i
    · subst here
      simp [slotName,OpenTable.set]
    · rw [Function.update_of_ne (descriptor_injective.ne here),fdToName_descriptor]
      simp [slotName,OpenTable.set,here]
  · have outside := not_exists.mp inside
    rw [fdToName_outside outside,Function.update_of_ne (outside i),fdToName_outside outside]

theorem fdToName_init (t : OpenTable) (fd : Word) : fdToName (syscallInit t) fd = none := by
  by_contra held
  obtain ⟨i,rfl⟩ := fdToName_range held
  exact held (fdToName_descriptor _ i)

/-! The handlers. -/

theorem firstUnused_some (found : firstUnused t = some i) : t.openUsed i = 0 := by
  unfold firstUnused at found
  exact of_decide_eq_true (Fin.find?_eq_some_iff.mp found).1

theorem firstUnused_none (full : firstUnused t = none) (i : Fin 16) : t.openUsed i ≠ 0 := by
  unfold firstUnused at full
  exact of_decide_eq_false (Fin.find?_eq_none_iff.mp full i)

theorem freeFd_names (t : OpenTable) (fd : Word) :
    fdToName (freeFd t fd) = Function.update (fdToName t) fd none := by
  unfold freeFd
  by_cases inside : ∃ i, fd = descriptor i
  · obtain ⟨i,rfl⟩ := inside
    simp only [slotOf_descriptor]
    exact fdToName_set ..
  · have outside := not_exists.mp inside
    simp only [slotOf_outside outside]
    exact (Function.update_eq_self_iff.mpr (fdToName_outside outside).symm).symm

theorem allocFd_cases (t : OpenTable) (name : CString) :
    (firstUnused t = none ∧ allocFd t name = (t,-1)) ∨
    ∃ i, t.openUsed i = 0 ∧ (allocFd t name).2 = i.val + 4 ∧
      fdToName (allocFd t name).1 = Function.update (fdToName t) (descriptor i) (some (cut name)) := by
  unfold allocFd
  cases found : firstUnused t with
  | none => exact .inl ⟨rfl,rfl⟩
  | some i =>
    refine .inr ⟨i,firstUnused_some found,rfl,?_⟩
    have copied : (⟨contents (fun j => if j = 31 then 0 else strncpy (t.openFiles i) name 31 j),
        contents_noNul _⟩ : CString) = cut name :=
      Subtype.ext (contents_created (t.openFiles i) name)
    dsimp only
    rw [fdToName_set,copied]
    rfl

/-! Descriptors that are in use. -/

theorem slotName_none : slotName t i = none ↔ t.openUsed i = 0 := by
  simp [slotName]

theorem openSet_eq (t : OpenTable) :
    Descriptors.openSet (fdToName t) = descriptor '' {i | t.openUsed i ≠ 0} := by
  ext fd
  constructor
  · intro held
    obtain ⟨i,rfl⟩ := fdToName_range held
    refine ⟨i,?_,rfl⟩
    rw [Descriptors.openSet,Set.mem_ofPred_eq,fdToName_descriptor] at held
    exact mt slotName_none.mpr held
  · rintro ⟨i,used,rfl⟩
    rw [Descriptors.openSet,Set.mem_ofPred_eq,fdToName_descriptor]
    exact mt slotName_none.mp used

/-- All 16 slots are taken just when 16 descriptors are open. -/
theorem full_iff (t : OpenTable) :
    firstUnused t = none ↔ (Descriptors.openSet (fdToName t)).ncard = 16 := by
  rw [openSet_eq,Set.ncard_image_of_injective _ descriptor_injective]
  constructor
  · intro full
    have all : {i | t.openUsed i ≠ 0} = Set.univ := Set.eq_univ_of_forall (firstUnused_none full)
    rw [all,Set.ncard_univ,Nat.card_eq_fintype_card,Fintype.card_fin]
  · intro count
    by_contra free
    obtain ⟨i,found⟩ := Option.ne_none_iff_exists'.mp free
    have all : {i | t.openUsed i ≠ 0} = Set.univ := by
      apply Set.eq_of_subset_of_ncard_le (Set.subset_univ _)
      rw [Set.ncard_univ,Nat.card_eq_fintype_card,Fintype.card_fin,count]
    have used : i ∈ {i | t.openUsed i ≠ 0} := all ▸ Set.mem_univ i
    exact used (firstUnused_some found)

/-! The files behind the descriptors. -/

section Files

variable {files files' : Files} {op : Op}

theorem ramfsExists_zero : ramfsExists files name = 0 ↔ ∀ i, stored files i ≠ some name := by
  unfold ramfsExists
  cases found : findFile files name with
  | none =>
    simp only [ne_eq,not_true_eq_false,if_false,true_iff]
    intro i held
    exact findFile_none found (stored_eq_some.mp held).1 (stored_eq_some.mp held).2
  | some i =>
    simp only [ne_eq,reduceCtorEq,not_false_eq_true,if_true,one_ne_zero,false_iff,not_forall,not_not]
    exact ⟨i,stored_found found⟩

/-- A name that fits in a slot is found again after it was created. -/
theorem create_found (short : Short name) (made : (ramfsCreate files name).2 = 0) :
    findFile (ramfsCreate files name).1 name ≠ none := by
  intro missing
  rcases create_cases files name with ⟨-,result⟩ | ⟨-,⟨-,result⟩ | ⟨i,-,result⟩⟩
  · simp [result] at made
  · simp [result] at made
  · rw [result] at missing
    have here : setFile files i (createdFile (files i) name) i = createdFile (files i) name :=
      if_pos rfl
    have used : (setFile files i (createdFile (files i) name) i).used ≠ 0 := by
      simpa only [here] using createdFile_used
    apply findFile_none missing used
    show fileName (setFile files i (createdFile (files i) name) i) = name
    rw [here,fileName_created,cut_of_short short]

/-- Writing under such a name does not go through the null pointer. -/
theorem write_returns (short : Short name) (files : Files) (data : Nat → Byte) (size : Word) :
    ∃ files' r, ramfsWrite files name data size = .ok (files',r) := by
  rcases write_cases files name data size with
    ⟨i,-,write⟩ | ⟨-,⟨-,write⟩ | ⟨made,⟨i,-,write⟩ | ⟨missing,-⟩⟩⟩
  · obtain ⟨kept,written,-,-,result⟩ := writeFile_eq files i data size
    exact ⟨_,_,write.trans result⟩
  · exact ⟨_,_,write⟩
  · obtain ⟨kept,written,-,-,result⟩ := writeFile_eq (ramfsCreate files name).1 i data size
    exact ⟨_,_,write.trans result⟩
  · exact absurd missing (create_found short made)

end Files

/-! What a run keeps. -/

/-- The table resolves as the history says, to names that fit in its rows. -/
structure Sound (d : Descriptors) (s : System) : Prop where
  namesCut : NamesCut s.files
  fit : SizesFit s.files
  resolves : fdToName s.table = d
  short : ∀ fd name, d fd = some name → Short name

namespace Sound

variable {d : Descriptors}

/-- The file system may change as its own calls change it. -/
theorem kept (sound : Sound d s) (table : s'.table = s.table)
    (files : s'.files = s.files ∨ ∃ op, Changes s.files op s'.files) : Sound d s' := by
  rcases files with files | ⟨op,moved⟩
  · exact ⟨files ▸ sound.namesCut,files ▸ sound.fit,table ▸ sound.resolves,sound.short⟩
  · exact ⟨changes_cut sound.namesCut moved,changes_fits sound.fit moved,table ▸ sound.resolves,
      sound.short⟩

/-- An open fails, or it takes a free slot for a name that the row keeps whole. -/
theorem open_cases (sound : Sound d s) (name : CString) :
    (((∀ i, stored s.files i ≠ some name) ∨ firstUnused s.table = none) ∧
      sysOpenHandler s name = (s,-1)) ∨
    ∃ i table, (∃ j, stored s.files j = some name) ∧ s.table.openUsed i = 0 ∧
      fdToName table = Function.update (fdToName s.table) (descriptor i) (some name) ∧
      sysOpenHandler s name = ({s with table := table},(i.val : Int) + 4) := by
  unfold sysOpenHandler
  by_cases missing : ramfsExists s.files name = 0
  · rw [if_pos missing]
    exact .inl ⟨.inl (ramfsExists_zero.mp missing),rfl⟩
  · rw [if_neg missing]
    have present := mt ramfsExists_zero.mpr missing
    simp only [ne_eq,not_forall,not_not] at present
    obtain ⟨j,held⟩ := present
    rcases allocFd_cases s.table name with ⟨full,result⟩ | ⟨i,free,value,names⟩
    · rw [result]
      exact .inl ⟨.inr full,rfl⟩
    · rw [cut_of_short (sound.namesCut j name held)] at names
      refine .inr ⟨i,_,⟨j,held⟩,free,names,?_⟩
      rw [← value]

theorem fresh (sound : Sound d s) (free : s.table.openUsed i = 0) : d (descriptor i) = none := by
  rw [← sound.resolves,fdToName_descriptor]
  exact slotName_none.mpr free

end Sound

theorem descriptor_ofInt (i : Fin 16) : BitVec.ofInt 32 (i.val + 4) = descriptor i := by
  apply BitVec.eq_of_toNat_eq
  rw [descriptor_toNat]
  have bound := i.isLt
  simp only [BitVec.toNat_ofInt]
  omega

theorem close_names (s : System) (fd : Word) : fdToName (sysCloseHandler s fd).1.table =
    Function.update (fdToName s.table) fd none := by
  unfold sysCloseHandler
  by_cases low : fd < 4
  · rw [if_pos low]
    have outside : ∀ i, fd ≠ descriptor i := by
      rintro i rfl
      have below : (descriptor i).toNat < 4 := low
      rw [descriptor_toNat] at below
      omega
    exact (Function.update_eq_self_iff.mpr (fdToName_outside outside).symm).symm
  · rw [if_neg low]
    exact freeFd_names s.table fd

/-- A close changes the table alone. -/
theorem close_rest (s : System) (fd : Word) :
    (sysCloseHandler s fd).1 = {s with table := (sysCloseHandler s fd).1.table} := by
  unfold sysCloseHandler
  split_ifs <;> rfl

/-- Reading changes neither the files nor the table. -/
theorem read_rest {dst dst' : Nat → Byte} {len : Word}
    (result : sysReadHandler s fd dst len = .ok (s',r,dst')) :
    s'.files = s.files ∧ s'.table = s.table := by
  unfold sysReadHandler at result
  split_ifs at result
  · obtain ⟨_,-,same⟩ := map_ok result
    obtain ⟨rfl,-⟩ := Prod.mk.inj same
    exact ⟨rfl,rfl⟩
  · obtain ⟨rfl,-⟩ := Prod.mk.inj (Except.ok.inj result)
    exact ⟨rfl,rfl⟩
  · split at result
    · obtain ⟨rfl,-⟩ := Prod.mk.inj (Except.ok.inj result)
      exact ⟨rfl,rfl⟩
    · obtain ⟨_,-,same⟩ := map_ok result
      obtain ⟨rfl,-⟩ := Prod.mk.inj same
      exact ⟨rfl,rfl⟩

/-- Writing changes the files as `ramfs_write` does, or not at all. -/
theorem write_rest {str : Nat → Byte} {len : Word}
    (result : sysWriteHandler s fd str len = .ok (s',r)) :
    s'.table = s.table ∧ (s'.files = s.files ∨ ∃ op, Changes s.files op s'.files) := by
  unfold sysWriteHandler at result
  split_ifs at result
  · obtain ⟨rfl,-⟩ := Prod.mk.inj (Except.ok.inj result)
    exact ⟨rfl,.inl rfl⟩
  · obtain ⟨rfl,-⟩ := Prod.mk.inj (Except.ok.inj result)
    exact ⟨rfl,.inl rfl⟩
  · split at result
    · obtain ⟨rfl,-⟩ := Prod.mk.inj (Except.ok.inj result)
      exact ⟨rfl,.inl rfl⟩
    · next name held =>
      obtain ⟨⟨files,code⟩,wrote,same⟩ := map_ok result
      obtain ⟨rfl,-⟩ := Prod.mk.inj same
      refine ⟨rfl,.inr ⟨.write name str len,.inl ⟨.code code,?_⟩⟩⟩
      simp only [step,wrote,Except.map]

namespace Sound

variable {d : Descriptors}

theorem open_step (sound : Sound d s) (name : CString) :
    Sound (d.after (.syscall (.open name) (.code (sysOpenHandler s name).2)))
      (sysOpenHandler s name).1 := by
  rcases sound.open_cases name with ⟨-,result⟩ | ⟨i,table,⟨j,held⟩,-,names,result⟩
  · rw [result]
    exact sound
  · have returned : (i.val : Int) + 4 ≠ -1 := by omega
    rw [sound.resolves] at names
    rw [result]
    simp only [Descriptors.after,if_neg returned,descriptor_ofInt]
    refine ⟨sound.namesCut,sound.fit,names,?_⟩
    intro fd other open'
    by_cases here : fd = descriptor i
    · subst here
      rw [Function.update_self,Option.some.injEq] at open'
      exact open' ▸ sound.namesCut j name held
    · rw [Function.update_of_ne here] at open'
      exact sound.short fd other open'

theorem close_step (sound : Sound d s) (fd : Word) (reply : Reply) :
    Sound (d.after (.syscall (.close fd) reply)) (sysCloseHandler s fd).1 := by
  have names := close_names s fd
  rw [sound.resolves] at names
  rw [close_rest] at names ⊢
  refine ⟨sound.namesCut,sound.fit,names,?_⟩
  intro other name open'
  simp only [Descriptors.after,Function.update_apply] at open'
  split_ifs at open'
  exact sound.short other name open'

theorem call_step {call : Call} {reply : Reply} (sound : Sound d s)
    (served : syscallHandler s call = .ok (s',reply)) :
    Sound (d.after (.syscall call reply)) s' := by
  cases call with
  | «open» name =>
    obtain ⟨rfl,rfl⟩ := Prod.mk.inj (Except.ok.inj served)
    exact sound.open_step name
  | close fd =>
    obtain ⟨rfl,rfl⟩ := Prod.mk.inj (Except.ok.inj served)
    exact sound.close_step fd _
  | create name =>
    obtain ⟨rfl,rfl⟩ := Prod.mk.inj (Except.ok.inj served)
    exact sound.kept rfl (.inr ⟨.create name,.inl ⟨_,rfl⟩⟩)
  | delete name =>
    obtain ⟨rfl,rfl⟩ := Prod.mk.inj (Except.ok.inj served)
    exact sound.kept rfl (.inr ⟨.delete name,.inl ⟨_,rfl⟩⟩)
  | read fd dst len =>
    obtain ⟨⟨after,r,dst'⟩,result,same⟩ := map_ok served
    obtain ⟨rfl,rfl⟩ := Prod.mk.inj same
    have rest := read_rest result
    exact sound.kept rest.2 (.inl rest.1)
  | write fd str len =>
    obtain ⟨⟨after,r⟩,result,same⟩ := map_ok served
    obtain ⟨rfl,rfl⟩ := Prod.mk.inj same
    have rest := write_rest result
    exact sound.kept rest.1 rest.2

theorem step {event : Event} (sound : Sound d s) (moved : Step s event s') :
    Sound (d.after event) s' := by
  cases event with
  | syscall call reply => exact sound.call_step moved
  | fileSystem op =>
    obtain ⟨files,changed,rfl⟩ := moved
    exact sound.kept rfl (.inr ⟨op,changed⟩)
  | devices keys received =>
    obtain rfl := moved
    exact sound.kept rfl (.inl rfl)

theorem boot (t : OpenTable) (keys : KeyInput) : Sound (fun _ => none) (bootSystem t keys) := by
  refine ⟨namesCut_init,ramfsInit_fits,?_,?_⟩
  · funext fd
    exact fdToName_init t fd
  · intro fd name held
    cases held

theorem run {past : List (System × Event)} {t : OpenTable} {keys : KeyInput}
    (run : Run Step (bootSystem t keys) past s) : Sound (opened past) s := by
  induction run with
  | nil => exact boot t keys
  | snoc _ moved ih =>
    rw [opened,List.foldl_append]
    exact ih.step moved

end Sound

/-! Calls that return. -/

/-- A length that is not negative as an `int` is cut to what the key buffer holds. -/
theorem readKeys_eq {keys : KeyInput} {len : Word} (positive : 0 ≤ len.toInt) (dst : Nat → Byte) :
    readKeys keys dst len = .ok (min keys.keyBufferLen len.toNat,
      overlay dst ((List.ofFn keys.keyBuffer).take (min keys.keyBufferLen.toNat len.toNat))) := by
  have bounds := keys.bounds
  have small : len.toInt = len.toNat := by
    rw [BitVec.toInt_eq_toNat_cond] at positive ⊢
    split_ifs at positive ⊢ <;> omega
  have least : (if keys.keyBufferLen < len.toInt then keys.keyBufferLen else len.toInt) =
      min keys.keyBufferLen len.toNat := by
    rw [small]
    split_ifs <;> omega
  have size : (BitVec.ofInt 32 (min keys.keyBufferLen len.toNat)).toNat =
      min keys.keyBufferLen.toNat len.toNat := by
    simp only [BitVec.toNat_ofInt]
    omega
  have copied : memcpyOut dst keys.keyBuffer (min keys.keyBufferLen.toNat len.toNat) =
      .ok (overlay dst ((List.ofFn keys.keyBuffer).take
        (min keys.keyBufferLen.toNat len.toNat))) := by
    apply memcpyOut_eq
    omega
  simp only [readKeys,least,size,copied,bind,Except.bind,pure,Except.pure]

/-- A negative one is less than that, and a copy of at least 2^31 bytes. -/
theorem readKeys_negative {keys : KeyInput} {len : Word} (negative : len.toInt < 0)
    (dst : Nat → Byte) : readKeys keys dst len = .error .outOfBounds := by
  have bounds := keys.bounds
  have large : 2^31 ≤ len.toNat := by
    rw [BitVec.toInt_eq_toNat_cond] at negative
    split_ifs at negative <;> omega
  have least : (if keys.keyBufferLen < len.toInt then keys.keyBufferLen else len.toInt) = len.toInt :=
    if_neg (by omega)
  have beyond : memcpyOut dst keys.keyBuffer len.toNat = .error .outOfBounds := if_neg (by omega)
  simp only [readKeys,least,BitVec.ofInt_toInt,beyond,bind,Except.bind]

namespace Sound

variable {d : Descriptors}

theorem write_returns (sound : Sound d s) (fd : Word) (str : Nat → Byte) (len : Word) :
    ∃ s' r, sysWriteHandler s fd str len = .ok (s',r) := by
  unfold sysWriteHandler
  split_ifs
  · exact ⟨_,_,rfl⟩
  · exact ⟨_,_,rfl⟩
  · cases held : fdToName s.table fd with
    | none => exact ⟨_,_,rfl⟩
    | some name =>
      rw [sound.resolves] at held
      obtain ⟨files,r,wrote⟩ := Syscall.write_returns (sound.short fd name held) s.files str len
      simp only [wrote,Except.map]
      exact ⟨_,_,rfl⟩

theorem read_returns (sound : Sound d s) (fd : Word) (dst : Nat → Byte) (len : Word) :
    (∃ s' r dst', sysReadHandler s fd dst len = .ok (s',r,dst')) ↔ ¬(fd = 0 ∧ len.toInt < 0) := by
  unfold sysReadHandler
  split_ifs with keyboard serial
  · simp only [keyboard,true_and,not_lt]
    constructor
    · rintro ⟨s',r,dst',result⟩
      by_contra negative
      rw [readKeys_negative (not_le.mp negative)] at result
      cases result
    · intro positive
      rw [readKeys_eq positive]
      exact ⟨_,_,_,rfl⟩
  · simp only [keyboard,false_and,not_false_eq_true,iff_true]
    exact ⟨_,_,_,rfl⟩
  · simp only [keyboard,false_and,not_false_eq_true,iff_true]
    cases held : fdToName s.table fd with
    | none => exact ⟨_,_,_,rfl⟩
    | some name =>
      cases found : findFile s.files name with
      | none =>
        have read : ramfsRead s.files name dst len = .ok (-1,dst) := by simp only [ramfsRead,found]
        simp only [read,Except.map]
        exact ⟨_,_,_,rfl⟩
      | some i =>
        obtain ⟨toRead,-,read⟩ := read_eq found (sound.fit i) dst len
        simp only [read,Except.map]
        exact ⟨_,_,_,rfl⟩

theorem call_returns (sound : Sound d s) (call : Call) :
    (∃ s' reply, syscallHandler s call = .ok (s',reply)) ↔ ¬call.negative := by
  cases call with
  | read fd dst len =>
    refine Iff.trans ?_ (sound.read_returns fd dst len)
    constructor
    · rintro ⟨s',reply,served⟩
      obtain ⟨⟨after,r,dst'⟩,result,-⟩ := map_ok served
      exact ⟨after,r,dst',result⟩
    · rintro ⟨s',r,dst',result⟩
      exact ⟨s',.buffer r dst',by rw [syscallHandler,result]; rfl⟩
  | write fd str len =>
    obtain ⟨s',r,result⟩ := sound.write_returns fd str len
    have served : syscallHandler s (.write fd str len) = .ok (s',.code r) := by
      rw [syscallHandler,result]
      rfl
    exact iff_of_true ⟨s',.code r,served⟩ not_false
  | _ => exact iff_of_true ⟨_,_,rfl⟩ not_false

end Sound

/-! The theorem. -/

/-- What the descriptors promise in a state, with `d` what the history left open. -/
structure Promise (d : Descriptors) (s : System) : Prop where
  resolves : ∀ fd, fdToName s.table fd = d fd
  range : ∀ fd, d fd ≠ none → 4 ≤ fd.toNat ∧ fd.toNat ≤ 19
  refused : ∀ name, (sysOpenHandler s name).2 = -1 ↔
    (∀ i, stored s.files i ≠ some name) ∨ d.openSet.ncard = 16
  fresh : ∀ name, (sysOpenHandler s name).2 ≠ -1 →
    d (BitVec.ofInt 32 (sysOpenHandler s name).2) = none
  closes : ∀ (fd other : Word), other ≠ fd →
    fdToName (sysCloseHandler s fd).1.table other = fdToName s.table other
  returns : ∀ call, (∃ s' reply, syscallHandler s call = .ok (s',reply)) ↔ ¬call.negative

theorem Sound.promise {d : Descriptors} (sound : Sound d s) : Promise d s where
  resolves fd := congrFun sound.resolves fd
  range fd held := by
    rw [← sound.resolves] at held
    obtain ⟨i,rfl⟩ := fdToName_range held
    have bound := i.isLt
    rw [descriptor_toNat]
    omega
  refused name := by
    rw [← sound.resolves,← full_iff]
    rcases sound.open_cases name with ⟨fails,result⟩ | ⟨i,table,⟨j,held⟩,free,-,result⟩
    · rw [result]
      exact iff_of_true rfl fails
    · rw [result]
      apply iff_of_false
      · show (i.val : Int) + 4 ≠ -1
        omega
      · rintro (missing | full)
        · exact missing j held
        · exact firstUnused_none full i free
  fresh name opened := by
    rcases sound.open_cases name with ⟨-,result⟩ | ⟨i,table,-,free,-,result⟩
    · rw [result] at opened
      exact absurd rfl opened
    · rw [result]
      show d (BitVec.ofInt 32 (i.val + 4)) = none
      rw [descriptor_ofInt]
      exact sound.fresh free
  closes fd other apart := by
    rw [close_names]
    exact Function.update_of_ne apart ..
  returns := sound.call_returns

/-- In every state that calls lead to, with the descriptors of the calls so far. -/
theorem descriptors_promise {past : List (System × Event)} {t : OpenTable} {keys : KeyInput}
    (run : Run Step (bootSystem t keys) past s) : Promise (opened past) s :=
  (Sound.run run).promise

theorem note_noNul : (0 : Byte) ∉ [110] := by decide

def noteName : CString := ⟨[110],note_noNul⟩

def noKeys : KeyInput := ⟨fun _ => 0,0,by decide⟩

def plainTable : OpenTable := ⟨fun _ _ => 0,fun _ => 1⟩

/-- A file is created. -/
def withNote : System := (sysCreateHandler (bootSystem plainTable noKeys) noteName).1

theorem open_withNote : (sysOpenHandler withNote noteName).2 = 4 := by
  decide +kernel

/-- Then it is opened. -/
theorem descriptors_promise_note : ∃ past s,
    Run Step (bootSystem plainTable noKeys) past s ∧ fdToName s.table 4 = some noteName := by
  have made : Step (bootSystem plainTable noKeys) (.syscall (.create noteName)
      (.code (sysCreateHandler (bootSystem plainTable noKeys) noteName).2)) withNote := rfl
  have returned : Step withNote (.syscall (.open noteName) (.code 4))
      (sysOpenHandler withNote noteName).1 := by
    rw [← open_withNote]
    rfl
  have run := Run.cons made (Run.single returned)
  refine ⟨_,_,run,?_⟩
  rw [(descriptors_promise run).resolves]
  rfl

end NimrodOS.Syscall
