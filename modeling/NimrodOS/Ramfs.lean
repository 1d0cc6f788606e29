import Mathlib.Data.Fin.Basic
import NimrodOS.Libc

/-! The file system in memory, `kernel/ramfs.c`. -/
namespace NimrodOS.Ramfs

open Libc

structure RamfsFile where
  name : Fin 32 → Byte
  data : Fin 4096 → Byte
  size : Word
  used : Byte

abbrev Files := Fin 64 → RamfsFile

def clearedFile : RamfsFile := ⟨fun _ => 0,fun _ => 0,0,0⟩

/-- `memset` over the whole table. -/
def ramfsInit : Files := fun _ => clearedFile

def setFile (files : Files) (i : Fin 64) (f : RamfsFile) : Files :=
  fun j => if j = i then f else files j

@[irreducible] def findFile (files : Files) (name : CString) : Option (Fin 64) :=
  Fin.find? fun i => (files i).used ≠ 0 ∧ strcmp (contents (files i).name) name.val = 0

@[irreducible] def findFreeSlot (files : Files) : Option (Fin 64) :=
  Fin.find? fun i => (files i).used = 0

def ramfsCreate (files : Files) (name : CString) : Files × Int :=
  match findFile files name with
  | some _ => (files,-1)
  | none =>
    match findFreeSlot files with
    | none => (files,-2)
    | some i =>
      let copied := strncpy (files i).name name 31
      let ended : Fin 32 → Byte := fun j => if j = 31 then 0 else copied j
      (setFile files i {files i with name := ended,size := 0,used := 1},0)

/-- The last part of `ramfs_write`, with the file found. -/
def writeFile (files : Files) (i : Fin 64) (data : Nat → Byte) (size : Word) :
    Except Fault (Files × Int) := do
  let size := if size > 4096 then 4096 else size
  let written ← memcpy (files i).data 0 data size.toNat
  return (setFile files i {files i with data := written,size := size},size.toInt)

/-- The file that was just created is looked up again and taken to be there. -/
def ramfsWrite (files : Files) (name : CString) (data : Nat → Byte) (size : Word) :
    Except Fault (Files × Int) :=
  match findFile files name with
  | some i => writeFile files i data size
  | none =>
    let (files,r) := ramfsCreate files name
    if r ≠ 0 then .ok (files,-1)
    else
      match findFile files name with
      | some i => writeFile files i data size
      | none => .error .nullPointer

def ramfsAppend (files : Files) (name : CString) (data : Nat → Byte) (size : Word) :
    Except Fault (Files × Int) :=
  match findFile files name with
  | none => .ok (files,-1)
  | some i => do
    let f := files i
    let space := 4096 - f.size
    let size := if size > space then space else size
    let written ← memcpy f.data f.size.toNat data size.toNat
    return (setFile files i {f with data := written,size := f.size + size},size.toInt)

/-- The result and the caller's buffer. -/
def ramfsRead (files : Files) (name : CString) (buf : Nat → Byte) (bufSize : Word) :
    Except Fault (Int × (Nat → Byte)) :=
  match findFile files name with
  | none => .ok (-1,buf)
  | some i => do
    let f := files i
    let toRead := if f.size < bufSize then f.size else bufSize
    let buf ← memcpyOut buf f.data toRead.toNat
    return (toRead.toInt,buf)

def ramfsDelete (files : Files) (name : CString) : Files × Int :=
  match findFile files name with
  | none => (files,-1)
  | some i =>
    let f := files i
    let unnamed : Fin 32 → Byte := fun j => if j = 0 then 0 else f.name j
    (setFile files i {f with used := 0,size := 0,name := unnamed},0)

def ramfsExists (files : Files) (name : CString) : Int := if findFile files name ≠ none then 1 else 0

def ramfsSize (files : Files) (name : CString) : Word :=
  match findFile files name with
  | none => 0
  | some i => (files i).size

/-- The rows that are filled, as the strings in them. -/
def listLoop (files : Files) (max : Int) : List (Fin 64) → List (List Byte) → List (List Byte)
  | [], names => names
  | i :: is, names =>
    if names.length < max then
      listLoop files max is
        (if (files i).used ≠ 0 then names ++ [contents (files i).name] else names)
    else names

def ramfsList (files : Files) (max : Int) : Int × List (List Byte) :=
  let names := listLoop files max (List.finRange 64) []
  (names.length,names)

def ramfsFileCount (files : Files) : Int :=
  (List.finRange 64).foldl (fun count i => if (files i).used ≠ 0 then count + 1 else count) 0

/-! Calls and what they return. -/

inductive Op where
  | create (name : CString)
  | write (name : CString) (data : Nat → Byte) (size : Word)
  | append (name : CString) (data : Nat → Byte) (size : Word)
  | read (name : CString) (buf : Nat → Byte) (bufSize : Word)
  | delete (name : CString)
  | exists (name : CString)
  | size (name : CString)
  | list (max : Int)
  | fileCount

inductive Reply where
  | code (r : Int)
  | buffer (r : Int) (buf : Nat → Byte)
  | size (r : Word)
  | names (r : Int) (rows : List (List Byte))

def step (files : Files) : Op → Except Fault (Files × Reply)
  | .create name => let (files,r) := ramfsCreate files name; .ok (files,.code r)
  | .write name data size => (ramfsWrite files name data size).map fun (files,r) => (files,.code r)
  | .append name data size => (ramfsAppend files name data size).map fun (files,r) => (files,.code r)
  | .read name buf bufSize => (ramfsRead files name buf bufSize).map fun (r,buf) => (files,.buffer r buf)
  | .delete name => let (files,r) := ramfsDelete files name; .ok (files,.code r)
  | .exists name => .ok (files,.code (ramfsExists files name))
  | .size name => .ok (files,.size (ramfsSize files name))
  | .list max => let (r,rows) := ramfsList files max; .ok (files,.names r rows)
  | .fileCount => .ok (files,.code (ramfsFileCount files))

end NimrodOS.Ramfs
