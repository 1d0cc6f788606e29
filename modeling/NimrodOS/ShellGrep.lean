import NimrodOS.KeyShows
import NimrodOS.ShellLines

/-! The command `grep` of `shell/shell.c`. It takes the file apart in its buffer, where every access
is checked, and loops get fuel. -/
namespace NimrodOS.ShellFiles

open Libc Ramfs Lines Checked KeyBuffers
open Shell (text)
open Vga (Call printDec makeColor)

inductive Stop where
  | access (at' : OutOfRange)
  | ramfs (fault : Fault)
  | fuel

def access {α : Type} (x : Except OutOfRange α) : Except Stop α := x.mapError .access

theorem ramfs_bind {α β : Type} (a : α) (f : α → Except Stop β) :
    ((Except.ok a).mapError Stop.ramfs >>= f) = f a := rfl

theorem access_bind {α β : Type} (a : α) (f : α → Except Stop β) : (access (.ok a) >>= f) = f a := rfl

/-! Searching. -/

/-- The inner loop of `strstr_pos`. -/
def matchesAt : List Byte → List Byte → Bool
  | _,[] => true
  | [],_ :: _ => false
  | c :: haystack,d :: needle => if c ≠ d then false else matchesAt haystack needle

def strstrLoop (needle : List Byte) (i : Nat) : List Byte → Int
  | [] => -1
  | c :: haystack =>
    if matchesAt (c :: haystack) needle then i else strstrLoop needle (i + 1) haystack

def strstrPos (haystack needle : List Byte) : Int :=
  if needle.length = 0 then -1 else strstrLoop needle 0 haystack

/-- The loop that prints a line and highlights its matches. -/
def highlight (pattern : List Byte) : Nat → List Byte → Except Stop (List Call)
  | 0,_ => .error .fuel
  | fuel + 1,p =>
    if p.length = 0 then .ok []
    else
      let pos := strstrPos p pattern
      if pos ≥ 0 then do
        let rest ← highlight pattern fuel (p.drop (pos.toNat + pattern.length))
        return .setColor 15 0 :: (p.take pos.toNat).map .putchar ++
          .setColor 12 0 :: pattern.map .putchar ++ rest
      else return [.setColor 15 0,.print p]

/-! Lines. -/

abbrev Buf := Fin 4097 → Byte

/-- `while (*eol && *eol != '\n') eol++;`, with the cells that are left. -/
def findEol (buf : Buf) : Nat → Nat → Except OutOfRange Nat
  | 0,eol => .error ⟨4097,eol⟩
  | cells + 1,eol => do
    let c ← get buf eol
    if c = 0 ∨ c = 10 then return eol else findEol buf cells (eol + 1)

/-- The string at a place; its terminator has to be inside the buffer. -/
def stringFrom (buf : Buf) (i : Nat) : Except OutOfRange (List Byte) :=
  if i + (stringAt buf i).length < 4097 then .ok (stringAt buf i) else .error ⟨4097,4097⟩

/-- What is printed about a line, and whether it is a match. -/
def grepLine (pattern : List Byte) (lineNum : Nat) (line : List Byte) : Except Stop (Nat × List Call) :=
  if strstrPos line pattern ≥ 0 then do
    let shown ← highlight pattern (line.length + 1) line
    return (1,.setColor 8 0 :: printDec (BitVec.ofNat 32 lineNum) ++ .print (text ": ") :: shown ++
      [.putchar 10])
  else return (0,[])

/-- The buffer, the number of matches and what has been printed. -/
def grepLoop (pressed : Nat → Bool) (pattern : List Byte) :
    Nat → Buf → Nat → Nat → Nat → Except Stop (Buf × Nat × List Call)
  | 0,_,_,_,_ => .error .fuel
  | fuel + 1,buf,line,lineNum,found => do
    let c ← access (get buf line)
    if c = 0 ∨ pressed lineNum then return (buf,found,[])
    else do
      let eol ← access (findEol buf (4097 - line) line)
      let saved ← access (get buf eol)
      let cut ← access (Checked.set buf eol 0)
      let string ← access (stringFrom cut line)
      let (more,shown) ← grepLine pattern lineNum string
      let restored ← access (Checked.set cut eol saved)
      let next := if saved = 10 then eol + 1 else eol
      let (buf,found,rest) ← grepLoop pressed pattern fuel restored next (lineNum + 1) (found + more)
      return (buf,found,shown ++ rest)

/-- The line, the presses of Ctrl+C that each round finds and what the stack holds where the buffer
comes to lie; the result has the buffer at the end. -/
def cmdGrep (files : Files) (args : CString) (pressed : Nat → Bool) (stack : Buf) :
    Except Stop (List Call × Buf) :=
  let (pattern,rest) := copyName 63 (Calc.skipSpaces args.val)
  let name := Calc.skipSpaces rest
  if pattern.length = 0 ∨ name.length = 0 then
    .ok ([.print (text "Usage: grep <pattern> <filename>\n")],stack)
  else if ramfsExists files (cstr name) = 0 then .ok (notFound (cstr name),stack)
  else do
    let old := fun i => if inside : i < 4097 then stack ⟨i,inside⟩ else 0
    let (n,read) ← (ramfsRead files (cstr name) old 4096).mapError .ramfs
    let buf : Buf := fun i => read i
    if n ≤ 0 then return ([],buf)
    else do
      let buf ← access (Checked.set buf n 0)
      let (buf,found,calls) ← grepLoop pressed pattern 4098 buf 0 1 0
      return (calls ++ .setColor 8 0 :: printDec (BitVec.ofNat 32 found) ++
        [.print (text " match(es)\n"),.setColor 10 0],buf)

/-! What `grep` is for. -/

/-- What calls print, each byte with the colour in force. -/
def inked (color : Byte) : List Call → List (Byte × Byte)
  | [] => []
  | .setColor fg bg :: calls => inked (makeColor fg bg) calls
  | .putchar c :: calls => (c,color) :: inked color calls
  | .print str :: calls => (str.takeWhile (· ≠ 0)).map (·,color) ++ inked color calls
  | .printColor str fg bg :: calls =>
    (str.takeWhile (· ≠ 0)).map (·,makeColor fg bg) ++ inked color calls

def darkGrey : Byte := makeColor 8 0
def lightRed : Byte := makeColor 12 0
def white : Byte := makeColor 15 0

/-- A line in white, with its leftmost matches that do not overlap in light red. -/
inductive Highlights (pattern : List Byte) : List Byte → List (Byte × Byte) → Prop where
  | plain {line : List Byte} (none : ¬pattern <:+: line) : Highlights pattern line (line.map (·,white))
  | found {before rest : List Byte} {shown : List (Byte × Byte)}
      (first : ∀ b r, before ++ pattern ++ rest = b ++ pattern ++ r → before.length ≤ b.length)
      (more : Highlights pattern rest shown) : Highlights pattern (before ++ pattern ++ rest)
        (before.map (·,white) ++ pattern.map (·,lightRed) ++ shown)

/-- The lines with a match, in order and under their numbers, and how many they are. -/
inductive Report (pattern : List Byte) : Nat → List (List Byte) → List (Byte × Byte) → Nat → Prop where
  | done {number : Nat} : Report pattern number [] [] 0
  | passed {number count : Nat} {line : List Byte} {ls : List (List Byte)} {out : List (Byte × Byte)}
      (none : ¬pattern <:+: line) (more : Report pattern (number + 1) ls out count) :
      Report pattern number (line :: ls) out count
  | listed {number count : Nat} {line : List Byte} {ls : List (List Byte)}
      {shown out : List (Byte × Byte)} {ink : Byte} (found : pattern <:+: line)
      (highlights : Highlights pattern line shown) (more : Report pattern (number + 1) ls out count) :
      Report pattern number (line :: ls) ((text (toString number ++ ": ")).map (·,darkGrey) ++ shown ++
        (10,ink) :: out) (count + 1)

variable {needle haystack pattern p s l : List Byte} {buf : Buf} {i n k fuel : Nat} {color : Byte}

/-! Searching. -/

theorem matchesAt_iff : matchesAt haystack needle ↔ needle <+: haystack := by
  induction needle generalizing haystack with
  | nil =>
    cases haystack <;> exact iff_of_true rfl (List.nil_prefix)
  | cons d needle ih =>
    cases haystack with
    | nil => simp [matchesAt]
    | cons c haystack =>
      rw [matchesAt,List.cons_prefix_cons,← ih]
      by_cases same : c = d
      · rw [if_neg (not_not.mpr same),and_iff_right same.symm]
      · rw [if_pos same]
        exact iff_of_false Bool.false_ne_true fun both => same both.1.symm

/-- The place of the leftmost match. -/
structure Found (needle haystack before rest : List Byte) : Prop where
  parts : haystack = before ++ needle ++ rest
  first : ∀ b r, haystack = b ++ needle ++ r → before.length ≤ b.length

theorem strstrLoop_spec (some' : needle ≠ []) (i : Nat) (haystack : List Byte) :
    (¬needle <:+: haystack ∧ strstrLoop needle i haystack = -1) ∨
      ∃ before rest, Found needle haystack before rest ∧
        strstrLoop needle i haystack = (i + before.length : Nat) := by
  induction haystack generalizing i with
  | nil => exact .inl ⟨fun inside => some' (List.infix_nil.mp inside),rfl⟩
  | cons c haystack ih =>
    rw [strstrLoop]
    by_cases here : matchesAt (c :: haystack) needle
    · obtain ⟨rest,parts⟩ := matchesAt_iff.mp here
      rw [if_pos here]
      exact .inr ⟨[],rest,⟨parts.symm,fun _ _ _ => Nat.zero_le _⟩,rfl⟩
    · rw [if_neg here]
      have later : ¬needle <+: c :: haystack := mt matchesAt_iff.mpr here
      rcases ih (i + 1) with ⟨none,pos⟩ | ⟨before,rest,⟨parts,first⟩,pos⟩
      · refine .inl ⟨fun inside => ?_,pos⟩
        exact (List.infix_cons_iff.mp inside).elim later none
      · refine .inr ⟨c :: before,rest,⟨by rw [parts]; rfl,fun b r same => ?_⟩,?_⟩
        · cases b with
          | nil => exact absurd ⟨r,same.symm⟩ later
          | cons d b => exact Nat.succ_le_succ (first b r (List.cons.inj same).2)
        · rw [pos,List.length_cons]
          congr 1
          omega

theorem strstrPos_spec (some' : needle ≠ []) (haystack : List Byte) :
    (¬needle <:+: haystack ∧ strstrPos haystack needle = -1) ∨
      ∃ before rest, Found needle haystack before rest ∧ strstrPos haystack needle = before.length := by
  have solid : ¬needle.length = 0 := mt List.eq_nil_of_length_eq_zero some'
  rw [strstrPos,if_neg solid]
  simpa using strstrLoop_spec some' 0 haystack

theorem strstrPos_nonneg (some' : needle ≠ []) : strstrPos haystack needle ≥ 0 ↔ needle <:+: haystack := by
  rcases strstrPos_spec some' haystack with ⟨none,pos⟩ | ⟨before,rest,⟨parts,-⟩,pos⟩
  · rw [pos]
    exact iff_of_false (by decide) none
  · rw [pos]
    exact iff_of_true (Int.natCast_nonneg _) ⟨before,rest,parts.symm⟩

/-! What is printed. -/

theorem inked_append (color : Byte) (first : List Call) : ∃ ink, ∀ second,
    inked color (first ++ second) = inked color first ++ inked ink second := by
  induction first generalizing color with
  | nil => exact ⟨color,fun _ => rfl⟩
  | cons call first ih =>
    cases call with
    | setColor fg bg => exact ih (makeColor fg bg)
    | putchar c =>
      obtain ⟨ink,same⟩ := ih color
      exact ⟨ink,fun second => congrArg _ (same second)⟩
    | print str =>
      obtain ⟨ink,same⟩ := ih color
      exact ⟨ink,fun second => by simp [inked,same second]⟩
    | printColor str fg bg =>
      obtain ⟨ink,same⟩ := ih color
      exact ⟨ink,fun second => by simp [inked,same second]⟩

theorem inked_putchars (color : Byte) (s : List Byte) (calls : List Call) :
    inked color (s.map .putchar ++ calls) = s.map (·,color) ++ inked color calls := by
  induction s with
  | nil => rfl
  | cons c s ih => exact congrArg _ ih

theorem inked_print (noNul : 0 ∉ s) (calls : List Call) :
    inked color (.print s :: calls) = s.map (·,color) ++ inked color calls := by
  rw [inked,show s.takeWhile (· ≠ 0) = s from cstr_val noNul]

theorem highlight_highlights (some' : pattern ≠ []) (noNul : 0 ∉ p) (enough : p.length < fuel) :
    ∃ calls, highlight pattern fuel p = .ok calls ∧ ∀ color, Highlights pattern p (inked color calls) := by
  induction fuel generalizing p with
  | zero => cases enough
  | succ fuel ih =>
    rw [highlight]
    by_cases empty : p.length = 0
    · obtain rfl := List.eq_nil_of_length_eq_zero empty
      rw [if_pos empty]
      exact ⟨[],rfl,fun _ => .plain fun inside => some' (List.infix_nil.mp inside)⟩
    rw [if_neg empty]
    rcases strstrPos_spec some' p with ⟨none,pos⟩ | ⟨before,rest,⟨parts,first⟩,pos⟩
    · simp only [pos]
      refine ⟨[.setColor 15 0,.print p],rfl,fun color => ?_⟩
      rw [inked,inked_print noNul,inked,List.append_nil]
      exact .plain none
    · have front : p.take before.length = before := by rw [parts]; simp
      have back : p.drop (before.length + pattern.length) = rest := by rw [parts]; simp
      have positive := List.length_pos_iff.mpr some'
      have length := congrArg List.length parts
      rw [List.length_append,List.length_append] at length
      have clean : 0 ∉ rest := fun member => noNul (by rw [parts]; exact List.mem_append_right _ member)
      obtain ⟨calls,done,shown⟩ := ih clean (by omega)
      simp only [pos,Int.toNat_natCast,front,back,if_pos (Int.natCast_nonneg before.length : (before.length : Int) ≥ 0),
        done]
      refine ⟨_,rfl,fun color => ?_⟩
      have out := Highlights.found (fun b r same => first b r (parts.trans same)) (shown lightRed)
      rw [← parts] at out
      simp only [List.cons_append,List.append_assoc,inked,inked_putchars] at out ⊢
      exact out

theorem digit_char : ∀ d < 10, BitVec.ofNat 8 (Nat.digitChar d).toNat = 48 + BitVec.ofNat 8 d := by decide

/-- The digits as they are written. -/
theorem digits_text (some' : 0 < n) : (Nat.toDigits 10 n).map (fun c => BitVec.ofNat 8 c.toNat) =
    (Nat.digits 10 n).reverse.map fun d => 48 + BitVec.ofNat 8 d := by
  induction n using Nat.strongRecOn with
  | ind n ih =>
    rw [Nat.digits_def' (by decide) some',List.reverse_cons,List.map_append]
    by_cases small : n < 10
    · rw [Nat.toDigits_of_lt_base small,Nat.div_eq_of_lt small,Nat.mod_eq_of_lt small]
      exact congrArg (fun c => [c]) (digit_char n small)
    · have less : n / 10 < n := Nat.div_lt_self some' (by decide)
      have left : 0 < n / 10 := Nat.div_pos (Nat.le_of_not_lt small) (by decide)
      rw [Nat.toDigits_of_base_le (by decide) (Nat.le_of_not_lt small),List.map_append,ih _ less left]
      exact congrArg (_ ++ [·]) (digit_char (n % 10) (Nat.mod_lt n (by decide)))

theorem inked_printDec (small : n < 2 ^ 32) (color : Byte) (calls : List Call) :
    inked color (printDec (BitVec.ofNat 32 n) ++ calls) =
      (text (toString n)).map (·,color) ++ inked color calls := by
  have value : (BitVec.ofNat 32 n).toNat = n := by
    rw [BitVec.toNat_ofNat,Nat.mod_eq_of_lt small]
  have written : text (toString n) = (Nat.toDigits 10 n).map fun c => BitVec.ofNat 8 c.toNat := by
    rw [text,Nat.toString_eq_ofList_toDigits,String.toList_ofList]
  rw [printDec,written]
  by_cases zero : n = 0
  · subst zero
    rfl
  · have nonzero : BitVec.ofNat 32 n ≠ 0 := fun same => zero (value.symm.trans (congrArg BitVec.toNat same))
    rw [if_neg nonzero,value,digits_text (Nat.pos_of_ne_zero zero),← inked_putchars,List.map_map]
    rfl

theorem text_append (a b : String) : text (a ++ b) = text a ++ text b := by
  rw [text,String.toList_append,List.map_append]
  rfl

/-- A line with a match is printed with its number. -/
theorem grepLine_cases (some' : pattern ≠ []) (noNul : 0 ∉ l) (small : n < 2 ^ 32) :
    (¬pattern <:+: l ∧ grepLine pattern n l = .ok (0,[])) ∨
    (pattern <:+: l ∧ ∃ calls shown ink, grepLine pattern n l = .ok (1,calls) ∧ Highlights pattern l shown ∧
      ∀ color rest, inked color (calls ++ rest) =
        (text (toString n ++ ": ")).map (·,darkGrey) ++ shown ++ (10,ink) :: inked ink rest) := by
  unfold grepLine
  by_cases found : pattern <:+: l
  · obtain ⟨body,done,highlights⟩ := highlight_highlights some' noNul (Nat.lt_succ_self l.length)
    obtain ⟨ink,behind⟩ := inked_append darkGrey body
    have colon : 0 ∉ text ": " := by decide
    rw [if_pos ((strstrPos_nonneg some').mpr found),done]
    refine .inr ⟨found,_,_,ink,rfl,highlights darkGrey,fun color rest => ?_⟩
    simp only [List.cons_append,List.append_assoc,inked,List.nil_append]
    rw [inked_printDec small,inked_print colon,show makeColor 8 0 = darkGrey from rfl,behind,text_append]
    simp only [List.map_append,List.append_assoc,inked]
  · rw [if_neg (mt (strstrPos_nonneg some').mp found)]
    exact .inl ⟨found,rfl⟩

/-! The lines in the buffer. -/

/-- The terminator is behind the characters. -/
theorem get_row (row : Row buf s) (inside : i ≤ s.length) : get buf i = .ok ((s.drop i).headD 0) := by
  have fits := row.fits
  rw [get_inside (i := i) (by omega)]
  by_cases char : i < s.length
  · rw [List.drop_eq_getElem_cons char,row.char char]
    rfl
  · obtain rfl : i = s.length := by omega
    rw [List.drop_length,row.ends]
    rfl

theorem drop_line {t : List Byte} (here : s.drop i = l ++ t) : s.drop (i + l.length) = t := by
  rw [← List.drop_drop,here,List.drop_left]

/-- The loop stops at a newline or at the terminator. -/
theorem findEol_eq (row : Row buf s) {t : List Byte} (inside : i ≤ s.length) (here : s.drop i = l ++ t)
    (clean : 10 ∉ l) (ends : t.headD 0 = 0 ∨ t.headD 0 = 10) (cells : l.length < k) :
    findEol buf k i = .ok (i + l.length) := by
  induction l generalizing i k with
  | nil =>
    obtain ⟨k,rfl⟩ := Nat.exists_eq_succ_of_ne_zero (Nat.ne_of_gt cells)
    rw [findEol,get_row row inside,here]
    exact if_pos ends
  | cons c l ih =>
    obtain ⟨k,rfl⟩ := Nat.exists_eq_succ_of_ne_zero (Nat.ne_of_gt (Nat.zero_lt_of_lt cells))
    obtain ⟨other,clean⟩ := not_or.mp (mt List.mem_cons.mpr clean)
    have member : c ∈ s.drop i := here ▸ List.mem_cons_self
    have solid : c ≠ 0 := fun zero => row.noNul (zero ▸ List.mem_of_mem_drop member)
    have length := congrArg List.length here
    rw [List.length_drop,List.length_append,List.length_cons] at length
    have next : s.drop (i + 1) = l ++ t := by rw [← List.drop_drop,here]; rfl
    have stays : ¬(c = 0 ∨ c = 10) := not_or.mpr ⟨solid,fun newline => other newline.symm⟩
    rw [findEol,get_row row inside,here]
    refine (if_neg stays).trans ?_
    rw [ih (by omega) next clean (Nat.lt_of_succ_lt_succ cells),List.length_cons]
    congr 1
    omega

/-- A line as a string, once its end is overwritten. -/
theorem stringFrom_cut (row : Row buf s) {t : List Byte} (inside : i ≤ s.length)
    (here : s.drop i = l ++ t) : ∃ place : i + l.length < 4097,
      stringFrom (Function.update buf ⟨i + l.length,place⟩ 0) i = .ok l := by
  have length := congrArg List.length here
  rw [List.length_drop,List.length_append] at length
  have fits := row.fits
  have cut := row.cut (i := i + l.length) (by omega)
  have front : (s.take (i + l.length)).length = i + l.length := List.length_take_of_le (by omega)
  have string := stringAt_row cut (i := i) (by omega)
  have line : (s.take (i + l.length)).drop i = l := by
    rw [List.drop_take,Nat.add_sub_cancel_left,here,List.take_left]
  refine ⟨by omega,?_⟩
  rw [stringFrom,string,line]
  exact if_pos (by omega)

/-- A round restores the buffer. -/
theorem grepLoop_round (row : Row buf s) {t : List Byte} (inside : i < s.length)
    (here : s.drop i = l ++ t) (clean : 10 ∉ l) (ends : t.headD 0 = 0 ∨ t.headD 0 = 10)
    (pressed : Nat → Bool) (quiet : pressed n = false) (found : Nat) :
    grepLoop pressed pattern (fuel + 1) buf i n found = (do
      let (more,shown) ← grepLine pattern n l
      let (buf,found,rest) ← grepLoop pressed pattern fuel buf
        (if t.headD 0 = 10 then i + l.length + 1 else i + l.length) (n + 1) (found + more)
      return (buf,found,shown ++ rest)) := by
  have length := congrArg List.length here
  rw [List.length_drop,List.length_append] at length
  have fits := row.fits
  have solid : (s.drop i).headD 0 ≠ 0 := by
    rw [List.drop_eq_getElem_cons inside]
    exact fun zero => row.noNul (zero ▸ List.getElem_mem inside)
  have goes : ¬((s.drop i).headD 0 = 0 ∨ pressed n = true) := by
    rw [quiet]
    exact not_or.mpr ⟨solid,Bool.false_ne_true⟩
  obtain ⟨place,string⟩ := stringFrom_cut row inside.le here
  have eol := findEol_eq row inside.le here clean ends (k := 4097 - i) (by omega)
  have saved : get buf (i + l.length : Nat) = .ok (t.headD 0) := by
    rw [get_row row (by omega),drop_line here]
  have byte : buf ⟨i + l.length,place⟩ = t.headD 0 :=
    Except.ok.inj ((get_inside place).symm.trans saved)
  have restored : Function.update (Function.update buf ⟨i + l.length,place⟩ 0) ⟨i + l.length,place⟩
      (t.headD 0) = buf := by
    rw [Function.update_idem,← byte,Function.update_eq_self]
  rw [grepLoop,get_row row inside.le,access_bind,if_neg goes,eol,access_bind,saved,access_bind,
    set_inside place,access_bind,string,access_bind]
  simp only [set_inside place,access_bind,restored]

/-- Where the next line begins. -/
theorem next_line (inside : i < s.length) : ∃ l t next, s.drop i = l ++ t ∧ 10 ∉ l ∧
    (t.headD 0 = 0 ∨ t.headD 0 = 10) ∧
    (if t.headD 0 = 10 then i + l.length + 1 else i + l.length) = next ∧ i < next ∧ next ≤ s.length ∧
    lines 10 (s.drop i) = l :: lines 10 (s.drop next) := by
  rcases cases_line 10 (s.drop i) with clean | ⟨l,rest,here,clean⟩
  · have some' : s.drop i ≠ [] := by simpa using inside
    have length := List.length_drop (l := s) (i := i)
    refine ⟨s.drop i,[],s.length,(List.append_nil _).symm,clean,.inl rfl,?_,inside,Nat.le_refl _,?_⟩
    · show i + (s.drop i).length = s.length
      omega
    · rw [List.drop_length]
      exact lines_last clean some'
  · have length := congrArg List.length here
    rw [List.length_drop,List.length_append,List.length_cons] at length
    have next : s.drop (i + l.length + 1) = rest := by
      rw [← List.drop_drop,drop_line here]
      rfl
    refine ⟨l,10 :: rest,i + l.length + 1,here,clean,.inr rfl,rfl,by omega,by omega,?_⟩
    rw [next,here]
    exact lines_append clean rest

theorem grepLoop_reports (fuel : Nat) {pressed : Nat → Bool} (some' : pattern ≠ []) (row : Row buf s)
    (quiet : ∀ n, pressed n = false) (inside : i ≤ s.length) (enough : s.length - i < fuel)
    (number : n ≤ i + 1) (found : Nat) :
    ∃ count calls, grepLoop pressed pattern fuel buf i n found = .ok (buf,found + count,calls) ∧
      count ≤ s.length - i ∧ ∀ color, Report pattern n (lines 10 (s.drop i)) (inked color calls) count := by
  have fits := row.fits
  induction fuel generalizing i n found with
  | zero => exact absurd enough (Nat.not_lt_zero _)
  | succ fuel ih =>
    by_cases more : i < s.length
    · obtain ⟨l,t,next,here,clean,ends,place,after,inside',parts⟩ := next_line more
      have noNul : 0 ∉ l := fun member =>
        row.noNul (List.mem_of_mem_drop (here ▸ List.mem_append_left t member))
      rw [grepLoop_round row more here clean ends pressed (quiet n),place,parts]
      rcases grepLine_cases (n := n) some' noNul (by omega) with ⟨none,done⟩ | ⟨match',calls,shown,ink,done,highlights,inks⟩
      · obtain ⟨count,rest,done',few,report⟩ := ih (n := n + 1) inside' (by omega) (by omega) (found + 0)
        rw [done]
        refine ⟨count,rest,?_,by omega,fun color => .passed none (report color)⟩
        simp only [bind,Except.bind,done']
        rfl
      · obtain ⟨count,rest,done',few,report⟩ := ih (n := n + 1) inside' (by omega) (by omega) (found + 1)
        rw [done]
        refine ⟨count + 1,calls ++ rest,?_,by omega,fun color => ?_⟩
        · simp only [bind,Except.bind,done',Nat.add_assoc,Nat.add_comm 1]
          rfl
        · rw [inks]
          exact .listed match' highlights (report ink)
    · obtain rfl : i = s.length := by omega
      refine ⟨0,[],?_,Nat.zero_le _,fun _ => ?_⟩
      · rw [grepLoop,get_row row (Nat.le_refl _),List.drop_length]
        rfl
      · rw [List.drop_length]
        exact .done

/-! The command. -/

/-- What follows the first word and the spaces behind it. -/
def fileWord (args : CString) : CString := cstr (Calc.skipSpaces
  ((Calc.skipSpaces args.val).drop (word (Calc.skipSpaces args.val)).length))

/-- A file in the buffer, with its terminator. -/
def loaded (stack : Buf) (s : List Byte) : Buf := fun i =>
  if (i : Nat) < s.length then s.getD i 0 else if (i : Nat) = s.length then 0 else stack i

variable {files : Files} {args : CString} {stack : Buf}

theorem loaded_row (stack : Buf) (noNul : 0 ∉ s) (fits : s.length < 4097) : Row (loaded stack s) s := by
  refine .of_chars noNul fits (fun i inside => ?_) ?_
  · exact (if_pos inside).trans (List.getD_eq_getElem _ _ inside)
  · exact (if_neg (Nat.lt_irrefl _)).trans (if_pos rfl)

theorem loaded_set (fits : s.length < 4097) : Checked.set (fun i : Fin 4097 =>
    overlay (fun i => if inside : i < 4097 then stack ⟨i,inside⟩ else 0) s i) (s.length : Int) 0 =
      .ok (loaded stack s) := by
  rw [set_inside fits]
  refine congrArg Except.ok (funext fun i => ?_)
  rw [loaded,Function.update_apply]
  by_cases ends : i = ⟨s.length,fits⟩
  · subst ends
    rw [if_pos rfl,if_neg (Nat.lt_irrefl _),if_pos rfl]
  · have apart : (i : Nat) ≠ s.length := fun same => ends (Fin.ext same)
    rw [if_neg ends,if_neg apart,overlay]
    by_cases inside : (i : Nat) < s.length
    · rw [if_pos inside,List.getD_eq_getElem _ _ inside,List.getD_eq_getElem _ _ inside]
    · rw [if_neg inside,List.getD_eq_default _ _ (Nat.le_of_not_lt inside),dif_pos i.isLt]

/-- `grep` prints the lines with a match under their numbers, and how many they are, and leaves its
buffer as the file filled it. -/
theorem grep_reports (fit : SizesFit files) (short : (firstWord args).val.length ≤ 63)
    (some' : (firstWord args).val ≠ []) (named : (fileWord args).val ≠ [])
    (file : held files (fileWord args) = some s) (bytes : s ≠ []) (noNul : 0 ∉ s) (stack : Buf) :
    ∃ calls count, cmdGrep files args (fun _ => false) stack = .ok (calls,loaded stack s) ∧
      ∀ color, ∃ out, Report (firstWord args).val 1 (lines 10 s) out count ∧
        inked color calls = out ++ (text (toString count ++ " match(es)\n")).map (·,darkGrey) := by
  have bound := held_length file
  have positive := List.length_pos_iff.mpr bytes
  have fits : s.length < 4097 := Nat.lt_succ_of_le bound
  have row := loaded_row stack noNul fits
  have quiet (n : Nat) : (fun _ => false : Nat → Bool) n = false := rfl
  obtain ⟨count,calls,done,few,report⟩ := grepLoop_reports 4098 some' row quiet (Nat.zero_le _)
    (by omega) (Nat.le_refl 1) 0
  rw [firstWord_val] at short some' done report ⊢
  have pattern : (word (Calc.skipSpaces args.val)).take 63 = word (Calc.skipSpaces args.val) :=
    List.take_of_length_le short
  have line : (fileWord args).val = Calc.skipSpaces
      ((Calc.skipSpaces args.val).drop (word (Calc.skipSpaces args.val)).length) := by
    refine cstr_val fun member => ?_
    exact skipSpaces_noNul args (List.mem_of_mem_drop ((List.dropWhile_suffix _).subset member))
  have solid : ¬((word (Calc.skipSpaces args.val)).length = 0 ∨ (Calc.skipSpaces
      ((Calc.skipSpaces args.val).drop (word (Calc.skipSpaces args.val)).length)).length = 0) := by
    rw [← line]
    simpa using And.intro some' named
  refine ⟨calls ++ .setColor 8 0 :: printDec (BitVec.ofNat 32 count) ++
    [.print (text " match(es)\n"),.setColor 10 0],count,?_,fun color => ?_⟩
  · have more : ¬(s.length : Int) ≤ 0 := by omega
    unfold fileWord at file
    rw [Nat.zero_add] at done
    unfold cmdGrep
    rw [copyName_eq,Nat.min_eq_left short,pattern]
    dsimp only
    rw [if_neg solid,if_neg (exists_held file),read_whole fit file,ramfs_bind]
    dsimp only
    rw [if_neg more,loaded_set fits,access_bind,done]
    rfl
  · obtain ⟨ink,behind⟩ := inked_append color calls
    have last : 0 ∉ text " match(es)\n" := by decide
    refine ⟨_,report color,?_⟩
    rw [List.append_assoc,behind,text_append,List.map_append]
    congr 1
    simp only [List.cons_append,inked]
    rw [inked_printDec (by omega),inked_print last,inked,inked,List.append_nil]
    rfl

def grepArgs : CString := ⟨text "h a",by decide⟩

theorem grep_reports_note :
    ∃ calls count, cmdGrep (oneFile 2) grepArgs (fun _ => false) (fun _ => 7) =
        .ok (calls,loaded (fun _ => 7) [104,104]) ∧
      ∀ color, ∃ out, Report (firstWord grepArgs).val 1 (lines 10 [104,104]) out count ∧
        inked color calls = out ++ (text (toString count ++ " match(es)\n")).map (·,darkGrey) :=
  grep_reports (setFile_fits ramfsInit_fits (by decide)) (by decide) (by decide) (by decide)
    (by decide +kernel) (by decide) (by decide) _

end NimrodOS.ShellFiles
