import NimrodOS.ShellFiles

/-! The chain of comparisons in `shell_execute` of `shell/shell.c`, from the line with its alias
expanded to the function that is called, and the words of the shell that it stands for. -/
namespace NimrodOS.ShellTable

open Libc
open Shell (text startsWith)
open ShellFiles (word)

/-- What a line calls, with the arguments that it passes on. -/
inductive Command where
  | help | clear | info | mem
  | echo (args : List Byte)
  | color (args : List Byte)
  | halt | reboot | uptime
  | sleep (args : List Byte)
  | ticks
  | serial (args : List Byte)
  | pages
  | pagemap (args : List Byte)
  | ls
  | cat (args : List Byte)
  | touch (args : List Byte)
  | write (args : List Byte)
  | rm (args : List Byte)
  | stat (args : List Byte)
  | pid | ps
  | run (args : List Byte)
  | kill (args : List Byte)
  | exec (args : List Byte)
  | progs | net
  | ping (args : List Byte)
  | resolve (args : List Byte)
  | pci | history
  | rand (args : List Byte)
  | whoami | hostname
  | edit (args : List Byte)
  | wc (args : List Byte)
  | head (args : List Byte)
  | tail (args : List Byte)
  | append (args : List Byte)
  | cp (args : List Byte)
  | env
  | set (args : List Byte)
  | unset (args : List Byte)
  | calc (args : List Byte)
  | grep (args : List Byte)
  | beep (args : List Byte)
  | hexdump (args : List Byte)
  | cpuinfo | date | time | snake
  | alias (args : List Byte)
  | unalias (args : List Byte)
  | unknown (input : List Byte)
  deriving DecidableEq

/-- A branch of the chain: its comparison, and what it passes on. -/
inductive Branch where
  /-- `strcmp(input, "…") == 0`, for one word or for two. -/
  | exact (strs : List String) (command : Command)
  /-- `starts_with(input, "…")`, which passes `input + n` on. -/
  | starts (start : String) (n : Nat) (command : List Byte → Command)
  /-- Both comparisons; the branch finds out itself what it passes on. -/
  | either (str start : String) (args : List Byte → List Byte) (command : List Byte → Command)

namespace Branch

def Holds (input : List Byte) : Branch → Prop
  | exact strs _ => ∃ str ∈ strs, strcmp input (text str) = 0
  | starts start _ _ => startsWith input (text start)
  | either str start _ _ => strcmp input (text str) = 0 ∨ startsWith input (text start)

instance (input : List Byte) : (b : Branch) → Decidable (b.Holds input)
  | exact strs _ => inferInstanceAs (Decidable (∃ str ∈ strs, strcmp input (text str) = 0))
  | starts start _ _ => inferInstanceAs (Decidable (startsWith input (text start) = true))
  | either str start _ _ => inferInstanceAs
      (Decidable (strcmp input (text str) = 0 ∨ startsWith input (text start) = true))

def call (input : List Byte) : Branch → Command
  | exact _ command => command
  | starts _ n command => command (input.drop n)
  | either _ _ args command => command (args input)

end Branch

/-- Where `rand` finds its limit; with no digits the limit is the one it has without arguments. -/
def randArgs (input : List Byte) : List Byte :=
  if startsWith input (text "rand ") then input.drop 5 else []

def beepArgs (input : List Byte) : List Byte := if input.length > 4 then input.drop 5 else []

def aliasArgs (input : List Byte) : List Byte := if input.length > 5 then input.drop 6 else []

def chain : List Branch := [
  .exact ["help"] .help,
  .exact ["clear","cls"] .clear,
  .exact ["info"] .info,
  .exact ["mem"] .mem,
  .starts "echo " 5 .echo,
  .starts "color " 6 .color,
  .exact ["halt","shutdown"] .halt,
  .exact ["reboot"] .reboot,
  .exact ["uptime"] .uptime,
  .starts "sleep " 6 .sleep,
  .exact ["ticks"] .ticks,
  .starts "serial " 7 .serial,
  .exact ["pages"] .pages,
  .starts "pagemap " 8 .pagemap,
  .exact ["ls"] .ls,
  .starts "cat " 4 .cat,
  .starts "touch " 6 .touch,
  .starts "write " 6 .write,
  .starts "rm " 3 .rm,
  .starts "stat " 5 .stat,
  .exact ["pid"] .pid,
  .exact ["ps"] .ps,
  .starts "run " 4 .run,
  .starts "kill " 5 .kill,
  .starts "exec " 5 .exec,
  .exact ["progs"] .progs,
  .exact ["net","netinfo"] .net,
  .starts "ping " 5 .ping,
  .starts "resolve " 8 .resolve,
  .exact ["pci"] .pci,
  .exact ["history"] .history,
  .either "rand" "rand " randArgs .rand,
  .exact ["whoami"] .whoami,
  .exact ["hostname"] .hostname,
  .starts "edit " 5 .edit,
  .starts "wc " 3 .wc,
  .starts "head " 5 .head,
  .starts "tail " 5 .tail,
  .starts "append " 7 .append,
  .starts "cp " 3 .cp,
  .exact ["env"] .env,
  .starts "set " 4 .set,
  .starts "unset " 6 .unset,
  .starts "calc " 5 .calc,
  .starts "grep " 5 .grep,
  .either "beep" "beep " beepArgs .beep,
  .starts "hexdump " 8 .hexdump,
  .exact ["cpuinfo"] .cpuinfo,
  .exact ["date"] .date,
  .exact ["time"] .time,
  .exact ["snake"] .snake,
  .either "alias" "alias " aliasArgs .alias,
  .starts "unalias " 8 .unalias]

/-- The first branch whose comparison holds. -/
def dispatchIn (branches : List Branch) (input : List Byte) : Command :=
  match branches.find? fun b => b.Holds input with
  | some b => b.call input
  | none => .unknown input

def dispatch (input : List Byte) : Command := dispatchIn chain input

/-! The words of the shell. -/

/-- How a word is used: alone, with arguments behind a space, or either way. -/
inductive Usage where
  | alone (command : Command)
  | followed (command : List Byte → Command)
  | either (command : List Byte → Command)

/-- What a line calls whose first word is used like this, with `rest` behind the word. -/
def Usage.call (input : List Byte) : Usage → List Byte → Command
  | alone command,[] => command
  | followed command,_ :: args => command args
  | either command,rest => command (rest.drop 1)
  | _,_ => .unknown input

/-- The words of a branch. -/
def Branch.usages : Branch → List (List Byte × Usage)
  | exact strs command => strs.map fun str => (text str,.alone command)
  | starts start _ command => [((text start).dropLast,.followed command)]
  | either str _ _ command => [(text str,.either command)]

def language (branches : List Branch) : List (List Byte × Usage) := branches.flatMap Branch.usages

/-- A line is read by its first word. -/
def meaning (branches : List Branch) (input : List Byte) : Command :=
  match (language branches).lookup (word input) with
  | some usage => usage.call input (input.drop (word input).length)
  | none => .unknown input

/-- A word without space and end. -/
def Solid (w : List Byte) : Prop := 32 ∉ w ∧ 0 ∉ w

instance (w : List Byte) : Decidable (Solid w) := inferInstanceAs (Decidable (_ ∧ _))

/-- The comparisons of a branch are about words, and it passes on what follows the space. -/
inductive Branch.Fits : Branch → Prop where
  | exact {strs : List String} {command : Command} (solid : ∀ str ∈ strs, Solid (text str)) :
      Fits (exact strs command)
  | starts {start : String} {n : Nat} {command : List Byte → Command}
      (solid : Solid (text start).dropLast) (space : text start = (text start).dropLast ++ [32])
      (behind : n = (text start).dropLast.length + 1) : Fits (starts start n command)
  | either {str start : String} {args : List Byte → List Byte} {command : List Byte → Command}
      (solid : Solid (text str)) (space : text start = text str ++ [32]) (bare : args (text str) = [])
      (behind : ∀ rest, args (text str ++ 32 :: rest) = rest) : Fits (either str start args command)

variable {branches : List Branch} {b c : Branch} {input w rest : List Byte} {u : Usage}

/-! Comparisons. -/

theorem startsWith_iff {start : List Byte} : startsWith input start = true ↔ start <+: input := by
  induction input generalizing start with
  | nil => cases start <;> simp [startsWith]
  | cons c input ih =>
    cases start with
    | nil => simp [startsWith]
    | cons p start =>
      rw [startsWith,List.cons_prefix_cons,Bool.and_eq_true,ih,decide_eq_true_iff,eq_comm (a := c)]

theorem word_split (clean : 32 ∉ w) (rest : List Byte) : word (w ++ 32 :: rest) = w := by
  have solid : ∀ c ∈ w, decide (c ≠ 32) = true := fun c member =>
    decide_eq_true fun blank : c = 32 => clean (blank ▸ member)
  rw [word,List.takeWhile_append_of_pos solid,List.takeWhile_cons_of_neg (by simp),List.append_nil]

theorem word_whole (clean : 32 ∉ w) : word w = w :=
  List.takeWhile_eq_self_iff.mpr fun c member => decide_eq_true fun blank : c = 32 => clean (blank ▸ member)

/-- A line is its first word, and a space and more, or nothing. -/
theorem line_cases (input : List Byte) :
    input = word input ∨ ∃ rest, input = word input ++ 32 :: rest := by
  have split := List.takeWhile_append_dropWhile (p := fun c : Byte => decide (c ≠ 32)) (l := input)
  have first := List.head?_dropWhile_not (fun c : Byte => decide (c ≠ 32)) input
  cases behind : input.dropWhile fun c => decide (c ≠ 32) with
  | nil =>
    rw [behind,List.append_nil] at split
    exact .inl split.symm
  | cons c rest =>
    rw [behind] at split first
    obtain rfl : c = 32 := by simpa using first
    exact .inr ⟨rest,split.symm⟩

theorem equals_iff (noNul : 0 ∉ input) (solid : Solid w) : strcmp input w = 0 ↔ input = w :=
  strcmp_eq_zero noNul solid.2

theorem starts_iff : startsWith input (w ++ [32]) = true ↔ ∃ rest, input = w ++ 32 :: rest := by
  rw [startsWith_iff]
  constructor
  · rintro ⟨rest,split⟩
    exact ⟨rest,by rw [← split,List.append_assoc,List.singleton_append]⟩
  · rintro ⟨rest,rfl⟩
    exact ⟨rest,by rw [List.append_assoc,List.singleton_append]⟩

/-! Branches. -/

theorem drop_word (clean : 32 ∉ w) : (w ++ 32 :: rest).drop (word (w ++ 32 :: rest)).length = 32 :: rest := by
  rw [word_split clean,List.drop_left]

theorem drop_space (w rest : List Byte) : (w ++ 32 :: rest).drop (w.length + 1) = rest := by
  rw [← List.drop_drop,List.drop_left]
  rfl

theorem spaced (w rest : List Byte) : 32 ∈ w ++ 32 :: rest := by simp

/-- A branch serves the lines that use one of its words in its way. -/
theorem usage_holds (fits : b.Fits) (noNul : 0 ∉ input) (known : (word input,u) ∈ b.usages) :
    u.call input (input.drop (word input).length) =
      if b.Holds input then b.call input else .unknown input := by
  cases fits with
  | @exact strs command solids =>
    obtain ⟨str,member,same⟩ := List.mem_map.mp known
    obtain ⟨named,rfl⟩ := Prod.mk.inj same
    have solid := solids str member
    rcases line_cases input with whole | ⟨rest,split⟩
    · rw [← named] at whole
      have holds : (Branch.exact strs command).Holds input :=
        ⟨str,member,(equals_iff noNul solid).mpr whole⟩
      rw [if_pos holds,whole,word_whole solid.1,List.drop_length]
      rfl
    · have fails : ¬(Branch.exact strs command).Holds input := by
        rintro ⟨other,member',equal⟩
        have solid' := solids other member'
        rw [(equals_iff noNul solid').mp equal] at split
        exact solid'.1 (split ▸ spaced ..)
      rw [if_neg fails]
      rw [← named] at split
      subst split
      rw [drop_word solid.1]
      rfl
  | @starts start n command solid space behind =>
    obtain ⟨named,rfl⟩ := Prod.mk.inj (List.mem_singleton.mp known)
    have holds_iff : (Branch.starts start n command).Holds input ↔
        ∃ rest, input = (text start).dropLast ++ 32 :: rest := by
      rw [← starts_iff,← space]
      rfl
    rcases line_cases input with whole | ⟨rest,split⟩
    · rw [named] at whole
      have fails : ¬(Branch.starts start n command).Holds input := by
        rw [holds_iff]
        rintro ⟨rest,split⟩
        exact solid.1 (whole ▸ split ▸ spaced _ rest)
      rw [if_neg fails,named,whole,List.drop_length]
      rfl
    · rw [named] at split
      rw [if_pos (holds_iff.mpr ⟨rest,split⟩)]
      subst split
      rw [drop_word solid.1,Branch.call,behind,drop_space]
      rfl
  | @either str start args command solid space bare behind =>
    obtain ⟨named,rfl⟩ := Prod.mk.inj (List.mem_singleton.mp known)
    rcases line_cases input with whole | ⟨rest,split⟩
    · rw [named] at whole
      have holds : (Branch.either str start args command).Holds input :=
        .inl ((equals_iff noNul solid).mpr whole)
      rw [if_pos holds,whole,word_whole solid.1,List.drop_length,Branch.call,bare]
      rfl
    · rw [named] at split
      have holds : (Branch.either str start args command).Holds input :=
        .inr (space ▸ starts_iff.mpr ⟨rest,split⟩)
      rw [if_pos holds]
      subst split
      rw [drop_word solid.1,Branch.call,behind]
      rfl

/-- A comparison that holds is about the first word. -/
theorem holds_word (fits : b.Fits) (noNul : 0 ∉ input) (holds : b.Holds input) :
    word input ∈ b.usages.map Prod.fst := by
  cases fits with
  | exact solids =>
    obtain ⟨str,member,equal⟩ := holds
    have solid := solids str member
    rw [(equals_iff noNul solid).mp equal,word_whole solid.1]
    simpa [Branch.usages] using ⟨str,member,rfl⟩
  | starts solid space behind =>
    rw [Branch.Holds,space,starts_iff] at holds
    obtain ⟨rest,rfl⟩ := holds
    rw [word_split solid.1]
    exact List.mem_singleton_self _
  | either solid space =>
    rw [Branch.Holds,space,starts_iff,equals_iff noNul solid] at holds
    rcases holds with rfl | ⟨rest,rfl⟩
    · rw [word_whole solid.1]
      exact List.mem_singleton_self _
    · rw [word_split solid.1]
      exact List.mem_singleton_self _

/-! Chains. -/

/-- Every branch fits, and no word belongs to two branches. -/
structure Clear (branches : List Branch) : Prop where
  fits : ∀ b ∈ branches, b.Fits
  distinct : ((language branches).map Prod.fst).Nodup

theorem lookup_iff (clear : Clear branches) :
    (language branches).lookup w = some u ↔ (w,u) ∈ language branches := by
  rw [List.lookup_eq_some_iff]
  constructor
  · rintro ⟨first,second,split,-⟩
    rw [split]
    exact List.mem_append_right _ List.mem_cons_self
  · intro member
    obtain ⟨first,second,split⟩ := List.append_of_mem member
    have distinct := clear.distinct
    rw [split,List.map_append,List.nodup_append] at distinct
    refine ⟨first,second,split,fun e before => ?_⟩
    have apart := distinct.2.2 e.1 (List.mem_map_of_mem before) w List.mem_cons_self
    simpa using Ne.symm apart

theorem Clear.same (clear : Clear branches) (left : b ∈ branches) (right : c ∈ branches)
    (member : w ∈ b.usages.map Prod.fst) (member' : w ∈ c.usages.map Prod.fst) : b = c := by
  have distinct := clear.distinct
  rw [language,List.map_flatMap,List.nodup_flatMap] at distinct
  by_contra apart
  have symm : Std.Symm (Function.onFun List.Disjoint fun b : Branch => b.usages.map Prod.fst) :=
    ⟨fun _ _ disjoint => disjoint.symm⟩
  exact distinct.2.forall left right apart member member'

/-- The branch that is taken when its comparison holds is the one with the first word. -/
theorem Clear.found (clear : Clear branches) (noNul : 0 ∉ input) (here : b ∈ branches)
    (known : word input ∈ b.usages.map Prod.fst) :
    branches.find? (fun b => b.Holds input) = if b.Holds input then some b else none := by
  have only : ∀ c ∈ branches, c.Holds input → c = b := fun c member holds =>
    clear.same member here (holds_word (clear.fits c member) noNul holds) known
  cases found : branches.find? fun b => b.Holds input with
  | none =>
    rw [List.find?_eq_none] at found
    rw [if_neg fun holds => found b here (decide_eq_true holds)]
  | some c =>
    have holds : c.Holds input := by simpa using List.find?_some found
    obtain rfl := only c (List.mem_of_find?_eq_some found) holds
    rw [if_pos holds]

theorem dispatchIn_eq (clear : Clear branches) (noNul : 0 ∉ input) :
    dispatchIn branches input = meaning branches input := by
  rw [dispatchIn,meaning]
  cases known : (language branches).lookup (word input) with
  | some u =>
    obtain ⟨b,here,usage⟩ := List.mem_flatMap.mp ((lookup_iff clear).mp known)
    rw [clear.found noNul here (List.mem_map_of_mem (f := Prod.fst) usage)]
    refine Eq.trans ?_ (usage_holds (clear.fits b here) noNul usage).symm
    split_ifs <;> rfl
  | none =>
    have nowhere : branches.find? (fun b => b.Holds input) = none := by
      refine List.find?_eq_none.mpr fun b here holds => ?_
      obtain ⟨⟨w,u⟩,usage,same⟩ := List.mem_map.mp
        (holds_word (clear.fits b here) noNul (of_decide_eq_true holds))
      have some' := (lookup_iff clear).mpr (List.mem_flatMap.mpr ⟨b,here,usage⟩)
      rw [show w = word input from same,known] at some'
      cases some'
    rw [nowhere]

theorem Clear.perm {order : List Branch} (clear : Clear branches) (perm : order.Perm branches) :
    Clear order where
  fits b member := clear.fits b (perm.mem_iff.mp member)
  distinct := ((perm.flatMap_right _).map Prod.fst).nodup_iff.mpr clear.distinct

theorem meaning_perm {order : List Branch} (clear : Clear branches) (perm : order.Perm branches)
    (input : List Byte) : meaning order input = meaning branches input := by
  have same : (language order).lookup (word input) = (language branches).lookup (word input) := by
    ext u
    rw [lookup_iff clear,lookup_iff (clear.perm perm)]
    exact (perm.flatMap_right _).mem_iff
  rw [meaning,meaning,same]

/-! The chain of the source. -/

theorem randArgs_behind (rest : List Byte) : randArgs (text "rand" ++ 32 :: rest) = rest := by
  have starts : startsWith (text "rand" ++ 32 :: rest) (text "rand ") = true :=
    startsWith_iff.mpr ⟨rest,by simp [text]⟩
  rw [randArgs,if_pos starts]
  rfl

theorem chain_clear : Clear chain := by
  constructor
  · rw [← List.forall_iff_forall_mem]
    unfold chain
    simp only [List.Forall]
    and_intros
    all_goals first
      | exact .exact (by decide)
      | exact .starts (by decide) (by decide) (by decide)
      | exact .either (by decide) (by decide) (by decide) randArgs_behind
      | exact .either (by decide) (by decide) (by decide) fun _ => rfl
  · decide

/-! The commands that wait, stop the machine or change the aliases, which lines are followed to
elsewhere. -/

def Command.waiting : Command → Shell.Command
  | .halt => .halt
  | .reboot => .reboot
  | .sleep args => .sleep args
  | .ping args => .ping args
  | .resolve args => .resolve args
  | .edit args => .edit args
  | .beep args => .beep args
  | .snake => .snake
  | .alias args => .alias args
  | .unalias args => .unalias args
  | _ => .other

def waitingChain : List Branch := [
  .exact ["halt","shutdown"] .halt,
  .exact ["reboot"] .reboot,
  .starts "sleep " 6 .sleep,
  .starts "ping " 5 .ping,
  .starts "resolve " 8 .resolve,
  .starts "edit " 5 .edit,
  .either "beep" "beep " beepArgs .beep,
  .exact ["snake"] .snake,
  .either "alias" "alias " aliasArgs .alias,
  .starts "unalias " 8 .unalias]

theorem waitingChain_sub : ∀ b ∈ waitingChain, b ∈ chain := by
  rw [← List.forall_iff_forall_mem]
  simp [waitingChain,chain]

theorem others_return : ∀ b ∈ chain, b ∈ waitingChain ∨ ∀ input, (b.call input).waiting = .other := by
  rw [← List.forall_iff_forall_mem]
  unfold chain
  simp only [List.Forall]
  and_intros
  all_goals first
    | exact .inr fun _ => rfl
    | exact .inl (by simp [waitingChain])

theorem dispatchIn_cons (b : Branch) (branches : List Branch) (input : List Byte) :
    dispatchIn (b :: branches) input = if b.Holds input then b.call input else dispatchIn branches input := by
  rw [dispatchIn,List.find?_cons]
  by_cases holds : b.Holds input
  · rw [if_pos holds]
    simp [holds]
  · rw [if_neg holds]
    simp [holds,dispatchIn]

theorem waiting_dispatchIn (input : List Byte) :
    Shell.dispatch input = (dispatchIn waitingChain input).waiting := by
  have last : dispatchIn [] input = .unknown input := rfl
  simp only [waitingChain,dispatchIn_cons,last,apply_ite Command.waiting,Shell.dispatch,Branch.Holds,
    Branch.call]
  simp [Command.waiting,beepArgs,aliasArgs]

/-- The chain of the lines that are followed elsewhere is the part of this one that they need. -/
theorem waiting_dispatch (noNul : 0 ∉ input) : Shell.dispatch input = (dispatch input).waiting := by
  have found : ∀ c ∈ waitingChain, c.Holds input →
      chain.find? (fun b => b.Holds input) = some c := fun c here holds => by
    have member := waitingChain_sub c here
    rw [chain_clear.found noNul member (holds_word (chain_clear.fits c member) noNul holds),if_pos holds]
  rw [waiting_dispatchIn,dispatch,dispatchIn,dispatchIn]
  cases waits : waitingChain.find? fun b => b.Holds input with
  | some c =>
    have holds : c.Holds input := by simpa using List.find?_some waits
    rw [found c (List.mem_of_find?_eq_some waits) holds]
  | none =>
    cases taken : chain.find? fun b => b.Holds input with
    | none => rfl
    | some b =>
      have holds : b.Holds input := by simpa using List.find?_some taken
      rcases others_return b (List.mem_of_find?_eq_some taken) with here | other
      · exact absurd (decide_eq_true holds) (List.find?_eq_none.mp waits b here)
      · exact (other input).symm

/-- Whatever the order of the comparisons, a line is read by its first word. -/
theorem dispatch_by_word (order : List Branch) (perm : order.Perm chain) (input : List Byte)
    (noNul : 0 ∉ input) : dispatchIn order input = meaning chain input := by
  rw [dispatchIn_eq (chain_clear.perm perm) noNul,meaning_perm chain_clear perm]

theorem dispatch_by_word_reverse : dispatchIn chain.reverse (text "cat notes") = meaning chain (text "cat notes") :=
  dispatch_by_word chain.reverse (List.reverse_perm chain) (text "cat notes") (by decide)

end NimrodOS.ShellTable
