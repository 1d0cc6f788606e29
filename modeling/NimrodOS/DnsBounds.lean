import NimrodOS.Lib.Checked
import NimrodOS.Net

/-! The loops of `handle_udp` over a DNS message with every read of a byte checked. Offsets count
from the message's first byte. -/
namespace NimrodOS.Net.Dns

open Wire Checked

/-- A byte outside of the message was read, or more rounds are needed. -/
inductive ScanStop where
  | outside (index : Int)
  | unfinished
  deriving DecidableEq

def readByte (data : Fin n → Byte) (ptr : Nat) : Except ScanStop Byte :=
  (get data ptr).mapError fun e => .outside e.index

/-- `(ptr[0] << 8) | ptr[1]` -/
def readHalf (data : Fin n → Byte) (ptr : Nat) : Except ScanStop Half := do
  let high ← readByte data ptr
  let low ← readByte data (ptr + 1)
  return high ++ low

/-- The bytes of an address. -/
def readAddress (data : Fin n → Byte) (ptr : Nat) : Except ScanStop Word := do
  let a ← readByte data ptr
  let b ← readByte data (ptr + 1)
  let c ← readByte data (ptr + 2)
  let d ← readByte data (ptr + 3)
  return a ++ b ++ c ++ d

/-- The `while` loop over the question's name, and what follows it. -/
def scanQuestion (data : Fin n → Byte) : Nat → Nat → Except ScanStop Nat
  | rounds,ptr =>
    if ptr < n then do
      let c ← readByte data ptr
      if c = 0 then return ptr + 1 + 4
      else match rounds with
        | 0 => .error .unfinished
        | rounds + 1 =>
          if c &&& 0xC0 = 0xC0 then return ptr + 2 else scanQuestion data rounds (ptr + 1 + c.toNat)
    else return ptr + 1 + 4

/-- The `while` loop over an answer's name. -/
def scanLabels (data : Fin n → Byte) : Nat → Nat → Except ScanStop Nat
  | rounds,ptr =>
    if ptr < n then do
      let c ← readByte data ptr
      if c = 0 then return ptr + 1
      else match rounds with
        | 0 => .error .unfinished
        | rounds + 1 => scanLabels data rounds (ptr + 1 + c.toNat)
    else return ptr + 1

def scanName (data : Fin n → Byte) (rounds ptr : Nat) : Except ScanStop Nat := do
  let c ← readByte data ptr
  if c &&& 0xC0 = 0xC0 then return ptr + 2 else scanLabels data rounds ptr

/-- The `for` loop, with the number of rounds that it has left. -/
def scanAnswers (data : Fin n → Byte) (rounds : Nat) : Nat → Nat → Except ScanStop (Option Word)
  | 0,_ => return none
  | answers + 1,ptr =>
    if ptr + 12 ≤ n then do
      let ptr ← scanName data rounds ptr
      if ptr + 10 > n then return none
      else
        let rtype ← readHalf data ptr
        let rdlength ← readHalf data (ptr + 8)
        let ptr := ptr + 10
        if rtype = 1 ∧ rdlength = 4 ∧ ptr + 4 ≤ n then return some (← readAddress data ptr)
        else scanAnswers data rounds answers (ptr + rdlength.toNat)
    else return none

/-- The address that is found behind the header. -/
def scanMessage (data : Fin n → Byte) (ancount : Half) (rounds : Nat) : Except ScanStop (Option Word) :=
  if ancount > 0 then do
    let ptr ← scanQuestion data rounds 12
    scanAnswers data rounds ancount.toNat ptr
  else return none

section

variable {data : Fin n → Byte} {f : Nat → Byte} {message ptr rounds fuel : Nat}

/-- The message stands in memory from an offset on. -/
def Holds (f : Nat → Byte) (message : Nat) (data : Fin n → Byte) : Prop :=
  ∀ i : Fin n, f (message + i) = data i

theorem readByte_inside (holds : Holds f message data) (inside : ptr < n) :
    readByte data ptr = .ok (f (message + ptr)) := by
  rw [readByte,get_inside inside,← holds ⟨ptr,inside⟩]
  rfl

theorem readHalf_inside (holds : Holds f message data) (inside : ptr + 2 ≤ n) :
    readHalf data ptr = .ok (big16 f (message + ptr)) := by
  rw [readHalf,readByte_inside holds (by omega),ok_bind,readByte_inside holds (by omega),ok_bind]
  rfl

theorem readAddress_inside (holds : Holds f message data) (inside : ptr + 4 ≤ n) :
    readAddress data ptr = .ok (big32 f (message + ptr)) := by
  rw [readAddress,readByte_inside holds (by omega),ok_bind,readByte_inside holds (by omega),ok_bind,
    readByte_inside holds (by omega),ok_bind,readByte_inside holds (by omega),ok_bind]
  rfl

/-- A loop over labels with its reads checked and one without, that stop and move on alike. Each
round reads in front of the end and moves the cursor on. -/
theorem scan_skips {scan : Nat → Nat → Except ScanStop Nat} {skip : Nat → Nat → Nat}
    (stop : ∀ rounds fuel ptr, ¬(ptr < n ∧ f (message + ptr) ≠ 0) →
      ∃ ptr', scan rounds ptr = .ok ptr' ∧ skip fuel (message + ptr) = message + ptr')
    (turn : ∀ rounds fuel ptr, ptr < n → f (message + ptr) ≠ 0 →
      (∃ ptr', scan (rounds + 1) ptr = .ok ptr' ∧ skip (fuel + 1) (message + ptr) = message + ptr') ∨
      ∃ next, ptr < next ∧ scan (rounds + 1) ptr = scan rounds next ∧
        skip (fuel + 1) (message + ptr) = skip fuel (message + next))
    (enough : n - ptr ≤ rounds) (enough' : n - ptr ≤ fuel) :
    ∃ ptr', scan rounds ptr = .ok ptr' ∧ skip fuel (message + ptr) = message + ptr' := by
  induction rounds generalizing ptr fuel with
  | zero => exact stop 0 fuel ptr fun both => by omega
  | succ rounds ih =>
    by_cases more : ptr < n ∧ f (message + ptr) ≠ 0
    · obtain ⟨fuel,rfl⟩ : ∃ k, fuel = k + 1 := ⟨fuel - 1,by omega⟩
      rcases turn rounds fuel ptr more.1 more.2 with ended | ⟨next,ahead,scanned,skipped⟩
      · exact ended
      · have left : n - next ≤ rounds := by omega
        rw [scanned,skipped]
        exact ih left (by omega)
    · exact stop _ fuel ptr more

/-- Behind the message, or at a length of zero, the loops stop. -/
theorem scan_stops (holds : Holds f message data) (stops : ¬(ptr < n ∧ f (message + ptr) ≠ 0))
    (after : Nat) (more : Byte → Except ScanStop Nat) :
    (if ptr < n then do
      let c ← readByte data ptr
      if c = 0 then return after else more c
    else return after) = .ok after := by
  by_cases inside : ptr < n
  · have zero : f (message + ptr) = 0 := not_not.mp fun nonzero => stops ⟨inside,nonzero⟩
    rw [if_pos inside,readByte_inside holds inside,ok_bind,if_pos zero]
    rfl
  · exact if_neg inside

theorem scanQuestion_eq (holds : Holds f message data) (enough : n - ptr ≤ rounds)
    (enough' : n - ptr ≤ fuel) : ∃ ptr', scanQuestion data rounds ptr = .ok ptr' ∧
      skipQuestion f (message + n) fuel (message + ptr) = message + ptr' := by
  refine scan_skips (f := f) (fun rounds fuel ptr stops => ⟨ptr + 1 + 4,?_,?_⟩)
    (fun rounds fuel ptr inside nonzero => ?_) enough enough'
  · rw [scanQuestion]
    exact scan_stops holds stops _ _
  · have stops' : ¬(message + ptr < message + n ∧ f (message + ptr) ≠ 0) := by
      rwa [Nat.add_lt_add_iff_left]
    cases fuel with
    | zero => rfl
    | succ fuel => exact if_neg stops'
  · have before : message + ptr < message + n := Nat.add_lt_add_left inside message
    rw [scanQuestion,if_pos inside,readByte_inside holds inside,ok_bind,if_neg nonzero,skipQuestion,
      if_pos ⟨before,nonzero⟩]
    by_cases pointer : f (message + ptr) &&& 0xC0 = 0xC0
    · exact .inl ⟨ptr + 2,if_pos pointer,if_pos pointer⟩
    · refine .inr ⟨ptr + 1 + (f (message + ptr)).toNat,by omega,if_neg pointer,?_⟩
      rw [← Nat.add_assoc,← Nat.add_assoc]
      exact if_neg pointer

theorem scanLabels_eq (holds : Holds f message data) (enough : n - ptr ≤ rounds)
    (enough' : n - ptr ≤ fuel) : ∃ ptr', scanLabels data rounds ptr = .ok ptr' ∧
      skipLabels f (message + n) fuel (message + ptr) = message + ptr' := by
  refine scan_skips (f := f) (fun rounds fuel ptr stops => ⟨ptr + 1,?_,?_⟩)
    (fun rounds fuel ptr inside nonzero => ?_) enough enough'
  · rw [scanLabels]
    exact scan_stops holds stops _ _
  · have stops' : ¬(message + ptr < message + n ∧ f (message + ptr) ≠ 0) := by
      rwa [Nat.add_lt_add_iff_left]
    cases fuel with
    | zero => rfl
    | succ fuel => exact if_neg stops'
  · have before : message + ptr < message + n := Nat.add_lt_add_left inside message
    rw [scanLabels,if_pos inside,readByte_inside holds inside,ok_bind,if_neg nonzero,skipLabels,
      if_pos ⟨before,nonzero⟩]
    refine .inr ⟨ptr + 1 + (f (message + ptr)).toNat,by omega,rfl,?_⟩
    rw [← Nat.add_assoc,← Nat.add_assoc]

/-- The loop's own check covers the first byte of a name. -/
theorem scanName_eq (holds : Holds f message data) (room : ptr + 12 ≤ n) : ∃ ptr',
    scanName data n ptr = .ok ptr' ∧ skipName f (message + n) (message + ptr) = message + ptr' := by
  rw [scanName,readByte_inside holds (by omega),ok_bind,skipName]
  by_cases pointer : f (message + ptr) &&& 0xC0 = 0xC0
  · exact ⟨ptr + 2,if_pos pointer,if_pos pointer⟩
  · have rounds : n - ptr ≤ n := Nat.sub_le n ptr
    have fuel : n - ptr ≤ message + n - (message + ptr) := by omega
    obtain ⟨ptr',scanned,skipped⟩ := scanLabels_eq holds rounds fuel
    exact ⟨ptr',(if_neg pointer).trans scanned,(if_neg pointer).trans skipped⟩

/-- Behind a name, ten more bytes are checked for, and four for an address. -/
theorem scanAnswers_eq (holds : Holds f message data) (answers ptr : Nat) :
    scanAnswers data n answers ptr = .ok (answerLoop f (message + n) answers (message + ptr)) := by
  induction answers generalizing ptr with
  | zero => rfl
  | succ answers ih =>
    rw [scanAnswers,answerLoop]
    by_cases room : ptr + 12 ≤ n
    · obtain ⟨ptr',scanned,skipped⟩ := scanName_eq holds room
      rw [if_pos room,if_pos (by omega),scanned,ok_bind,skipped]
      by_cases short : ptr' + 10 > n
      · rw [if_pos short,if_pos (by omega)]
        rfl
      · rw [if_neg short,if_neg (by omega),readHalf_inside holds (by omega),ok_bind,
          readHalf_inside holds (by omega),ok_bind,← Nat.add_assoc]
        have fits : ptr' + 10 + 4 ≤ n ↔ message + ptr' + 10 + 4 ≤ message + n := by omega
        dsimp only
        simp only [fits]
        split_ifs with address
        · rw [readAddress_inside holds (by omega),← Nat.add_assoc]
          rfl
        · rw [ih]
          congr 2
          omega
    · rw [if_neg room,if_neg (by omega)]
      rfl

/-- Whatever the message holds, the loops end, read nothing outside of it, and find what the
model of the stack finds. -/
theorem scanMessage_eq (holds : Holds f message data) (ancount : Half) :
    scanMessage data ancount n = .ok (if ancount > 0 then
      answerLoop f (message + n) ancount.toNat (skipQuestion f (message + n) (n - 12) (message + 12))
    else none) := by
  unfold scanMessage
  split_ifs with answers
  · obtain ⟨ptr,scanned,skipped⟩ := scanQuestion_eq holds (Nat.sub_le n 12) le_rfl
    rw [scanned,ok_bind,skipped]
    exact scanAnswers_eq holds _ _
  · rfl

/-- A reply is taken for what the checked loops find in it. -/
theorem dnsReply_scanned (holds : Holds f message data) (s : State) : dnsReply s f message n =
    if ntohs (DnsHeader.read f message).id = s.dnsQueryId ∧
        ntohs (DnsHeader.read f message).flags &&& 0x8000 ≠ 0 then
      match scanMessage data (ntohs (DnsHeader.read f message).ancount) n with
      | .ok (some ip) => {s with dnsResultIp := ip,dnsGotReply := 1}
      | _ => s
    else s := by
  have before : message + n - (message + 12) = n - 12 := by omega
  unfold dnsReply
  generalize DnsHeader.read f message = dns
  dsimp only
  rw [before,scanMessage_eq holds]
  by_cases ours : ntohs dns.id = s.dnsQueryId ∧ ntohs dns.flags &&& 0x8000 ≠ 0
  · rw [if_pos ours]
    by_cases answers : ntohs dns.ancount > 0
    · rw [if_pos answers,if_pos ⟨ours.1,ours.2,answers⟩]
      cases answerLoop f (message + n) (ntohs dns.ancount).toNat
        (skipQuestion f (message + n) (n - 12) (message + 12)) with
      | none => rfl
      | some ip => rfl
    · rw [if_neg answers,if_neg fun all => answers all.2.2]
  · rw [if_neg ours,if_neg fun all => ours ⟨all.1,all.2.1⟩]

end

/-- Whatever a message holds, and however many answers it announces, the loops end within as many
rounds as it has bytes and read nothing outside of it. -/
theorem scanMessage_bounded (data : Fin n → Byte) (ancount : Half) :
    ∃ found, scanMessage data ancount n = .ok found := by
  have holds : Holds (fun i => if inside : i < n then data ⟨i,inside⟩ else 0) 0 data := by
    intro i
    simp
  exact ⟨_,scanMessage_eq holds ancount⟩

end NimrodOS.Net.Dns
