import NimrodOS.DnsParse

/-! Which DNS responses `handle_udp` understands. -/
namespace NimrodOS.Net.Dns

open Wire Logged

variable {data : Nat → Byte} {s : State} {r : Response} {payload : Nat} {len : Half}

/-- The response is the data of a datagram from the DNS port. -/
structure Arrives (data : Nat → Byte) (payload : Nat) (len : Half) (r : Response) : Prop where
  port : big16 data payload = dnsPort
  length : (big16 data (payload + 4)).toNat = 8 + r.wire.length
  whole : len.toNat = 8 + r.wire.length
  message : At data (payload + 8) r.wire

/-- The reply is recorded. -/
def answered (s : State) : Option Word → State
  | some ip => {s with dnsResultIp := ip,dnsGotReply := 1}
  | none => s

/-- Whoever asked is told the first address, and nothing where there is none. -/
def Understood (r : Response) : Prop :=
  ∀ s data payload len, s.dnsQueryId = r.id → Arrives data payload len r →
    (handleUdp s data payload len).result = .ok (answered s (firstAddress r.answers))

/-- The parser's walk over a message from its offset on. -/
def parsed (r : Response) (data : Nat → Byte) (message : Nat) : Option Word :=
  answerLoop data (message + r.wire.length) r.answers.length
    (skipQuestion data (message + r.wire.length) (message + r.wire.length - (message + 12))
      (message + 12))

theorem wire_length (r : Response) : r.wire.length =
    12 + r.question.wire.length + 4 + (answersWire r.answers).length + r.rest.length := by
  simp only [Response.wire,List.length_append,header_length]
  rfl

/-- The parts of a message that arrives. -/
theorem parts_at {message : Nat} (stands : At data message r.wire) :
    At data message r.header ∧ At data (message + 12) r.question.wire ∧
      At data (message + 12 + r.question.wire.length)
        (bigBytes16 r.qtype ++ bigBytes16 r.qclass) ∧
      At data (message + 12 + r.question.wire.length + 4) (answersWire r.answers) := by
  rw [Response.wire,at_append,at_append,at_append,at_append] at stands
  obtain ⟨⟨⟨⟨header,question⟩,type⟩,answers⟩,-⟩ := stands
  simp only [List.length_append,header_length,← Nat.add_assoc] at question type answers
  exact ⟨header,question,type,answers⟩

theorem dnsHeader_at {message : Nat} (stands : At data message r.header) :
    ntohs (DnsHeader.read data message).id = r.id ∧
      ntohs (DnsHeader.read data message).flags = r.flags ∧
      ntohs (DnsHeader.read data message).ancount = BitVec.ofNat 16 r.answers.length := by
  simp only [Response.header,at_append] at stands
  obtain ⟨⟨⟨⟨⟨id,flags⟩,-⟩,ancount⟩,-⟩,-⟩ := stands
  simp only [DnsHeader.read,ntohs_load16]
  exact ⟨big16_at id,big16_at flags,big16_at ancount⟩

theorem dnsReply_eq {message : Nat} (mine : s.dnsQueryId = r.id) (some : r.answers ≠ [])
    (stands : At data message r.wire) :
    dnsReply s data message r.wire.length = answered s (parsed r data message) := by
  obtain ⟨id,flags,ancount⟩ := dnsHeader_at (parts_at stands).1
  have count : (BitVec.ofNat 16 r.answers.length).toNat = r.answers.length :=
    Nat.mod_eq_of_lt r.count
  have positive : BitVec.ofNat 16 r.answers.length > (0 : Half) := by
    rw [gt_iff_lt,BitVec.lt_def,count]
    exact List.length_pos_of_ne_nil some
  rw [dnsReply]
  simp only [id,flags,ancount,count]
  rw [if_pos ⟨mine.symm,r.isReply,positive⟩]
  change (match parsed r data message with | .some ip => _ | none => s) = _
  cases parsed r data message <;> rfl

theorem dnsReply_empty {message : Nat} (none : r.answers = [])
    (stands : At data message r.wire) : dnsReply s data message r.wire.length = s := by
  obtain ⟨-,-,ancount⟩ := dnsHeader_at (parts_at stands).1
  rw [dnsReply]
  simp only [ancount,none]
  rw [if_neg]
  exact fun all => absurd all.2.2 (by decide)

theorem handleUdp_arrives (arrives : Arrives data payload len r) :
    (handleUdp s data payload len).result =
      .ok (dnsReply s data (payload + 8) r.wire.length) := by
  have length := arrives.length
  have whole := arrives.whole
  have wire := wire_length r
  have eight : (8 : Half).toNat = 8 := rfl
  have dataLen : (big16 data (payload + 4) - 8).toNat = r.wire.length := by
    rw [BitVec.toNat_sub,eight]
    omega
  rw [handleUdp,if_neg (by omega)]
  simp only [UdpHeader.read,ntohs_load16,arrives.port]
  rw [if_pos ⟨trivial,by omega⟩,note_bind_result,dataLen]
  rfl

/-- Plain names up to the first address are enough. -/
theorem understood_of_plain
    (plain : r.answers ≠ [] → r.question.ZeroEnded ∧ PlainAnswers r.answers) : Understood r := by
  intro s data payload len mine arrives
  rw [handleUdp_arrives arrives]
  by_cases some : r.answers = []
  · rw [dnsReply_empty some arrives.message,some]
    rfl
  · obtain ⟨question,answers⟩ := plain some
    obtain ⟨-,name,-,records⟩ := parts_at arrives.message
    have length := wire_length r
    rw [dnsReply_eq mine some arrives.message,parsed,
      skipQuestion_zeroEnded name (by omega) question,
      answerLoop_answers records (by omega) answers]

/-! Responses that are misread. -/

/-- The bytes of a datagram that a response arrives in. -/
def datagram (r : Response) : List Byte :=
  bigBytes16 dnsPort ++ [0,0] ++ bigBytes16 (BitVec.ofNat 16 (8 + r.wire.length)) ++ [0,0] ++ r.wire

theorem datagram_arrives (fits : 8 + r.wire.length < 2^16) :
    Arrives (fun i => (datagram r).getD i 0) 0 (BitVec.ofNat 16 (8 + r.wire.length)) r := by
  have width : (BitVec.ofNat 16 (8 + r.wire.length)).toNat = 8 + r.wire.length :=
    Nat.mod_eq_of_lt fits
  have stands : At (fun i => (datagram r).getD i 0) 0 (datagram r) := at_getD
  generalize (fun i => (datagram r).getD i 0) = data at stands
  simp only [datagram,at_append] at stands
  obtain ⟨⟨⟨⟨port,-⟩,length⟩,-⟩,message⟩ := stands
  constructor
  · exact big16_at port
  · have field : big16 data 4 = BitVec.ofNat 16 (8 + r.wire.length) := big16_at length
    rw [Nat.zero_add,field,width]
  · exact width
  · exact message

/-- Finding an address where there is none. -/
theorem misread (fits : 8 + r.wire.length < 2^16) (some : r.answers ≠ [])
    (none : firstAddress r.answers = none)
    (found : ∀ data message, At data message r.wire → ∃ ip, parsed r data message = .some ip) :
    ¬Understood r := by
  intro understood
  have arrives := datagram_arrives fits
  have asked : {netInit .e1000 broadcast with dnsQueryId := r.id}.dnsQueryId = r.id := rfl
  have reported := understood _ _ _ _ asked arrives
  rw [handleUdp_arrives arrives,dnsReply_eq asked some arrives.message,none] at reported
  obtain ⟨ip,walk⟩ := found _ _ arrives.message
  rw [walk] at reported
  have marks : (1 : Byte) = 0 := congrArg State.dnsGotReply (Except.ok.inj reported)
  exact absurd marks (by decide)

/-- An address record for no name, that data of another record may hold. -/
def fake : Record := ⟨⟨[],.zero⟩,1,0,0,[0,0,0,0],by decide⟩

def blank (n : Name) : Record := ⟨n,0,0,0,[],by decide⟩

theorem fake_length : fake.wire.length = 15 := rfl

theorem blank_not_address (n : Name) : ¬(blank n).IsAddress := by
  intro address
  have one : (0 : Half) = 1 := address.1
  exact absurd one (by decide)

theorem firstAddress_none {answers : List Record} (others : ∀ a ∈ answers, ¬a.IsAddress) :
    firstAddress answers = none := by
  induction answers with
  | nil => rfl
  | cons a answers ih =>
    rw [List.forall_mem_cons] at others
    rw [firstAddress,if_neg others.1,ih others.2]

/-- A walk that comes to the fake record's name reads its address. -/
theorem answerLoop_fake {stop ptr start fuel k : Nat} (room : ptr + 12 ≤ stop)
    (named : skipName data stop ptr = skipLabels data stop fuel start)
    (stands : At data start fake.wire) (inside : start + fake.wire.length ≤ stop) :
    answerLoop data stop (k + 1) ptr = some fake.address := by
  rw [fake_length] at inside
  obtain ⟨⟨name,fields⟩,rdata⟩ : (At data start [0] ∧ At data (start + 1) fake.fields) ∧
      At data (start + 1 + 10) fake.rdata := by
    rw [Record.wire,at_append,at_append] at stands
    exact stands
  rw [skipLabels_end name.1] at named
  rw [answerLoop_fields room named fields rdata (by change start + 1 + 10 + 4 ≤ stop; omega)]
  rfl

theorem skipLabels_step {stop ptr fuel : Nat} (inside : ptr < stop) (nonzero : data ptr ≠ 0) :
    skipLabels data stop (fuel + 1) ptr =
      skipLabels data stop fuel (ptr + 1 + (data ptr).toNat) := by
  rw [skipLabels,if_pos ⟨inside,nonzero⟩]

/-- Behind a question that ends in a pointer, type and class are read as the name of the
first answer: the walk jumps over the real name into the record's data. -/
def questionTrap (n : Name) : Record := ⟨n,0x0900,0,0,fake.wire,by decide⟩

/-- The record's data has the fake one where the pointer, taken for a length, leads to. -/
def answerTrap (n : Name) (high : Byte) : Record where
  name := n
  type := 0
  rclass := 0
  ttl := 0
  rdata := List.replicate (high.toNat - 11) 0 ++ fake.wire
  short := by
    have := high.isLt
    rw [List.length_append,List.length_replicate,fake_length]
    omega

/-- A response with nothing but the given parts. -/
def plainResponse (question : Name) (qtype qclass : Half) (answers : List Record)
    (count : answers.length < 2^16) : Response where
  id := 0
  flags := 0x8000
  isReply := by decide
  nscount := 0
  arcount := 0
  question := question
  qtype := qtype
  qclass := qclass
  answers := answers
  count := count
  rest := []

section

variable {question n : Name} {high : {b : Byte // b &&& 0xC0 = 0xC0}} {low : Byte}
  {before after : List Name}

theorem question_trapped {stop ptr k : Nat} (short : n.wire.length ≤ 255)
    (type : At data ptr (bigBytes16 0x0200 ++ bigBytes16 (BitVec.ofNat 16 n.wire.length)))
    (trap : At data (ptr + 4) (questionTrap n).wire)
    (inside : ptr + 4 + (questionTrap n).wire.length ≤ stop) :
    answerLoop data stop (k + 1) ptr = some fake.address := by
  have length := record_length (questionTrap n)
  have rdata : (questionTrap n).rdata.length = 15 := rfl
  have named : (questionTrap n).name = n := rfl
  have name := name_positive n
  rw [named,rdata] at length
  have first : data ptr = 2 := by
    have byte := type.1
    exact byte
  have third : data (ptr + 3) = BitVec.ofNat 8 n.wire.length := by
    have byte := type.2.2.2.1
    rw [byte]
    apply BitVec.eq_of_toNat_eq
    simp only [BitVec.extractLsb'_toNat,BitVec.toNat_ofNat]
    omega
  have width : (BitVec.ofNat 8 n.wire.length).toNat = n.wire.length :=
    Nat.mod_eq_of_lt (by omega)
  have nonzero : data (ptr + 3) ≠ 0 := by
    rw [third]
    intro zero
    have none : n.wire.length = 0 := width.symm.trans (congrArg BitVec.toNat zero)
    omega
  simp only [Record.wire,named,at_append,List.length_append,fields_length] at trap
  obtain ⟨⟨-,fields⟩,fakeAt⟩ := trap
  have nine : (0x0900 : Half).extractLsb' 8 8 = (9 : Byte) := by decide
  have jump : data (ptr + 4 + n.wire.length) = 9 := fields.1.trans nine
  obtain ⟨fuel,enough⟩ : ∃ fuel, stop - ptr = fuel + 3 := ⟨stop - ptr - 3,by omega⟩
  have toThird : ptr + 1 + (data ptr).toNat = ptr + 3 := by rw [first]; rfl
  have toRecord : ptr + 3 + 1 + (data (ptr + 3)).toNat = ptr + 4 + n.wire.length := by
    rw [third,width]
  have toData : ptr + 4 + n.wire.length + 1 + (data (ptr + 4 + n.wire.length)).toNat =
      ptr + 4 + (n.wire.length + 10) := by
    rw [jump]
    rfl
  have walked : skipName data stop ptr =
      skipLabels data stop fuel (ptr + 4 + (n.wire.length + 10)) := by
    rw [skipName,first,if_neg (by decide),enough,skipLabels_step (by omega) (by rw [first]; decide),
      toThird,skipLabels_step (by omega) nonzero,toRecord,
      skipLabels_step (by omega) (by rw [jump]; decide),toData]
  apply answerLoop_fake
  · omega
  · exact walked
  · exact fakeAt
  · rw [fake_length]
    omega

theorem answer_trapped {stop ptr k : Nat} (labelled : n.labels ≠ [])
    (pointer : n.ending = .pointer high low)
    (trap : At data ptr (answerTrap n high.val).wire)
    (inside : ptr + (answerTrap n high.val).wire.length ≤ stop) :
    answerLoop data stop (k + 1) ptr = some fake.address := by
  have length := record_length (answerTrap n high.val)
  have rdata : (answerTrap n high.val).rdata.length = high.val.toNat - 11 + 15 := by
    simp [answerTrap,fake_length]
  have named : (answerTrap n high.val).name = n := rfl
  have name := name_length n
  have two : n.ending.wire.length = 2 := by rw [pointer]; rfl
  have large : 192 ≤ high.val.toNat := by
    have masked := congrArg BitVec.toNat high.property
    rw [BitVec.toNat_and] at masked
    have least : high.val.toNat &&& (0xC0 : Byte).toNat ≤ high.val.toNat := Nat.and_le_left
    rw [masked] at least
    exact least
  rw [named,rdata] at length
  simp only [Record.wire,named,at_append,List.length_append,fields_length] at trap
  obtain ⟨⟨nameAt,-⟩,dataAt⟩ := trap
  have fakeAt : At data (ptr + (labelsWire n.labels).length + 1 + high.val.toNat) fake.wire := by
    simp only [answerTrap,at_append,List.length_replicate] at dataAt
    have place : ptr + (n.wire.length + 10) + (high.val.toNat - 11) =
        ptr + (labelsWire n.labels).length + 1 + high.val.toNat := by omega
    rw [← place]
    exact dataAt.2
  have nameInside : ptr + n.wire.length ≤ stop := by omega
  obtain ⟨fuel,-,walked⟩ := skipName_mixed nameAt nameInside labelled pointer
  apply answerLoop_fake
  · omega
  · exact walked
  · exact fakeAt
  · rw [fake_length]
    omega

/-- How long a message with the given names is at least. -/
def leastLength (question : Name) (names : List Name) : Nat :=
  16 + question.wire.length + (names.map fun n => n.wire.length + 10).sum

/-- Answers under the given names that hold nothing, with a trap among them. -/
def trapAnswers (before : List Name) (trap : Record) (after : List Name) : List Record :=
  before.map blank ++ trap :: after.map blank

theorem answersWire_append (first second : List Record) :
    answersWire (first ++ second) = answersWire first ++ answersWire second := List.flatMap_append

theorem blanks_length (names : List Name) : (answersWire (names.map blank)).length =
    (names.map fun n => n.wire.length + 10).sum := by
  induction names with
  | nil => rfl
  | cons n names ih =>
    rw [List.map_cons,answersWire_cons,List.length_append,ih,record_length]
    rfl

theorem blanks_names (names : List Name) : (names.map blank).map Record.name = names := by
  rw [List.map_map]
  exact List.map_id names

theorem trapAnswers_names (before : List Name) (trap : Record) (after : List Name) :
    (trapAnswers before trap after).map Record.name = before ++ trap.name :: after := by
  rw [trapAnswers,List.map_append,List.map_cons,blanks_names,blanks_names]

theorem trapAnswers_length (question : Name) (before : List Name) (trap : Record)
    (after : List Name) : 16 + question.wire.length +
      (answersWire (trapAnswers before trap after)).length =
        leastLength question (before ++ trap.name :: after) + trap.rdata.length := by
  rw [trapAnswers,answersWire_append,answersWire_cons,List.length_append,List.length_append,
    blanks_length,blanks_length,record_length,leastLength,List.map_append,List.map_cons,
    List.sum_append,List.sum_cons]
  omega

theorem trapAnswers_none {trap : Record} (other : ¬trap.IsAddress) :
    firstAddress (trapAnswers before trap after) = none := by
  apply firstAddress_none
  simp only [trapAnswers,List.mem_append,List.mem_cons,List.mem_map]
  rintro a (⟨n,-,rfl⟩ | rfl | ⟨n,-,rfl⟩)
  · exact blank_not_address n
  · exact other
  · exact blank_not_address n

theorem names_count (names : List Name) :
    names.length ≤ (names.map fun n => n.wire.length + 10).sum := by
  induction names with
  | nil => exact Nat.le_refl 0
  | cons n names ih =>
    rw [List.map_cons,List.sum_cons,List.length_cons]
    omega

/-- A trap that the walk falls into makes a response that is misread. -/
theorem trap_misread {trap : Record} (other : ¬trap.IsAddress) (qtype qclass : Half)
    (room : leastLength question (before ++ trap.name :: after) + trap.rdata.length < 2^16 - 8)
    (found : ∀ data message stop, stop = message + (16 + question.wire.length +
        (answersWire (trapAnswers before trap after)).length) →
      At data (message + 12) question.wire →
      At data (message + 12 + question.wire.length) (bigBytes16 qtype ++ bigBytes16 qclass) →
      At data (message + 12 + question.wire.length + 4)
        (answersWire (trapAnswers before trap after)) →
      answerLoop data stop (trapAnswers before trap after).length
        (skipQuestion data stop (stop - (message + 12)) (message + 12)) = some fake.address) :
    ∃ r, r.question = question ∧ r.answers.map Record.name = before ++ trap.name :: after ∧
      ¬Understood r := by
  have length := trapAnswers_length question before trap after
  have names := names_count (before ++ trap.name :: after)
  have count : (trapAnswers before trap after).length < 2^16 := by
    have same := congrArg List.length (trapAnswers_names before trap after)
    rw [List.length_map] at same
    rw [leastLength] at room
    omega
  refine ⟨plainResponse question qtype qclass (trapAnswers before trap after) count,rfl,
    trapAnswers_names before trap after,?_⟩
  have wire := wire_length (plainResponse question qtype qclass (trapAnswers before trap after) count)
  have rest : (plainResponse question qtype qclass (trapAnswers before trap after) count).rest.length =
      0 := rfl
  simp only [rest] at wire
  change _ = 12 + question.wire.length + 4 + (answersWire (trapAnswers before trap after)).length + 0
    at wire
  apply misread
  · omega
  · have some : trapAnswers before trap after ≠ [] := by simp [trapAnswers]
    exact some
  · exact trapAnswers_none other
  · intro data message stands
    obtain ⟨-,questionAt,typeAt,answersAt⟩ := parts_at stands
    exact ⟨_,found data message _ (by rw [wire]; omega) questionAt typeAt answersAt⟩

/-- Every question name that ends in a pointer is misread before any answer. -/
theorem question_misread (names : List Name) (short : n.wire.length ≤ 255)
    (room : leastLength question (n :: names) + 274 < 2^16 - 8)
    (pointer : question.ending = .pointer high low) :
    ∃ r, r.question = question ∧ r.answers.map Record.name = n :: names ∧ ¬Understood r := by
  have rdata : (questionTrap n).rdata.length = 15 := rfl
  have other : ¬(questionTrap n).IsAddress := by
    intro address
    rw [Record.IsAddress,rdata] at address
    omega
  have roomy : leastLength question ([] ++ (questionTrap n).name :: names) +
      (questionTrap n).rdata.length < 2^16 - 8 := by
    rw [rdata]
    change leastLength question (n :: names) + 15 < 2^16 - 8
    omega
  apply trap_misread other 0x0200 (BitVec.ofNat 16 n.wire.length) roomy
  intro data message stop stops questionAt typeAt answersAt
  have answers : answersWire (trapAnswers [] (questionTrap n) names) =
      (questionTrap n).wire ++ answersWire (names.map blank) := rfl
  rw [answers,at_append] at answersAt
  rw [answers,List.length_append] at stops
  rw [skipQuestion_pointer questionAt (by omega) pointer]
  exact question_trapped short typeAt answersAt.1 (by omega)

/-- So is every answer name that ends in a pointer behind labels. -/
theorem answer_misread (zero : question.ZeroEnded) (plain : ∀ m ∈ before, m.Plain)
    (labelled : n.labels ≠ []) (pointer : n.ending = .pointer high low)
    (room : leastLength question (before ++ n :: after) + 274 < 2^16 - 8) :
    ∃ r, r.question = question ∧ r.answers.map Record.name = before ++ n :: after ∧
      ¬Understood r := by
  have rdata : (answerTrap n high.val).rdata.length = high.val.toNat - 11 + 15 := by
    simp [answerTrap,fake_length]
  have bound := high.val.isLt
  have other : ¬(answerTrap n high.val).IsAddress := by
    intro address
    rw [Record.IsAddress,rdata] at address
    omega
  have roomy : leastLength question (before ++ (answerTrap n high.val).name :: after) +
      (answerTrap n high.val).rdata.length < 2^16 - 8 := by
    rw [rdata]
    change leastLength question (before ++ n :: after) + (high.val.toNat - 11 + 15) < 2^16 - 8
    omega
  apply trap_misread other 1 1 roomy
  intro data message stop stops questionAt typeAt answersAt
  have trapLength := record_length (answerTrap n high.val)
  rw [trapAnswers,answersWire_append,answersWire_cons,at_append,at_append] at answersAt
  rw [trapAnswers,answersWire_append,answersWire_cons,List.length_append,List.length_append] at stops
  rw [skipQuestion_zeroEnded questionAt (by omega) zero,trapAnswers,
    answerLoop_append answersAt.1 (by omega)]
  · exact answer_trapped labelled pointer answersAt.2.1 (by omega)
  · simp only [List.mem_map]
    rintro _ ⟨m,member,rfl⟩
    exact ⟨plain m member,blank_not_address m⟩

end

/-- Names that the parser can follow: a zero byte ends the question, and a pointer stands
only where the whole name is one. -/
def Followed (question : Name) (names : List Name) : Prop :=
  names ≠ [] → question.ZeroEnded ∧ ∀ n ∈ names, n.Plain

theorem plainAnswers_of_plain {answers : List Record}
    (plain : ∀ n ∈ answers.map Record.name, n.Plain) : PlainAnswers answers := by
  induction answers with
  | nil => trivial
  | cons a answers ih =>
    rw [List.map_cons,List.forall_mem_cons] at plain
    exact ⟨plain.1,.inr (ih plain.2)⟩

theorem mixed_of_not_plain {n : Name} (other : ¬n.Plain) :
    n.labels ≠ [] ∧ ∃ high low, n.ending = .pointer high low := by
  refine ⟨fun none => other (.inr none),?_⟩
  cases ended : n.ending with
  | zero => exact absurd (.inl ended) other
  | pointer high low => exact ⟨high,low,rfl⟩

open Classical in
theorem exists_first_not_plain {names : List Name} (mixed : ¬∀ n ∈ names, n.Plain) :
    ∃ before n after, names = before ++ n :: after ∧ (∀ m ∈ before, m.Plain) ∧ ¬n.Plain := by
  have found : (names.find? fun n => ¬n.Plain).isSome := by simpa using mixed
  obtain ⟨n,first⟩ := Option.isSome_iff_exists.mp found
  obtain ⟨other,before,after,split,plain⟩ := List.find?_eq_some_iff_append.mp first
  exact ⟨before,n,after,split,by simpa using plain,by simpa using other⟩

def Response.names (r : Response) : List Name := r.answers.map Record.name

/-- A response whose names are plain up to its first address is understood. For names of
at most 255 bytes, which leave room in the datagram, all responses with these names are
understood just when the parser can follow the names. -/
theorem replies_understood_iff (r : Response) :
    ((r.answers ≠ [] → r.question.ZeroEnded ∧ PlainAnswers r.answers) → Understood r) ∧
    ((∀ n ∈ r.names, n.wire.length ≤ 255) → leastLength r.question r.names + 274 < 2^16 - 8 →
      ((∀ r', r'.question = r.question → r'.names = r.names → Understood r') ↔
        Followed r.question r.names)) := by
  refine ⟨fun plain => understood_of_plain plain,fun short room => ?_⟩
  generalize r.names = names at short room
  generalize r.question = question at room
  constructor
  · intro understood some
    obtain ⟨first,rest,rfl⟩ := List.exists_cons_of_ne_nil some
    have zero : question.ZeroEnded := by
      cases ended : question.ending with
      | zero => exact ended
      | pointer high low =>
        obtain ⟨r,asked,named,misread⟩ := question_misread rest (short first (by simp)) room ended
        exact absurd (understood r asked named) misread
    refine ⟨zero,?_⟩
    by_contra mixed
    obtain ⟨before,n,after,split,plain,other⟩ := exists_first_not_plain mixed
    obtain ⟨labelled,high,low,pointer⟩ := mixed_of_not_plain other
    rw [split] at room understood
    obtain ⟨r,asked,named,misread⟩ := answer_misread zero plain labelled pointer room
    exact misread (understood r asked named)
  · intro followed r asked named
    apply understood_of_plain
    intro some
    rw [asked]
    rw [← named] at followed
    obtain ⟨zero,plain⟩ := followed (by simpa [Response.names] using some)
    exact ⟨zero,plainAnswers_of_plain plain⟩

/-- One label and a pointer to the question's name. -/
def compressed : Name := ⟨[⟨[0x61],by decide⟩],.pointer ⟨0xC0,by decide⟩ 0x0C⟩

def rootName : Name := ⟨[],.zero⟩

/-- An address for the root. -/
def rootAnswer : Response :=
  plainResponse rootName 1 1 [⟨rootName,1,1,0,[10,0,0,1],by decide⟩] (by decide)

theorem replies_understood_root :
    ∀ r, r.question = rootName → r.names = [rootName] → Understood r := by
  have short : ∀ n ∈ rootAnswer.names, n.wire.length ≤ 255 := by decide
  refine ((replies_understood_iff rootAnswer).2 short (by decide)).mpr fun _ => ?_
  exact ⟨rfl,List.forall_mem_singleton.mpr (.inl rfl)⟩

/-- An address for the name `a` in front of the question's name. -/
def compressedAnswer : Response :=
  plainResponse rootName 1 1 [⟨compressed,1,1,0,[10,0,0,1],by decide⟩] (by decide)

theorem compressed_answer_missed : ¬Understood compressedAnswer := by
  intro understood
  have fits : 8 + compressedAnswer.wire.length < 2^16 := by decide
  have arrives := datagram_arrives fits
  have reported := understood (netInit .e1000 broadcast) _ _ _ rfl arrives
  rw [handleUdp_arrives arrives] at reported
  have marks := congrArg State.dnsGotReply (Except.ok.inj reported)
  exact absurd marks (by decide +kernel)

end NimrodOS.Net.Dns
