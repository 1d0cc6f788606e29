import NimrodOS.Net

/-! DNS responses as they are on the wire: names are labels behind their lengths, ended
by a zero byte or by a pointer to an earlier place of the message. -/
namespace NimrodOS.Net.Dns

open Wire

abbrev Label := {bytes : List Byte // 1 ≤ bytes.length ∧ bytes.length ≤ 63}

def Label.wire (l : Label) : List Byte := BitVec.ofNat 8 l.val.length :: l.val

inductive Ending where
  | zero
  | pointer (high : {b : Byte // b &&& 0xC0 = 0xC0}) (low : Byte)

def Ending.wire : Ending → List Byte
  | .zero => [0]
  | .pointer high low => [high.val,low]

structure Name where
  labels : List Label
  ending : Ending

def labelsWire (labels : List Label) : List Byte := labels.flatMap Label.wire

def Name.wire (n : Name) : List Byte := labelsWire n.labels ++ n.ending.wire

structure Record where
  name : Name
  type : Half
  rclass : Half
  ttl : Word
  rdata : List Byte
  short : rdata.length < 2^16

/-- The fixed part behind the name. -/
def Record.fields (a : Record) : List Byte :=
  bigBytes16 a.type ++ bigBytes16 a.rclass ++ bigBytes32 a.ttl ++
    bigBytes16 (BitVec.ofNat 16 a.rdata.length)

def Record.wire (a : Record) : List Byte := a.name.wire ++ a.fields ++ a.rdata

def answersWire (answers : List Record) : List Byte := answers.flatMap Record.wire

/-- A response to one question. What follows the answers is left open. -/
structure Response where
  id : Half
  flags : Half
  isReply : flags &&& 0x8000 ≠ 0
  nscount : Half
  arcount : Half
  question : Name
  qtype : Half
  qclass : Half
  answers : List Record
  count : answers.length < 2^16
  rest : List Byte

def Response.header (r : Response) : List Byte :=
  bigBytes16 r.id ++ bigBytes16 r.flags ++ bigBytes16 1 ++
    bigBytes16 (BitVec.ofNat 16 r.answers.length) ++ bigBytes16 r.nscount ++ bigBytes16 r.arcount

def Response.wire (r : Response) : List Byte :=
  r.header ++ r.question.wire ++ (bigBytes16 r.qtype ++ bigBytes16 r.qclass) ++
    answersWire r.answers ++ r.rest

/-! What a resolver looks for. -/

/-- An address record: type A with four bytes of data. -/
def Record.IsAddress (a : Record) : Prop := a.type = 1 ∧ a.rdata.length = 4

instance (a : Record) : Decidable a.IsAddress := inferInstanceAs (Decidable (_ ∧ _))

def Record.address (a : Record) : Word := big32 (fun i => a.rdata.getD i 0) 0

/-- The address of the first address record. -/
def firstAddress : List Record → Option Word
  | [] => none
  | a :: answers => if a.IsAddress then some a.address else firstAddress answers

/-! Shapes of names. -/

def Name.ZeroEnded (n : Name) : Prop := n.ending = .zero

/-- A name without a pointer behind labels. -/
def Name.Plain (n : Name) : Prop := n.ZeroEnded ∨ n.labels = []

/-- The names up to the first address record are plain. -/
def PlainAnswers : List Record → Prop
  | [] => True
  | a :: answers => a.name.Plain ∧ (a.IsAddress ∨ PlainAnswers answers)

/-! Sizes. -/

section

variable {n : Name} {a : Record} {labels : List Label}

theorem labelsWire_cons (l : Label) (labels : List Label) :
    labelsWire (l :: labels) = Label.wire l ++ labelsWire labels := rfl

theorem label_length (l : Label) : (Label.wire l).length = 1 + l.val.length := by
  simp [Label.wire,Nat.add_comm]

theorem labels_count (labels : List Label) : labels.length ≤ (labelsWire labels).length := by
  induction labels with
  | nil => simp
  | cons l labels ih =>
    rw [labelsWire_cons,List.length_append,List.length_cons,label_length]
    omega

theorem name_length (n : Name) : n.wire.length = (labelsWire n.labels).length +
    n.ending.wire.length := List.length_append

theorem ending_length (e : Ending) : 1 ≤ e.wire.length := by
  cases e <;> simp [Ending.wire]

theorem fields_length (a : Record) : a.fields.length = 10 := rfl

theorem record_length (a : Record) : a.wire.length = a.name.wire.length + 10 + a.rdata.length := by
  rw [Record.wire,List.length_append,List.length_append,fields_length]

theorem header_length (r : Response) : r.header.length = 12 := rfl

theorem answersWire_cons (a : Record) (answers : List Record) :
    answersWire (a :: answers) = a.wire ++ answersWire answers := rfl

/-- The first byte of a label is its length. -/
theorem length_byte (l : Label) : (BitVec.ofNat 8 l.val.length).toNat = l.val.length := by
  have := l.property
  exact Nat.mod_eq_of_lt (by omega)

theorem short_not_pointer : ∀ n : Fin 64, BitVec.ofNat 8 n.val &&& 0xC0 ≠ 0xC0 := by decide

theorem length_not_pointer (l : Label) :
    BitVec.ofNat 8 l.val.length &&& (0xC0 : Byte) ≠ 0xC0 :=
  short_not_pointer ⟨l.val.length,Nat.lt_succ_of_le l.property.2⟩

theorem length_ne_zero (l : Label) : BitVec.ofNat 8 l.val.length ≠ (0 : Byte) := by
  intro zero
  have same := congrArg BitVec.toNat zero
  rw [length_byte] at same
  have := l.property.1
  have : (0 : Byte).toNat = 0 := rfl
  omega

end

end NimrodOS.Net.Dns
